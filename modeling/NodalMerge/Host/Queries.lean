import NodalMerge.Host.Graphs

namespace NodalMerge.Host

structure QuerySpecState where
  version : String
  descriptor : Value

structure ProjectionState where
  querySpecId : String
  checkpoint : Value
  rows : List Value
  digest : String
  invalidated : Bool
  invalidationReason : Option String

/-- `room_query_specs` and `room_projections`. -/
structure Queries where
  querySpecs : String → HashMap String QuerySpecState
  projections : String → HashMap String ProjectionState

/-- The text of a row under a key, empty when it is no string. -/
def rowText (row : Value) (key : String) : String := ((row.get key).bind Value.asStr).getD ""

def computeProjectionDigest (crypto : Crypto) (projectionId querySpecId version : String)
    (rows : List Value) : String :=
  let payloads := (rows.map fun row => rowText row "k" ++ "=" ++ rowText row "v").insertionSort
    (· ≤ ·)
  deterministicHex64 crypto ("projection=" ++ projectionId ++ "|spec=" ++ querySpecId ++
    "|version=" ++ version ++ "|rows=" ++ ";".intercalate payloads)

def optionalString (text : Option String) : Value := text.elim .null .string

/-- The rows of a snapshot under the prefix of the specification, if it has one. -/
def projectionRows (projectionId querySpecId : String) (spec : QuerySpecState) (rows : Rows) :
    List Value :=
  let under := (spec.descriptor.get "prefix").bind Value.asStr
  ((sortedEntries rows).filter fun row => under.all fun start => startsWith start row.1).map
    fun row => .object [("k", .string row.1), ("prefix", optionalString under),
      ("projection_id", .string projectionId), ("query_spec_id", .string querySpecId),
      ("v", .string row.2.plainText), ("version", .string spec.version)]

namespace Queries

def empty : Queries := ⟨fun _ => ∅, fun _ => ∅⟩

variable (table : Queries) (rooms : Finset String) (room : String)

def setProjection (projectionId : String) (projection : ProjectionState) : Queries :=
  { table with
    projections := Function.update table.projections room
      ((table.projections room).insert projectionId projection) }

def registerQuerySpec (crypto : Crypto) (querySpecId version : String) (descriptor : Value) :
    Queries × CommandResult :=
  if room ∉ rooms ∨ querySpecId = "" ∨ version = "" then (table, .error .invalidCommand)
  else
    ({ table with
        querySpecs := Function.update table.querySpecs room
          ((table.querySpecs room).insert querySpecId ⟨version, descriptor⟩) },
      .ok [.querySpecRegistered room querySpecId version
        (.string (deterministicHex64 crypto
          ("query-spec:" ++ room ++ ":" ++ querySpecId ++ ":" ++ version))) true])

def checkpointValue (selector : String) (snapshot : CanonicalSnapshotState) : Value :=
  .object [("canonical_hash", .string snapshot.canonicalHash),
    ("canonical_seq", .number (.posInt snapshot.sequence)),
    ("frontier", .array (snapshot.frontier.map .string)), ("selector", .string selector)]

def unknownCheckpoint : String :=
  "projection.build.target_checkpoint does not resolve to known canonical snapshot"

def buildProjection (crypto : Crypto) (checkpoints : Checkpoints)
    (projectionId querySpecId : String) (targetCheckpoint : Option Value) :
    Queries × CommandResult :=
  if room ∉ rooms ∨ projectionId = "" ∨ querySpecId = "" then (table, .error .invalidCommand)
  else
    let rejected (reasonClass reasonMessage : String) : Queries × CommandResult :=
      (table, .ok [.projectionBuildRejected room projectionId reasonClass reasonMessage])
    match (table.querySpecs room).lookup querySpecId with
    | none =>
      rejected "reject.query_spec_not_found" "projection.build.query_spec_id is not registered"
    | some spec =>
      match checkpoints.resolveCanonicalCheckpoint room targetCheckpoint with
      | .selectorInvalid => rejected "reject.checkpoint_selector_invalid" unknownCheckpoint
      | .notFound => rejected "reject.checkpoint_not_found" unknownCheckpoint
      | .resolved _ snapshot =>
        let rows := projectionRows projectionId querySpecId spec snapshot.rows
        let digest := computeProjectionDigest crypto projectionId querySpecId spec.version rows
        let checkpoint := checkpointValue (Checkpoints.selectorText targetCheckpoint) snapshot
        (table.setProjection room projectionId
            ⟨querySpecId, checkpoint, rows, digest, false, none⟩,
          .ok [.projectionBuildCompleted room projectionId checkpoint (.string digest)])

/-- The page of a projection from an offset; `none` is the overflow of the end, or the
panic on a page that starts behind the last row. -/
def page (projection : ProjectionState) (start pageLimit : Nat) :
    Option (List Value × Option Value) := do
  let stop ← checkedAdd start pageLimit
  let endExclusive := min stop projection.rows.length
  let rows ← sliceRange projection.rows start endExclusive
  return (rows, if endExclusive < projection.rows.length
    then some (.string ("offset:" ++ toString endExclusive)) else none)

def readProjection (projectionId : String) (limit : Nat) (pageToken : Option String) :
    Option CommandResult :=
  if room ∉ rooms ∨ projectionId = "" then some (.error .invalidCommand)
  else
    match (table.projections room).lookup projectionId with
    | none =>
      some (.ok [.projectionReadResult room projectionId (.object [("selector", .string "latest")])
        [] none none])
    | some projection =>
      (page projection (parseOffset pageToken) (if limit = 0 then 1 else limit)).map fun read =>
        .ok [.projectionReadResult room projectionId projection.checkpoint read.1
          (some (.string projection.digest)) read.2]

def invalidateProjection (projectionId reason : String) : Queries × CommandResult :=
  if room ∉ rooms ∨ projectionId = "" then (table, .error .invalidCommand)
  else
    let answer : CommandResult :=
      .ok [.projectionInvalidated room projectionId reason (.number (.posInt 0))]
    match (table.projections room).lookup projectionId with
    | some projection =>
      (table.setProjection room projectionId
        { projection with invalidated := true, invalidationReason := some reason }, answer)
    | none => (table, answer)

/-- The filters of a listing; a filter by an unknown state lets everything pass. -/
def listed (querySpecId stateFilter : Option String) (projection : ProjectionState) : Bool :=
  querySpecId.all (fun spec => projection.querySpecId = spec) &&
    stateFilter.all fun filter =>
      !(eqIgnoreAsciiCase filter "active" && projection.invalidated) &&
        !(eqIgnoreAsciiCase filter "invalidated" && !projection.invalidated)

def projectionItem (entry : String × ProjectionState) : Value :=
  .object [("checkpoint", entry.2.checkpoint), ("digest", .string entry.2.digest),
    ("invalidation_reason", optionalString entry.2.invalidationReason),
    ("projection_id", .string entry.1), ("query_spec_id", .string entry.2.querySpecId),
    ("state", .string (if entry.2.invalidated then "invalidated" else "active"))]

def listProjections (querySpecId stateFilter : Option String) : CommandResult := do
  if room ∉ rooms then throw .roomNotFound
  return [.projectionListResult room querySpecId
    (((sortedEntries (table.projections room)).filter fun entry =>
      listed querySpecId stateFilter entry.2).map projectionItem) none]

end Queries

end NodalMerge.Host
