import NodalMerge.Host.Documents

namespace NodalMerge.Host

open Function

structure CanonicalSnapshotState where
  sequence : Nat
  rows : Rows
  canonicalHash : String
  frontier : List String

structure PromotionState where
  parentRoomId : String
  childRoomId : String
  childCheckpointHash : String
  payloadRef : String
  proposalDigest : String
  validated : Bool
  applied : Bool

/-- `room_maps`, the tables of canonical rows, and `topology_promotions`. A room without
an entry in a table of rows has no rows, the sequence number 0 and no snapshots. -/
structure Checkpoints where
  roomMaps : HashMap String (HashMap String Value)
  canonicalRows : String → Rows
  canonicalSeq : String → Nat
  canonicalSnapshots : String → HashMap Nat CanonicalSnapshotState
  canonicalHashIndex : String → HashMap String Nat
  topologyPromotions : HashMap String PromotionState

def seqToken (seq : Nat) : String := "seq:" ++ toString seq

def isHex64 (input : String) : Bool :=
  (utf8 input).length = 64 &&
    input.toList.all fun char => char.isDigit || ('a' ≤ char && char ≤ 'f') ||
      ('A' ≤ char && char ≤ 'F')

/-- The outcome of resolving a selector. -/
inductive CheckpointResolution where
  | resolved (seq : Nat) (snapshot : CanonicalSnapshotState)
  | selectorInvalid
  | notFound

namespace Checkpoints

def empty : Checkpoints :=
  ⟨∅, fun _ => ∅, fun _ => 0, fun _ => ∅, fun _ => ∅, ∅⟩

variable (crypto : Crypto) (table : Checkpoints) (rooms : Finset String) (room : String)

def liveMap : HashMap String Value := (table.roomMaps.lookup room).getD ∅

def setLive (map : HashMap String Value) : Checkpoints :=
  { table with roomMaps := table.roomMaps.insert room map }

/-- The rows of a room are replaced and kept as the snapshot `next`. -/
def recorded (rows : Rows) (next : Nat) : Checkpoints :=
  let hash := contentCanonicalHash crypto rows
  { table with
    canonicalRows := update table.canonicalRows room rows
    canonicalSeq := update table.canonicalSeq room next
    canonicalSnapshots := update table.canonicalSnapshots room
      ((table.canonicalSnapshots room).insert next ⟨next, rows, hash, [seqToken next]⟩)
    canonicalHashIndex := update table.canonicalHashIndex room
      ((table.canonicalHashIndex room).insert hash next) }

/-- `none` is the overflow of the sequence number. -/
def recordRows (rows : Rows) : Option Checkpoints :=
  (increment (table.canonicalSeq room)).map (table.recorded crypto room rows)

/-- The snapshot 0 of a room without rows. -/
def initialSnapshot : CanonicalSnapshotState :=
  ⟨0, ∅, emptyRowsCanonicalHash crypto, [seqToken 0]⟩

/-- The part of `EnsureRoom` on these tables: what is there already stays. -/
def ensureRoom : Checkpoints :=
  { table.setLive room (table.liveMap room) with
    canonicalSnapshots := update table.canonicalSnapshots room
      ((table.canonicalSnapshots room).insert 0
        (((table.canonicalSnapshots room).lookup 0).getD (initialSnapshot crypto)))
    canonicalHashIndex := update table.canonicalHashIndex room
      ((table.canonicalHashIndex room).insert (emptyRowsCanonicalHash crypto)
        (((table.canonicalHashIndex room).lookup (emptyRowsCanonicalHash crypto)).getD 0)) }

section
variable (ns key : String)

def mapSet (value : Value) : Option (Checkpoints × CommandResult) :=
  match checkKey rooms room key with
  | .error error => some (table, .error error)
  | .ok () =>
    let written := table.setLive room ((table.liveMap room).insert (scopedMapKey ns key) value)
    let recorded :=
      if startsWith "_" key then some written
      else written.recordRows crypto room ((table.canonicalRows room).insert key value)
    recorded.map fun after => (after, .ok [.mapValueUpserted room ns key value])

def mapDelete : Option (Checkpoints × CommandResult) :=
  match checkKey rooms room key with
  | .error error => some (table, .error error)
  | .ok () =>
    let found := ((table.liveMap room).lookup (scopedMapKey ns key)).isSome
    let removed := table.setLive room ((table.liveMap room).erase (scopedMapKey ns key))
    let recorded :=
      if found && !startsWith "_" key then
        removed.recordRows crypto room ((table.canonicalRows room).erase key)
      else some removed
    recorded.map fun after => (after, .ok [.mapValueDeleted room ns key found])

def mapGet : CommandResult := do
  checkKey rooms room key
  return [.mapValueRead room ns key ((table.liveMap room).lookup (scopedMapKey ns key))]

def mapAll : CommandResult := do
  if room ∉ rooms then throw .roomNotFound
  return [.mapEntriesListed room ns ((sortedEntries (table.liveMap room)).filterMap fun entry =>
    (stripNamespaceFromScopedKey ns entry.1).map fun key => ⟨key, entry.2⟩)]

end

def roomLatestSnapshot : Option CanonicalSnapshotState :=
  ((table.canonicalSnapshots room).lookup (table.canonicalSeq room)).or
    ((table.canonicalSnapshots room).lookup 0)

/-- A token `seq:n` of a frontier selector. -/
def isSeqToken (token : Value) : Bool :=
  ((token.asStr.bind (stripPrefix "seq:")).bind parseU64).isSome

def selectorText (targetCheckpoint : Option Value) : String :=
  ((targetCheckpoint.bind (Value.get "selector")).bind Value.asStr).getD "latest"

def resolveCanonicalCheckpoint (targetCheckpoint : Option Value) : CheckpointResolution :=
  let selector := selectorText targetCheckpoint
  let snapshots := table.canonicalSnapshots room
  let found (selected : Option CanonicalSnapshotState) : CheckpointResolution :=
    match selected with
    | some snapshot => .resolved snapshot.sequence snapshot
    | none => .notFound
  if eqIgnoreAsciiCase selector "seq" then
    match (targetCheckpoint.bind (Value.get "canonical_seq")).bind Value.asU64 with
    | none => .selectorInvalid
    | some seq => found (snapshots.lookup seq)
  else if eqIgnoreAsciiCase selector "hash" then
    match (targetCheckpoint.bind (Value.get "canonical_hash")).bind Value.asStr with
    | none => .selectorInvalid
    | some hash =>
      if isHex64 hash then
        found (((table.canonicalHashIndex room).lookup hash).bind snapshots.lookup)
      else .selectorInvalid
  else if eqIgnoreAsciiCase selector "frontier" then
    -- The tokens are only checked: the snapshot is the latest one.
    match (targetCheckpoint.bind (Value.get "frontier")).bind Value.asArray with
    | none => .selectorInvalid
    | some tokens =>
      if !tokens.isEmpty && tokens.all isSeqToken then found (table.roomLatestSnapshot room)
      else .selectorInvalid
  else if eqIgnoreAsciiCase selector "latest" then found (table.roomLatestSnapshot room)
  else .selectorInvalid

/-- `PromoteCheckpointToGraph` notes the frontier of the graph at the snapshot. -/
def setSnapshotFrontier (seq : Nat) (frontier : List String) : Checkpoints :=
  { table with
    canonicalSnapshots := update table.canonicalSnapshots room
      (match (table.canonicalSnapshots room).lookup seq with
      | some stored => (table.canonicalSnapshots room).insert seq { stored with frontier }
      | none => table.canonicalSnapshots room) }

def lineageKey : String := "_topology/lineage"

def lineageValue (parentRoomId childPurpose createdBy promotionPolicyId : String)
    (parentCheckpoint : Value) : Value :=
  .object [("child_purpose", .string childPurpose), ("created_at_hlc", .number (.posInt 1)),
    ("created_by", .string createdBy), ("parent_checkpoint", parentCheckpoint),
    ("parent_room_id", .string parentRoomId), ("promotion_policy_id", .string promotionPolicyId)]

/-- The part of `CreateTopologyChild` on these tables; the child gets no snapshot 0. -/
def createTopologyChild (childRoomId : String) (lineage : Value) : Checkpoints :=
  table.setLive childRoomId ((table.liveMap childRoomId).insert lineageKey lineage)

def describeRoomLineage : CommandResult := do
  if room ∉ rooms then throw .roomNotFound
  return [.roomLineageDescribed room ((table.liveMap room).lookup lineageKey) []]

/-- The row of one room in the list of children. -/
def childRow (parentRoomId : String) (entry : String × HashMap String Value) : Option Value :=
  match entry.2.lookup lineageKey with
  | none => none
  | some lineage =>
    let text (key : String) : String := (lineage.index key).asStr.getD ""
    if (lineage.index "parent_room_id").asStr = some parentRoomId then
      some (.object [("child_purpose", .string (text "child_purpose")),
        ("child_room_id", .string entry.1), ("created_by", .string (text "created_by")),
        ("promotion_policy_id", .string (text "promotion_policy_id"))])
    else none

def listTopologyChildren (parentRoomId : String) : CommandResult := do
  if parentRoomId ∉ rooms then throw .roomNotFound
  return [.childrenListed parentRoomId
    ((sortedEntries table.roomMaps).filterMap (childRow parentRoomId))]

def proposalDigest (parentRoomId childRoomId childCheckpointHash payloadRef : String) : String :=
  deterministicHex64 crypto
    (parentRoomId ++ ":" ++ childRoomId ++ ":" ++ childCheckpointHash ++ ":" ++ payloadRef)

def proposeTopologyPromotion (parentRoomId childRoomId childCheckpointHash payloadRef : String)
    (idempotencyKey : Option String) : Checkpoints × CommandResult :=
  if parentRoomId ∉ rooms ∨ childRoomId ∉ rooms ∨ childCheckpointHash = "" ∨ payloadRef = "" then
    (table, .error .invalidCommand)
  else
    let digest := proposalDigest crypto parentRoomId childRoomId childCheckpointHash payloadRef
    let proposalId := idempotencyKey.getD digest
    ({ table with
        topologyPromotions := table.topologyPromotions.insert proposalId
          ⟨parentRoomId, childRoomId, childCheckpointHash, payloadRef, digest, false, false⟩ },
      .ok [.promotionProposed proposalId parentRoomId childRoomId childCheckpointHash payloadRef
        digest])

def validateTopologyPromotion (proposalId : String) : Checkpoints × CommandResult :=
  match table.topologyPromotions.lookup proposalId with
  | none => (table, .error .invalidCommand)
  | some promotion =>
    if ((table.canonicalHashIndex promotion.childRoomId).lookup
        promotion.childCheckpointHash).isSome then
      ({ table with
          topologyPromotions := table.topologyPromotions.insert proposalId
            { promotion with validated := true } },
        .ok [.promotionValidated proposalId (deterministicHex64 crypto
          ("validate:" ++ proposalId ++ ":" ++ promotion.proposalDigest ++ ":" ++
            promotion.childCheckpointHash))])
    else
      (table, .ok [.promotionValidationRejected proposalId "reject.promotion_checkpoint_not_found"
        ("child_checkpoint_hash does not identify a known canonical snapshot of " ++
          "the child room")])

/-- The rows of the checkpoint that a promotion names, as the child room has them now. -/
def childRows (promotion : PromotionState) : Rows :=
  ((((table.canonicalHashIndex promotion.childRoomId).lookup promotion.childCheckpointHash).bind
    (table.canonicalSnapshots promotion.childRoomId).lookup).map
    CanonicalSnapshotState.rows).getD ∅

def auditKey (proposalId : String) : String := "_topology/promotion/" ++ proposalId

def auditValue (proposalId : String) (promotion : PromotionState) : Value :=
  .object [("child_checkpoint_hash", .string promotion.childCheckpointHash),
    ("child_room_id", .string promotion.childRoomId),
    ("parent_room_id", .string promotion.parentRoomId),
    ("payload_ref", .string promotion.payloadRef),
    ("proposal_digest", .string promotion.proposalDigest),
    ("proposal_id", .string proposalId), ("validation_applied", .bool true)]

/-- The flag `applied` is set and never looked at. -/
def applyTopologyPromotion (proposalId : String) : Option (Checkpoints × CommandResult) :=
  match table.topologyPromotions.lookup proposalId with
  | none => some (table, .error .invalidCommand)
  | some promotion =>
    if !promotion.validated then some (table, .error .invalidCommand)
    else
      let parent := promotion.parentRoomId
      let marked := { table with
        topologyPromotions := table.topologyPromotions.insert proposalId
          { promotion with applied := true } }
      -- The child's rows take the place of the parent's.
      let merged := table.childRows promotion ∪ table.canonicalRows parent
      (marked.recordRows crypto parent merged).map fun after =>
        (after.setLive parent
            ((after.liveMap parent).insert (auditKey proposalId) (auditValue proposalId promotion)),
          .ok [.promotionApplied proposalId parent (contentCanonicalHash crypto merged)
            (auditKey proposalId)])

def compatibilityWindow : Value :=
  .object [("max_supported", .string "1"), ("min_supported", .string "1")]

def stringList (texts : List String) : Value := .array (texts.map .string)

/-- A stub of the source: the digests are those of labels. -/
def describeArchive (archiveRef : String) : Option CommandResult :=
  if room ∉ rooms ∨ archiveRef = "" then some (.error .invalidCommand)
  else
    let (hash, frontier, rows) :=
      match table.roomLatestSnapshot room with
      | some snapshot => (snapshot.canonicalHash, snapshot.frontier, sortedEntries snapshot.rows)
      | none => (emptyRowsCanonicalHash crypto, [seqToken 0], [])
    let serialized := ";".intercalate (rows.map fun row => row.1 ++ "=" ++ row.2.text)
    let digest (label : String) : Value :=
      .string ("sha256:" ++ deterministicHex64 crypto label)
    (sliceTo hash (min 12 (utf8 hash).length)).map fun short =>
      .ok [.archiveDescribed room archiveRef ("m." ++ room ++ "." ++ short) "1" "full_clone"
        (.object [("canonical_hash", .string hash), ("frontier", stringList frontier)])
        (.object [("blobs", digest ("blobs:" ++ room ++ ":" ++ toString rows.length)),
          ("nodes", digest ("nodes:" ++ serialized))])
        compatibilityWindow
        (.object [("source_room", .string room), ("tool", .string "host-core")])]

def validateArchive (archiveRef mode : String) : CommandResult := do
  if room ∉ rooms ∨ archiveRef = "" then throw .invalidCommand
  if containsText "invalid-manifest" archiveRef then
    return [.archiveValidationRejected room archiveRef "reject.archive_manifest_invalid"
      "manifest missing required field: checkpoint.canonical_hash"]
  return [.archiveValidated room archiveRef true mode ["manifest", "compatibility"]
    compatibilityWindow]

/-- A stub of the source: nothing is imported. -/
def importArchive (archiveRef : String) (expectedCheckpoint : Option Value) : CommandResult := do
  if room ∉ rooms ∨ archiveRef = "" then throw .invalidCommand
  if containsText "digest-mismatch" archiveRef then
    return [.archiveImportRejected room archiveRef "reject.archive_digest_mismatch"
      "payload digest mismatch for nodes payload"]
  let hash := contentCanonicalHash crypto (table.canonicalRows room)
  let expected := (expectedCheckpoint.bind (Value.get "canonical_hash")).bind Value.asStr
  if expected.any fun text => text ≠ hash then
    return [.archiveImportRejected room archiveRef "reject.archive_digest_mismatch"
      "expected checkpoint canonical hash mismatch"]
  return [.archiveImported room archiveRef hash
    (.object [("canonical_hash", .string hash), ("frontier", stringList [seqToken 0])])
    (table.canonicalRows room).keys.card 0]

end Checkpoints

end NodalMerge.Host
