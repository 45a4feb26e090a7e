import NodalMerge.Crdt.Mst
import NodalMerge.Host.Checkpoints
import NodalMerge.Server.Import

namespace NodalMerge

namespace StateGraph

def setConflictStreamEnabled (graph : StateGraph) (enabled : Bool) : StateGraph :=
  { graph with stateCaches := { graph.stateCaches with conflictStreamEnabled := enabled } }

/-- The graph without the events that `drain_pending_conflicts` takes. -/
def drainPendingConflicts (graph : StateGraph) : StateGraph :=
  { graph with stateCaches := { graph.stateCaches with pendingConflicts := [] } }

def missingHashes (graph : StateGraph) (remoteKnown : List NodeId) : List NodeId :=
  graph.nodes.allIds.filter fun id => !remoteKnown.contains id

def getNodes (graph : StateGraph) (ids : List NodeId) : List SyncNode :=
  ids.filterMap graph.nodes.get

end StateGraph

namespace Host

structure ConflictFingerprint where
  kind : ConflictKind
  key : String
  winnerLamport : Nat
  winnerAuthor : PublicKey
  loserLamport : Nat
  loserAuthor : PublicKey
  deriving DecidableEq

def fingerprint (event : ConflictEvent) : ConflictFingerprint :=
  ⟨event.kind, event.key, event.winnerLamport, event.winnerAuthor, event.loserLamport,
    event.loserAuthor⟩

def conflictHistoryLimit : Nat := 256

structure Graphs where
  roomPolicies : String → Policy
  roomSyncGraphs : HashMap String StateGraph
  roomConflictFingerprints : String → Finset ConflictFingerprint
  roomConflictHistory : String → List ConflictEntry

/-- The ids of the first list that the second has not, without repeats and in order. -/
def hexDifference (ids others : List NodeId) : List String :=
  ((ids.dedup.filter fun id => others.all (· ≠ id)).insertionSort (· ≤ ·)).map Hash.toHex

def graphFrontierHeadsHex (graph : StateGraph) : List String := graph.frontier.heads.map Hash.toHex

def graphCausalParentsHex (graph : StateGraph) (nodeIdHex : String) : List String × Bool :=
  match (parseHex 32 nodeIdHex).bind graph.nodes.get with
  | some node => (node.parents.map Hash.toHex, true)
  | none => ([], false)

def graphCanonicalResolutionEntries (graph : StateGraph) : List CanonicalMapEntry :=
  (sortedKeys graph.stateCaches.mapCanonical.keys).filterMap fun key =>
    (graph.resolveCanonical key).map fun value => ⟨key, base64Encode value⟩

/-- Clock, id and touched keys of a node that a replay range shows. -/
def replayItem (keyPrefix : String) (node : SyncNode) : Option (Nat × String × List String) :=
  let touched := (node.transaction.ops.map Op.key).filter (startsWith keyPrefix)
  if touched.isEmpty then none else some (node.lamport, Hash.toHex node.id, touched)

def graphReplayReadRange (graph : StateGraph) (keyPrefix : String)
    (fromLamport limit offset : Nat) :
    Option (List (Nat × String × List String) × Option String) :=
  let events := ((graph.nodes.data.filter fun node => fromLamport ≤ node.lamport).filterMap
    (replayItem keyPrefix)).insertionSort
      fun first second => toLex (first.1, first.2.1) ≤ toLex (second.1, second.2.1)
  let last := min (saturatingAdd offset (max limit 1)) events.length
  let nextCursor := if last < events.length then some ("offset:" ++ toString last) else none
  if offset < events.length then
    (sliceRange events offset last).map fun page => (page, nextCursor)
  else some ([], nextCursor)

/-- `parse_replay_cursor_offset` and `projection_page_offset`. -/
def parseOffset (token : Option String) : Nat :=
  ((token.bind (stripPrefix "offset:")).bind parseU64).getD 0

def graphSyncDiffHex (graph : StateGraph) (peerNodeIdsHex : List String) :
    List String × List String :=
  let peerIds := peerNodeIdsHex.filterMap (parseHex 32)
  let serverIds := graph.nodes.allIds
  (hexDifference serverIds peerIds, hexDifference peerIds serverIds)

/-- `hex_to_nibble_path`. -/
def hexToNibblePath (path : String) : Option (List Nibble) :=
  (asBytes path).mapM fun byte => (hexNibble byte).bind fun value =>
    if below : value < 16 then some ⟨value, below⟩ else none

def mstWireValue (path : String) (wire : MstNodeWire) : Value :=
  .object [
    ("children", .object ((List.finRange 16).filterMap fun nibble =>
      (wire.children nibble).map fun hash =>
        (nibble.val.digitChar.toString, .string (Hash.toHex hash)))),
    ("hash", .string (Hash.toHex wire.hash)),
    ("keys", .array (wire.keys.map fun id => .string (Hash.toHex id))),
    ("path", .string path)]

def promotionIdKey : String := "_promotion/id"

def promotionSeqKey : String := "_promotion/source_snapshot_seq"

def promotionIdHex (crypto : Crypto) (room : String) (seq : Nat)
    (snapshot : CanonicalSnapshotState) : String :=
  deterministicHex64 crypto (room ++ ":" ++ toString seq ++ ":" ++ snapshot.canonicalHash)

/-- The node has the marker of the promotion. Bytes that are not UTF-8 read lossily as a
text that is no hex digest. -/
def carriesPromotion (idHex : String) (node : SyncNode) : Bool :=
  node.transaction.ops.any fun op =>
    match op with
    | .map (.set key value) => key = promotionIdKey && value = utf8 idHex
    | _ => false

def rowOps (rows : Rows) : List Op :=
  (sortedEntries rows).map fun row => .map (.set row.1 (valueBytes row.2))

def promotionOps (seq : Nat) (idHex : String) (rows : Rows) : List Op :=
  rowOps rows ++ [.map (.set promotionSeqKey (toLeBytes 8 seq)),
    .map (.set promotionIdKey (utf8 idHex))]

/-- The node has no author and no signature, and its clock counts the nodes. -/
def promotionNode (crypto : Crypto) (nowUnixMs : Nat) (graph : StateGraph) (seq : Nat)
    (idHex : String) (rows : Rows) : SyncNode :=
  .new crypto ⟨Bytes.zero 32, graph.nodes.allIds.length + 1, nowUnixMs,
    promotionOps seq idHex rows, graph.frontier.heads⟩

/-- The graph after the promotion and the id that is answered. -/
def promoteToGraph (crypto : Crypto) (room : String) (nowUnixMs : Nat) (graph : StateGraph)
    (seq : Nat) (snapshot : CanonicalSnapshotState) : StateGraph × NodeId :=
  let idHex := promotionIdHex crypto room seq snapshot
  match graph.nodes.data.find? (carriesPromotion idHex) with
  | some existing => (graph, existing.id)
  | none =>
    let node := promotionNode crypto nowUnixMs graph seq idHex snapshot.rows
    ((StateGraph.applyRemoteBatch crypto graph [node]).1, node.id)

/-- One turn of the loop over drained events: seen ones are skipped. -/
def observe (nowUnixMs : Nat) (state : Finset ConflictFingerprint × List ConflictEntry)
    (event : ConflictEvent) : Finset ConflictFingerprint × List ConflictEntry :=
  if fingerprint event ∈ state.1 then state
  else (insert (fingerprint event) state.1, state.2 ++ [⟨nowUnixMs, event⟩])

namespace Graphs

def empty : Graphs := ⟨fun _ => .default, ∅, fun _ => ∅, fun _ => []⟩

variable (table : Graphs) (rooms : Finset String) (room : String)

def graph : StateGraph := (table.roomSyncGraphs.lookup room).getD .empty

def setGraph (graph : StateGraph) : Graphs :=
  { table with roomSyncGraphs := table.roomSyncGraphs.insert room graph }

/-- The part of `EnsureRoom` and `CreateTopologyChild` on these tables. -/
def ensureRoom : Graphs := table.setGraph room ((table.graph room).setConflictStreamEnabled true)

/-- One rule, or the message of the rejection. -/
def parseRule (rule : PolicyRulePayload) : Except String PolicyRule := do
  if rule.pathGlob = "" then throw "set-policy: each rule must have a 'path_glob' string"
  let canWrite ← rule.canWrite.mapM fun keyHex =>
    (parseHex 32 keyHex).elim (.error ("set-policy: invalid pubkey hex '" ++ keyHex ++ "'")) .ok
  return ⟨rule.pathGlob, canWrite, [], []⟩

def parsePolicy (fallback : String) (rules : List PolicyRulePayload) : Except String Policy := do
  let parsed ←
    if fallback = "deny" then .ok .denyAll
    else if fallback = "allow" then .ok .allowAll
    else .error ("set-policy: unknown default '" ++ fallback ++ "', use 'allow' or 'deny'")
  let parsedRules ← rules.mapM parseRule
  return ⟨parsedRules, parsed⟩

def setPolicy (fallback : String) (rules : List PolicyRulePayload) : Graphs × CommandResult :=
  if room ∉ rooms then (table, .error .roomNotFound)
  else
    match parsePolicy fallback rules with
    | .error msg => (table, .ok [.setPolicyRejected room msg])
    | .ok policy =>
      ({ table with
          roomPolicies := Function.update table.roomPolicies room policy
          roomSyncGraphs :=
            match table.roomSyncGraphs.lookup room with
            | some graph => table.roomSyncGraphs.insert room (graph.setPolicy policy)
            | none => table.roomSyncGraphs },
        .ok [.policySet room])

def decodePack (env : HostEnv) (nodesB64 : String) : Option (List SyncNode) :=
  (base64Decode nodesB64).bind env.unpackNodes

def importPack (env : HostEnv) (nowUnixMs : Nat) (nodesB64 : String) : Graphs × CommandResult :=
  if room ∉ rooms then (table, .error .roomNotFound)
  else
    match decodePack env nodesB64 with
    | none => (table, .error .invalidCommand)
    | some nodes =>
      let applied := hostImportPack env.crypto
        ((table.graph room).setConflictStreamEnabled true) nodes
      let detected := applied.1.stateCaches.pendingConflicts
      let observed := detected.foldl (observe nowUnixMs) (table.roomConflictFingerprints room, [])
      let history := table.roomConflictHistory room ++ observed.2
      let imported :=
        .packImported room nodes.length applied.2.accepted.length applied.2.rejected.length
      ({ table.setGraph room applied.1.drainPendingConflicts with
          roomConflictFingerprints :=
            Function.update table.roomConflictFingerprints room observed.1
          roomConflictHistory := Function.update table.roomConflictHistory room
            (history.drop (history.length - conflictHistoryLimit)) },
        .ok (if observed.2.isEmpty then [imported]
          else [imported, .conflictsObserved room observed.2]))

def shapeCatchupPackPayloadB64 (env : HostEnv) (nodes : List SyncNode) : String :=
  base64Encode (env.packNodes nodes)

/-- The pack of some nodes with the root of the graph. -/
def serverPack (env : HostEnv) (ids : List NodeId) : HostEvent :=
  .serverPackPrepared room (shapeCatchupPackPayloadB64 env ((table.graph room).getNodes ids))
    (Hash.toHex ((table.graph room).merkleRoot env.crypto))

def requestServerPack (env : HostEnv) (knownIds : List String) : CommandResult := do
  if room ∉ rooms then throw .roomNotFound
  return [table.serverPack room env
    ((table.graph room).missingHashes (knownIds.filterMap (parseHex 32)))]

def mstRequest (env : HostEnv) (paths : List String) : CommandResult := do
  if room ∉ rooms then throw .roomNotFound
  let tree := fromIds env.keyed (table.graph room).nodes.allIds
  return [.mstResponsePrepared room (paths.filterMap fun path =>
    ((hexToNibblePath path).bind (getNodeWire tree)).map (mstWireValue path))]

def mstDone (env : HostEnv) (ids : List String) : CommandResult := do
  if room ∉ rooms then throw .roomNotFound
  return [table.serverPack room env (ids.filterMap (parseHex 32))]

def inspectPack (env : HostEnv) (nodesB64 : String) : CommandResult :=
  match decodePack env nodesB64 with
  | none => .error .invalidCommand
  | some nodes =>
    let packIds := nodes.map SyncNode.id
    let parents := nodes.flatMap SyncNode.parents
    .ok [.packInspected nodes.length (hexDifference parents packIds)
      (hexDifference packIds parents)]

def getRecentConflicts (sinceUnixMs : Option Nat) : CommandResult := do
  if room ∉ rooms then throw .roomNotFound
  return [.recentConflictsListed room ((table.roomConflictHistory room).filter fun entry =>
    sinceUnixMs.getD 0 ≤ entry.atUnixMs)]

def replayItemValue (item : Nat × String × List String) : Value :=
  .object [("lamport", .number (.posInt item.1)), ("node_id", .string item.2.1),
    ("touched_keys", .array (item.2.2.map .string))]

def replayReadRange (keyPrefix : String) (fromLamport : Nat) (limit : Option Nat)
    (cursor : Option String) : Option CommandResult :=
  if room ∉ rooms then some (.error .roomNotFound)
  else if trim keyPrefix = "" then
    some (.ok [.replayRangeRejected room "reject.invalid_payload"
      "replay.read-range requires non-empty key_prefix"])
  else
    (graphReplayReadRange (table.graph room) (trim keyPrefix) fromLamport
      (max (limit.getD 100) 1) (parseOffset cursor)).map fun page =>
        .ok [.replayRangeRead room (trim keyPrefix) fromLamport (page.1.map replayItemValue)
          page.2]

def getFrontier : CommandResult := do
  if room ∉ rooms then throw .roomNotFound
  return [.frontierQueried room (graphFrontierHeadsHex (table.graph room))]

def getCausalParents (nodeIdHex : String) : CommandResult := do
  if room ∉ rooms then throw .roomNotFound
  let (parents, found) := graphCausalParentsHex (table.graph room) nodeIdHex
  return [.causalParentsQueried room nodeIdHex parents found]

def getCanonicalResolution : CommandResult := do
  if room ∉ rooms then throw .roomNotFound
  let entries := graphCanonicalResolutionEntries (table.graph room)
  return [.canonicalResolutionQueried room entries entries.length]

def computeSyncDiff (peerNodeIdsHex : List String) : CommandResult := do
  if room ∉ rooms then throw .roomNotFound
  let (onlyInServer, onlyInPeer) := graphSyncDiffHex (table.graph room) peerNodeIdsHex
  return [.syncDiffComputed room onlyInServer onlyInPeer]

end Graphs

end Host

end NodalMerge
