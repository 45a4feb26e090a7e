import NodalMerge.Crdt.Caches
import NodalMerge.Crdt.Policy
import NodalMerge.Crdt.Text

/-! Projection parity sampling and residency eviction do nothing at their default settings
and are left out. -/

namespace NodalMerge

def lamportSlack : Nat := 2 ^ 20

def wallSkewMaxMs : Nat := 24 * 60 * 60 * 1000

/-- `MemoryNodeStore`; the list keeps the order of admission. -/
structure MemoryNodeStore where
  data : List SyncNode

namespace MemoryNodeStore

def empty : MemoryNodeStore := ⟨[]⟩

def get (store : MemoryNodeStore) (id : NodeId) : Option SyncNode :=
  store.data.find? (fun node => node.id = id)

def contains (store : MemoryNodeStore) (id : NodeId) : Bool :=
  store.data.any (fun node => node.id = id)

def put (store : MemoryNodeStore) (node : SyncNode) : MemoryNodeStore :=
  ⟨store.data.filter (fun other => other.id ≠ node.id) ++ [node]⟩

def allIds (store : MemoryNodeStore) : List NodeId := store.data.map SyncNode.id

end MemoryNodeStore

structure Frontier where
  heads : List NodeId
  deriving DecidableEq

/-- Parents are no longer tips, the new node is one; heads stay sorted. -/
def Frontier.advance (frontier : Frontier) (node : SyncNode) : Frontier :=
  let kept := node.parents.foldl
    (fun heads parent => heads.filter (fun head => head ≠ parent)) frontier.heads
  ⟨(if node.id ∈ kept then kept else kept ++ [node.id]).insertionSort (· ≤ ·)⟩

def snapHashKey : String := "\x00snap:hash"

/-- One `Set` on the snapshot hash key makes a node a snapshot node. -/
def isSnapshotNode (node : SyncNode) : Bool :=
  node.transaction.ops.any fun op =>
    match op with
    | .map (.set key _) => key = snapHashKey
    | _ => false

structure StateGraph where
  nodes : MemoryNodeStore
  leaves : Finset NodeId
  lamport : Nat
  policy : Policy
  frontier : Frontier
  localNodeIds : Finset NodeId
  verifiedIds : Finset NodeId
  localSigning : Bool
  textProjections : HashMap String TextProjection
  textProjectionMode : TextProjectionMode
  stateCaches : StateCaches

def checkLamportCeiling (localLamport : Nat) (node : SyncNode) : Except SyncError Unit :=
  let ceiling := saturatingAdd localLamport lamportSlack
  if ceiling < node.lamport then .error (.lamportCeiling node.id node.lamport ceiling) else .ok ()

def checkWallSkew (nowMs : Nat) (node : SyncNode) : Except SyncError Unit :=
  let wallMs := node.transaction.wallMs
  if wallMs = 0 then .ok ()
  else if saturatingAdd nowMs wallSkewMaxMs < wallMs then
    .error (.wallClockSkew node.id wallMs nowMs)
  else .ok ()

/-- The checks that precede any signature work: content hash, Lamport ceiling
and, when the caller has a clock, wall skew. -/
def precheck (crypto : Crypto) (localLamport : Nat) (nowMs : Option Nat) (node : SyncNode) :
    Except SyncError Unit := do
  let expected := crypto.txHash node.transaction
  if expected ≠ node.id then throw (.hashMismatch expected node.id)
  checkLamportCeiling localLamport node
  match nowMs with
  | some now => checkWallSkew now node
  | none => pure ()

/-- Identifiers a transaction reserves beyond its own Lamport value. -/
def extraInsertIds (ops : List Op) : Nat :=
  (ops.map fun op =>
    match op with
    | .text (.insertRange _ _ text) => text.toList.length - 1
    | _ => 0).sum

/-- Keys of the text ops of a node, one per op. -/
def textKeys (node : SyncNode) : List String :=
  node.transaction.ops.filterMap fun op =>
    match op with
    | .text op => some op.key
    | _ => none

def isRangeOpOn (key : String) : Op → Bool
  | .text (.insertRange opKey _ _) => opKey = key
  | .text (.deleteRange opKey _ _) => opKey = key
  | _ => false

/-- The key has a range op in the batch, so its ops are not coalesced. -/
def hasRangeOp (nodes : List SyncNode) (key : String) : Bool :=
  nodes.any fun node => node.transaction.ops.any (isRangeOpOn key)

def coalescedUpdate (tx : Transaction) (key : String) : Op → Option TextProjection.UpdateOp
  | .text (.insert opKey after ch) =>
    if opKey = key then some (.insert tx.opId after ch) else none
  | .text (.delete opKey target) => if opKey = key then some (.delete target) else none
  | _ => none

/-- The character ops of a batch on one key, in order. -/
def coalescedUpdates (nodes : List SyncNode) (key : String) : List TextProjection.UpdateOp :=
  nodes.flatMap fun node => node.transaction.ops.filterMap (coalescedUpdate node.transaction key)

structure BatchResult where
  accepted : List NodeId
  rejected : List (NodeId × SyncError)

def batchVerifyChunk : Nat := 256

/-- `slice::chunks`: `room` slots are left in the chunk being filled. -/
def chunksFrom {α : Type} (size : Nat) : Nat → List α → List α → List (List α)
  | _, current, [] => if current.isEmpty then [] else [current.reverse]
  | 0, current, item :: rest => current.reverse :: chunksFrom size (size - 1) [item] rest
  | room + 1, current, item :: rest => chunksFrom size room (item :: current) rest

/-- Verify one chunk of `(node, slot)` pairs: nodes whose key does not decode
are bad, the others are checked at once and, if that fails, one by one. -/
def verifyChunk (crypto : Crypto) (chunk : List (SyncNode × Nat)) : List (Nat × Bool) :=
  let bad := chunk.filter fun slot => !crypto.decodes slot.1.transaction.author
  let good := chunk.filter fun slot => crypto.decodes slot.1.transaction.author
  let triples := good.map fun slot => (slot.1.id, slot.1.signature, slot.1.transaction.author)
  bad.map (fun slot => (slot.2, false)) ++
    if crypto.verifyBatch triples then good.map fun slot => (slot.2, true)
    else good.map fun slot => (slot.2, (slot.1.verifySignature crypto).toBool)

namespace StateGraph

def empty : StateGraph where
  nodes := .empty
  leaves := ∅
  lamport := 0
  policy := .default
  frontier := ⟨[]⟩
  localNodeIds := ∅
  verifiedIds := ∅
  localSigning := true
  textProjections := ∅
  textProjectionMode := .enabled
  stateCaches := .empty

def noLeaves : Enumeration empty.leaves := ⟨[], .nil, rfl⟩

def setPolicy (graph : StateGraph) (policy : Policy) : StateGraph := { graph with policy }

def setLocalSigning (graph : StateGraph) (enabled : Bool) : StateGraph :=
  { graph with localSigning := enabled }

def insertNode (graph : StateGraph) (node : SyncNode) : Except SyncError StateGraph :=
  if graph.nodes.contains node.id then .error (.duplicateNode node.id)
  else .ok { graph with
    leaves := insert node.id (graph.leaves \ node.parents.toFinset)
    frontier := graph.frontier.advance node
    lamport := max graph.lamport node.lamport
    nodes := graph.nodes.put node }

/-- A projection is updated once for every text op of the node on its key. What the source does
next in the parity mode or under a residency limit is `ResidentGraph.settle`. -/
def updateTextProjectionFromNode (graph : StateGraph) (node : SyncNode) : StateGraph :=
  { graph with
    textProjections := (textKeys node).foldl (fun projections key =>
      projections.insert key
        (((projections.lookup key).getD .empty).applyNode node key)) graph.textProjections }

/-- The fold as it is in the default mode and without a residency limit, where nothing is
rebuilt or evicted after it. -/
def updateTextProjectionFromNodesBatch (graph : StateGraph) (nodes : List SyncNode) :
    StateGraph :=
  { graph with
    textProjections := (nodes.flatMap textKeys).dedup.foldl (fun projections key =>
      let projection := (projections.lookup key).getD .empty
      projections.insert key
        (if hasRangeOp nodes key then
          nodes.foldl (fun current node => current.applyNode node key) projection
        else projection.applyUpdatesCoalesced (coalescedUpdates nodes key)))
      graph.textProjections }

section
variable (crypto : Crypto) (graph : StateGraph)

def localTransaction (signingKey : crypto.SigningKey) (wallMs : Nat) (ops : List Op)
    (parents : Enumeration graph.leaves) : Transaction :=
  ⟨crypto.verifyingKey signingKey, graph.lamport + 1, wallMs, ops, parents.toList⟩

def localNode (signingKey : crypto.SigningKey) (wallMs : Nat) (ops : List Op)
    (parents : Enumeration graph.leaves) : SyncNode :=
  let transaction := localTransaction crypto graph signingKey wallMs ops parents
  if graph.localSigning then .newSigned crypto transaction signingKey
  else .new crypto transaction

/-- Apply a locally authored transaction. `none` is the panic on `lamport += 1`
at `u64::MAX`; on an error the clock has already moved. -/
def applyLocal (signingKey : crypto.SigningKey) (wallMs : Nat) (ops : List Op)
    (parents : Enumeration graph.leaves) : Option (StateGraph × Except SyncError NodeId) :=
  if u64Max < graph.lamport + 1 then none
  else
    let node := localNode crypto graph signingKey wallMs ops parents
    let clocked := { graph with
      lamport := saturatingAdd (graph.lamport + 1) (extraInsertIds ops) }
    match clocked.insertNode node with
    | .error error => some (clocked, .error error)
    | .ok inserted =>
      let cached := { inserted with
        stateCaches := inserted.stateCaches.updateStateCaches node false }
      let projected := cached.updateTextProjectionFromNode node
      some ({ projected with
        localNodeIds := insert node.id projected.localNodeIds
        verifiedIds := insert node.id projected.verifiedIds }, .ok node.id)

def checkParents (node : SyncNode) : Except SyncError Unit :=
  match node.parents.find? (fun parent => !graph.nodes.contains parent) with
  | some parent => .error (.missingParent parent)
  | none => .ok ()

/-- Snapshot nodes bypass the write policy as a whole. -/
def checkPolicy (node : SyncNode) : Except SyncError Unit :=
  if isSnapshotNode node then .ok ()
  else
    let author := node.transaction.author
    match node.transaction.ops.find? (fun op => !graph.policy.canWrite op.key author) with
    | some op => .error (.policyViolation author op.key)
    | none => .ok ()

def applyRemoteVerifiedNoProjection (node : SyncNode) : Except SyncError StateGraph := do
  graph.checkParents node
  graph.checkPolicy node
  let inserted ← graph.insertNode node
  return { inserted with stateCaches := inserted.stateCaches.updateStateCaches node true }

def applyRemoteVerified (node : SyncNode) : Except SyncError StateGraph := do
  let applied ← graph.applyRemoteVerifiedNoProjection node
  return applied.updateTextProjectionFromNode node

/-- The signature check is skipped for ids already verified in this session. -/
def checkSignature (node : SyncNode) : Except SyncError Unit :=
  if node.id ∈ graph.verifiedIds then .ok () else node.verifySignature crypto

def markVerified (id : NodeId) : StateGraph :=
  { graph with verifiedIds := insert id graph.verifiedIds }

/-- Once the signature passed, the id stays marked even if the node is then
rejected for its parents, the policy or as a duplicate. -/
def applyRemoteChecked (node : SyncNode) (nowMs : Option Nat) :
    StateGraph × Except SyncError Unit :=
  match precheck crypto graph.lamport nowMs node with
  | .error error => (graph, .error error)
  | .ok () =>
    match checkSignature crypto graph node with
    | .error error => (graph, .error error)
    | .ok () =>
      match (graph.markVerified node.id).applyRemoteVerified node with
      | .error error => (graph.markVerified node.id, .error error)
      | .ok applied => (applied, .ok ())

def applyRemote (node : SyncNode) : StateGraph × Except SyncError Unit :=
  applyRemoteChecked crypto graph node none

/-- Steps 1 and 2 of the batch: drop repeated and stored ids, then precheck
every node against the clock at the start of the batch. -/
def screenBatch (graph : StateGraph) (nowMs : Option Nat) (seen : Finset NodeId) :
    List SyncNode → List SyncNode × List (NodeId × SyncError)
  | [] => ([], [])
  | node :: rest =>
    if node.id ∈ seen then screenBatch graph nowMs seen rest
    else
      let screened := screenBatch graph nowMs (insert node.id seen) rest
      if graph.nodes.contains node.id then screened
      else
        match precheck crypto graph.lamport nowMs node with
        | .error error => (screened.1, (node.id, error) :: screened.2)
        | .ok () => (node :: screened.1, screened.2)

/-- Step 3: one verdict per node; unsigned and already verified nodes pass. -/
def verifyNodesBatched (nodes : List SyncNode) : List Bool :=
  let need := nodes.zipIdx.filter fun slot =>
    !slot.1.signature.isZero && !decide (slot.1.id ∈ graph.verifiedIds)
  let outputs := (chunksFrom batchVerifyChunk batchVerifyChunk [] need).map (verifyChunk crypto)
  outputs.foldl (fun results chunk =>
    chunk.foldl (fun results verdict => results.set verdict.1 verdict.2) results)
    (List.replicate nodes.length true)

/-- Step 4: apply in input order. -/
def applyBatch (graph : StateGraph) :
    List (SyncNode × Bool) → StateGraph × List SyncNode × List (NodeId × SyncError)
  | [] => (graph, [], [])
  | (node, false) :: rest =>
    let applied := applyBatch graph rest
    (applied.1, applied.2.1, (node.id, .invalidSignature node.id) :: applied.2.2)
  | (node, true) :: rest =>
    match (graph.markVerified node.id).applyRemoteVerifiedNoProjection node with
    | .ok inserted =>
      let applied := applyBatch inserted rest
      (applied.1, node :: applied.2.1, applied.2.2)
    | .error error =>
      let applied := applyBatch (graph.markVerified node.id) rest
      (applied.1, applied.2.1, (node.id, error) :: applied.2.2)

def applyRemoteBatchChecked (nodes : List SyncNode) (nowMs : Option Nat) :
    StateGraph × BatchResult :=
  let screened := screenBatch crypto graph nowMs ∅ nodes
  let applied := graph.applyBatch (screened.1.zip (verifyNodesBatched crypto graph screened.1))
  (applied.1.updateTextProjectionFromNodesBatch applied.2.1,
    ⟨applied.2.1.map SyncNode.id, screened.2 ++ applied.2.2⟩)

def applyRemoteBatch (nodes : List SyncNode) : StateGraph × BatchResult :=
  applyRemoteBatchChecked crypto graph nodes none

/-- Hash of the sorted leaf ids. -/
def merkleRoot : Hash :=
  crypto.blake3 (graph.leaves.sort.flatMap Subtype.val)

end

variable (graph : StateGraph)

def resolve (key : String) : Option (List U8) :=
  (graph.stateCaches.mapAll.lookup key).bind MapWinner.value

def resolveCanonical (key : String) : Option (List U8) :=
  (graph.stateCaches.mapCanonical.lookup key).bind MapWinner.value

def resolveWithMeta (key : String) : Option (Nat × PublicKey × List U8 × Bool) :=
  (graph.stateCaches.mapAll.lookup key).bind fun winner =>
    winner.value.map fun value => (winner.lamport, winner.author, value, winner.isBlob)

def referencedBlobHashes : Finset Hash := graph.stateCaches.blobHashes

def resolveList (listKey : String) : List (ItemId × FracIdx) :=
  match graph.stateCaches.lists.lookup listKey with
  | some cache => cache.visible.sort.map fun entry => ((ofLex entry).2, (ofLex entry).1)
  | none => []

/-- Replay order: Lamport, author, id. -/
def allNodesForText : List SyncNode :=
  graph.nodes.data.insertionSort fun first second =>
    toLex (first.transaction.priority, first.id) ≤ toLex (second.transaction.priority, second.id)

def resolveProjectionTransient (key : String) : TextProjection :=
  .fromNodes graph.allNodesForText key

/-- The projection that answers reads of `key`. -/
def textProjection (key : String) : TextProjection :=
  match graph.textProjectionMode with
  | .disabled => graph.resolveProjectionTransient key
  | .enabled | .parityCheck =>
    (graph.textProjections.lookup key).getD (graph.resolveProjectionTransient key)

def resolveTextSeq (key : String) : List (OpId × Char) :=
  (graph.textProjection key).resolveSeq

def resolveText (key : String) : String :=
  (graph.textProjection key).resolveString

/-- `None` when the resident projection cannot answer. -/
def canonicalizeOffsetAnchorFast (key : String) (offset : Nat) : Option TextRangeAnchor :=
  if graph.textProjectionMode = .disabled then none
  else do
    let projection ← graph.textProjections.lookup key
    let len := projection.visibleCharLen
    let index := min offset len
    if index = 0 then some .atStart
    else if len ≤ index then some .atEnd
    else (projection.idAtVisibleOffset (index - 1)).map .after

def canonicalizeRangeAnchor (seq : List (OpId × Char)) (anchor : TextRangeAnchor) :
    TextRangeAnchor :=
  match anchor with
  | .offset offset =>
    let index := min offset seq.length
    if index = 0 then .atStart
    else if seq.length ≤ index then .atEnd
    else match seq[index - 1]? with
      | some entry => .after entry.1
      | none => .atEnd
  | other => other

def canonicalAnchor (key : String) (anchor : TextRangeAnchor) : TextRangeAnchor :=
  match anchor with
  | .offset offset =>
    (graph.canonicalizeOffsetAnchorFast key offset).getD
      (canonicalizeRangeAnchor (graph.resolveTextSeq key) anchor)
  | other => other

/-- The persisted op a local range edit becomes. -/
def lowerRangeOp : TextRangeOp → Op
  | .insert key anchor text => .text (.insertRange key (graph.canonicalAnchor key anchor) text)
  | .delete key anchor lenChars =>
    .text (.deleteRange key (graph.canonicalAnchor key anchor) lenChars)

def applyLocalTextRangeOp (crypto : Crypto) (graph : StateGraph)
    (signingKey : crypto.SigningKey) (wallMs : Nat) (op : TextRangeOp)
    (parents : Enumeration graph.leaves) :
    Option (StateGraph × Except SyncError (List NodeId)) :=
  (applyLocal crypto graph signingKey wallMs [graph.lowerRangeOp op] parents).map
    fun outcome => (outcome.1, outcome.2.map fun id => [id])

end StateGraph

end NodalMerge
