import NodalMerge.Crdt.Install
import NodalMerge.Crdt.RoomCipher

/-! Packs are lists of nodes here; blobs and the conflict stream are left out. -/

namespace NodalMerge

open Retry StateGraph

structure TickConfig where
  maxOpsPerTick : Nat

/-- The arguments of a call of `encrypt_ops`, apart from the room key. -/
structure EncryptInput where
  author : PublicKey
  lamport : Nat
  ops : List Op
  deriving DecidableEq

structure SyncStore (crypto : Crypto) where
  graph : StateGraph
  signingKey : crypto.SigningKey
  roomKey : Option (Bytes 32)
  tickConfig : Option TickConfig
  pendingTickOps : List Op
  /-- History variable: every call of `encrypt_ops` so far. -/
  encrypted : List EncryptInput

inductive StoreError where
  | cipher (error : CipherError)
  | sync (error : SyncError)
  deriving DecidableEq

/-- A node with its ops in the clear, under its old id and signature. -/
def decryptNodeIfNeeded (cipher : RoomCipher) (roomKey : Bytes 32) (node : SyncNode) :
    Except CipherError SyncNode :=
  if isEncryptedNode node.transaction.ops then
    match extractEncryptedPayload node.transaction.ops with
    | none => .ok node
    | some payload =>
      (decryptOps cipher roomKey payload).map fun ops =>
        { node with transaction := { node.transaction with ops } }
  else .ok node

/-- A pack whose first node is a snapshot. -/
def unpackSnapshotPack : List SyncNode → Except SyncError (SyncNode × List SyncNode)
  | [] => .error (.missingParent (Bytes.zero 32))
  | snapshot :: delta =>
    if isSnapshotNode snapshot then .ok (snapshot, delta)
    else .error (.hashMismatch (Bytes.zero 32) snapshot.id)

namespace SyncStore

def new (signingKey : crypto.SigningKey) : SyncStore crypto where
  graph := .empty
  signingKey := signingKey
  roomKey := none
  tickConfig := none
  pendingTickOps := []
  encrypted := []

section
variable (cipher : RoomCipher) (store : SyncStore crypto)

def setRoomKey (roomSeed : Bytes 32) : SyncStore crypto :=
  { store with roomKey := some (deriveRoomKey cipher roomSeed) }

/-- The call of `apply_local`; `none` is its panic at the largest clock. -/
def applyLocal (ops : List Op) (wallMs : Nat) (parents : Enumeration store.graph.leaves) :
    Option (SyncStore crypto × Except StoreError NodeId) :=
  (store.graph.applyLocal crypto store.signingKey wallMs ops parents).map fun applied =>
    ({ store with graph := applied.1 }, applied.2.mapError .sync)

/-- What the next commit passes to `encrypt_ops`. -/
def encryptInput (ops : List Op) : EncryptInput :=
  ⟨crypto.verifyingKey store.signingKey, store.graph.lamport + 1, ops⟩

/-- With a room key, the ops are encrypted for the clock that the graph is
about to assign; `none` is the panic on `lamport() + 1`. -/
def commitOpsImmediate (ops : List Op) (wallMs : Nat) (parents : Enumeration store.graph.leaves) :
    Option (SyncStore crypto × Except StoreError NodeId) :=
  match store.roomKey with
  | none => store.applyLocal ops wallMs parents
  | some key =>
    if u64Max < store.graph.lamport + 1 then none
    else
      let input := store.encryptInput ops
      let logged := { store with encrypted := store.encrypted ++ [input] }
      match wrapEncryptedOps cipher key input.author input.lamport input.ops with
      | .error error => some (logged, .error (.cipher error))
      | .ok finalOps => logged.applyLocal finalOps wallMs parents

/-- In tick mode ops are buffered, up to the limit. -/
def applyLocalOps (ops : List Op) (wallMs : Nat) (parents : Enumeration store.graph.leaves) :
    Option (SyncStore crypto × Except StoreError Unit) :=
  match store.tickConfig with
  | some config =>
    let buffered := store.pendingTickOps ++ ops
    if config.maxOpsPerTick ≤ buffered.length then
      (commitOpsImmediate cipher { store with pendingTickOps := [] } buffered wallMs parents).map
        fun committed => (committed.1, committed.2.map fun _ => ())
    else some ({ store with pendingTickOps := buffered }, .ok ())
  | none =>
    (commitOpsImmediate cipher store ops wallMs parents).map
      fun committed => (committed.1, committed.2.map fun _ => ())

def set (key : String) (value : List U8) (nowMs : Nat) (parents : Enumeration store.graph.leaves) :
    Option (SyncStore crypto × Except StoreError Unit) :=
  applyLocalOps cipher store [.map (.set key value)] nowMs parents

def delete (key : String) (nowMs : Nat) (parents : Enumeration store.graph.leaves) :
    Option (SyncStore crypto × Except StoreError Unit) :=
  applyLocalOps cipher store [.map (.delete key)] nowMs parents

/-- Returns the pack with the committed node, or an empty one. -/
def flushTick (nowMs : Nat) (parents : Enumeration store.graph.leaves) :
    Option (SyncStore crypto × Except StoreError (List SyncNode)) :=
  if store.pendingTickOps.isEmpty then some (store, .ok [])
  else
    (commitOpsImmediate cipher { store with pendingTickOps := [] } store.pendingTickOps nowMs
      parents).map fun committed =>
        (committed.1, committed.2.map fun id => (committed.1.graph.nodes.get id).toList)

/-- The nodes of the graph in the order of the given ids. -/
def exportNodes (ids : List NodeId) : List SyncNode :=
  ids.filterMap store.graph.nodes.get

/-- Nodes that never find their parents are passed over; after a failure the
nodes taken before it stay. -/
def importPack (nodes : List SyncNode) : SyncStore crypto × Except StoreError Unit :=
  let opened := match store.roomKey with
    | some key => nodes.mapM (decryptNodeIfNeeded cipher key)
    | none => .ok nodes
  match opened with
  | .error error => (store, .error (.cipher error))
  | .ok nodes =>
    match run (attempt crypto none) store.graph nodes with
    | .error failure => ({ store with graph := failure.1 }, .error (.sync failure.2))
    | .ok result => ({ store with graph := result.1 }, .ok ())

/-- The graph in a snapshot pack, with the hash that the snapshot carries. -/
def openSnapshotPack (crypto : Crypto) (postcard : Postcard) (nodes : List SyncNode) :
    Except SyncError (StateGraph × Hash) := do
  let (snapshot, delta) ← unpackSnapshotPack nodes
  let content ← verifySnapshot crypto postcard snapshot
  let graph ← rebuildFromSnapshot crypto postcard snapshot delta
  return (graph, content.snapshotHash)

/-- Replaces the whole graph by the one in the pack. -/
def applySnapshotPack (postcard : Postcard) (store : SyncStore crypto) (nodes : List SyncNode) :
    SyncStore crypto × Except StoreError Hash :=
  match openSnapshotPack crypto postcard nodes with
  | .error error => (store, .error (.sync error))
  | .ok (graph, hash) => ({ store with graph }, .ok hash)

/-- The resolved value of a key; the sentinel key is hidden. -/
def resolveJson (key : String) : Option (List U8) :=
  if key = e2eeKey then none else store.graph.resolve key

theorem importPack_nil : importPack cipher store [] = (store, .ok ()) := by
  obtain ⟨graph, signingKey, roomKey⟩ := store
  cases roomKey <;> simp [importPack, run_nil, pure, Except.pure]

theorem importPack_roomKey (nodes : List SyncNode) :
    (importPack cipher store nodes).1.roomKey = store.roomKey := by
  unfold importPack
  dsimp only
  split
  · rfl
  · split <;> rfl

end

variable {store : SyncStore crypto}

/-- The store once the call of `encrypt_ops` has been made. -/
def logged (store : SyncStore crypto) (ops : List Op) : SyncStore crypto :=
  { store with encrypted := store.encrypted ++ [store.encryptInput ops] }

/-- A commit fails to encrypt, or it hands the encrypted ops to the graph. -/
theorem commitOpsImmediate_cases (secret : store.roomKey = some key)
    (ran : commitOpsImmediate cipher store ops wallMs parents = some outcome) :
    store.graph.lamport + 1 ≤ u64Max ∧
      ((∃ error, wrapEncryptedOps cipher key (crypto.verifyingKey store.signingKey)
            (store.graph.lamport + 1) ops = .error error ∧
          outcome = (store.logged ops, .error (.cipher error))) ∨
        ∃ wrapped applied, wrapEncryptedOps cipher key (crypto.verifyingKey store.signingKey)
            (store.graph.lamport + 1) ops = .ok wrapped ∧
          StateGraph.applyLocal crypto store.graph store.signingKey wallMs wrapped parents =
            some applied ∧
          outcome = ({ store.logged ops with graph := applied.1 }, applied.2.mapError .sync)) := by
  unfold commitOpsImmediate at ran
  split at ran
  · rename_i absent
    cases absent.symm.trans secret
  · rename_i other found
    obtain rfl := Option.some.inj (found.symm.trans secret)
    dsimp only at ran
    split at ran
    · cases ran
    · rename_i room
      refine ⟨by omega, ?_⟩
      split at ran
      · rename_i error failed
        exact .inl ⟨error, failed, (Option.some.inj ran).symm⟩
      · rename_i wrapped produced
        obtain ⟨applied, applies, rfl⟩ := Option.map_eq_some_iff.mp ran
        exact .inr ⟨wrapped, applied, produced, applies, rfl⟩

/-- Given room on the clock, ops that can be encrypted go to the graph. -/
theorem commitOpsImmediate_wrapped (secret : store.roomKey = some key)
    (room : store.graph.lamport + 1 ≤ u64Max)
    (produced : wrapEncryptedOps cipher key (crypto.verifyingKey store.signingKey)
      (store.graph.lamport + 1) ops = .ok wrapped) :
    commitOpsImmediate cipher store ops wallMs parents =
      (StateGraph.applyLocal crypto store.graph store.signingKey wallMs wrapped parents).map
        fun applied => ({ store.logged ops with graph := applied.1 }, applied.2.mapError .sync) := by
  unfold commitOpsImmediate
  split
  · rename_i absent
    cases absent.symm.trans secret
  · rename_i other found
    obtain rfl := Option.some.inj (found.symm.trans secret)
    rw [if_neg (not_lt.mpr room)]
    dsimp only [encryptInput]
    rw [produced]
    rfl

end SyncStore

end NodalMerge
