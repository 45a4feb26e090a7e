import NodalMerge.Crdt.SyncStore

namespace NodalMerge.SyncStore

open List MemoryNodeStore Retry StateGraph

variable {store next : SyncStore crypto} {key : Bytes 32} {plain : List SyncNode}
  {ids : List NodeId}

/-- Commits of map ops that succeed, with the nodes that the plain ops would
have made at the same places. -/
inductive Commits (cipher : RoomCipher) (start : SyncStore crypto) :
    List SyncNode → SyncStore crypto → Prop where
  | start : Commits cipher start [] start
  | commit {plain : List SyncNode} {store next : SyncStore crypto} {wallMs : Nat} {id : NodeId}
      (before : Commits cipher start plain store) (group : List MapOp)
      (parents : Enumeration store.graph.leaves)
      (ran : commitOpsImmediate cipher store (group.map .map) wallMs parents =
        some (next, .ok id)) :
      Commits cipher start (plain ++ [localNode crypto store.graph store.signingKey wallMs
        (group.map .map) parents]) next

/-- The second node carries the ops of the first encrypted. -/
structure Encrypts (crypto : Crypto) (cipher : RoomCipher) (key : Bytes 32)
    (clear node : SyncNode) : Prop where
  wrapped : wrapEncryptedOps cipher key clear.transaction.author clear.transaction.lamport
    clear.transaction.ops = .ok node.transaction.ops
  restored : { node.transaction with ops := clear.transaction.ops } = clear.transaction
  hashed : crypto.txHash node.transaction = node.id

/-- The store holds one encrypted node for each of the plain ones. -/
structure Mirrors (cipher : RoomCipher) (key : Bytes 32) (plain : List SyncNode)
    (store : SyncStore crypto) : Prop where
  secret : store.roomKey = some key
  size : store.graph.nodes.data.length = plain.length
  encrypts : ∀ node ∈ store.graph.nodes.data, ∃ clear ∈ plain, Encrypts crypto cipher key clear node

theorem Commits.mirrors {start : SyncStore crypto} (commits : Commits cipher start plain store)
    (begins : Mirrors cipher key [] start) : Mirrors cipher key plain store := by
  induction commits with
  | start => exact begins
  | @commit plain store next wallMs id before group parents ran ih =>
    obtain ⟨-, ⟨error, -, result⟩ | ⟨wrapped, applied, produced, applies, result⟩⟩ :=
      commitOpsImmediate_cases ih.secret ran
    · cases result
    obtain ⟨rfl, done⟩ := Prod.mk.inj result
    obtain ⟨-, ⟨-, rfl⟩ | ⟨fresh, rfl⟩⟩ := applyLocal_cases applies
    · cases done
    have data := put_fresh fresh
    refine ⟨ih.secret, (congrArg List.length data).trans (by simp [ih.size]), fun node member => ?_⟩
    rcases mem_append.mp (data ▸ member) with old | new
    · obtain ⟨clear, inPlain, encrypts⟩ := ih.encrypts node old
      exact ⟨clear, mem_append_left _ inPlain, encrypts⟩
    · rw [mem_singleton.mp new]
      refine ⟨_, mem_append_right _ (mem_singleton_self _), ?_, ?_, ?_⟩
      · rw [localNode_transaction, localNode_transaction]
        exact produced
      · rw [localNode_transaction, localNode_transaction]
        rfl
      · rw [localNode_transaction, localNode_id]

theorem Encrypts.decrypt (encrypts : Encrypts crypto cipher key clear node) :
    decryptNodeIfNeeded cipher key node = .ok { node with transaction := clear.transaction } := by
  obtain ⟨payload, encrypted, ops⟩ := wrapEncryptedOps_ok_iff.mp encrypts.wrapped
  simp [decryptNodeIfNeeded, ops, isEncryptedNode, extractEncryptedPayload,
    decryptOps_encryptOps encrypted, Except.map, encrypts.restored]

/-- A pack fails as a whole when its first node does. -/
theorem importPack_head_refused {head : SyncNode} (secret : store.roomKey = some key)
    (decrypts : decryptNodeIfNeeded cipher key head = .ok opened)
    (refused : ¬ Vetted crypto store.graph opened) :
    (importPack cipher store (head :: rest)).2 ≠ .ok () := by
  obtain ⟨graph, error, failed⟩ : ∃ graph error, attempt crypto none store.graph opened =
    .failed graph error := attempt_failed (.inl refused)
  rw [importPack, secret]
  cases others : rest.mapM (decryptNodeIfNeeded cipher key) with
  | error problem => simp [decrypts, others, bind, Except.bind]
  | ok nodes =>
    have ran : run (attempt crypto none) store.graph (opened :: nodes) = .error (graph, error) := by
      refine run_error (cons_ne_nil _ _) ?_
      simp only [Retry.pass, failed]
    simp [decrypts, others, bind, Except.bind, pure, Except.pure, ran]

theorem mem_exportNodes (member : node ∈ store.exportNodes ids) :
    node ∈ store.graph.nodes.data := by
  obtain ⟨id, -, found⟩ := mem_filterMap.mp member
  exact mem_of_find?_eq_some found

theorem exportNodes_ne_nil (all : ids.Perm store.graph.nodes.allIds)
    (nonempty : store.graph.nodes.data ≠ []) : store.exportNodes ids ≠ [] := by
  obtain ⟨node, member⟩ := exists_mem_of_ne_nil _ nonempty
  have stored : (store.graph.nodes.get node.id).isSome := by
    rw [MemoryNodeStore.get, List.find?_isSome]
    exact ⟨node, member, decide_eq_true rfl⟩
  obtain ⟨found, got⟩ := Option.isSome_iff_exists.mp stored
  have listed : node.id ∈ ids := all.mem_iff.mpr (mem_map_of_mem member)
  exact ne_nil_of_mem (mem_filterMap.mpr ⟨node.id, listed, got⟩)

/-- A holder of the room key cannot take an export that has a node in it. -/
theorem Mirrors.import_refused {reader : SyncStore crypto}
    (mirrors : Mirrors cipher key plain store) (secret : reader.roomKey = some key)
    (all : ids.Perm store.graph.nodes.allIds) (distinct : crypto.CollisionFree
      {tx | ∃ node ∈ plain ++ store.graph.nodes.data, node.transaction = tx})
    (nonempty : plain ≠ []) : (importPack cipher reader (store.exportNodes ids)).2 ≠ .ok () := by
  have stored : store.graph.nodes.data ≠ [] := by
    rw [← length_pos_iff, mirrors.size]
    exact length_pos_iff.mpr nonempty
  obtain ⟨node, rest, exported⟩ := exists_cons_of_ne_nil (exportNodes_ne_nil all stored)
  have member : node ∈ store.graph.nodes.data := by
    apply mem_exportNodes
    rw [exported]
    exact .head _
  obtain ⟨clear, inPlain, encrypted⟩ := mirrors.encrypts node member
  rw [exported]
  refine importPack_head_refused secret encrypted.decrypt fun vetted => ?_
  -- The id of the node is no digest of the ops in the clear.
  have same : clear.transaction = node.transaction :=
    distinct ⟨clear, mem_append_left _ inPlain, rfl⟩ ⟨node, mem_append_right _ member, rfl⟩
      (vetted.hashed.trans encrypted.hashed.symm)
  exact wrapEncryptedOps_ne encrypted.wrapped (congrArg Transaction.ops same.symm)

/-- A second holder of the room key reads an export as the plain ops exactly
when nothing has been committed. -/
theorem encrypted_export_readable_iff (crypto : Crypto) (cipher : RoomCipher) (seed : Bytes 32)
    (writerKey readerKey : crypto.SigningKey) (plain : List SyncNode) (writer : SyncStore crypto)
    (commits : Commits cipher ((SyncStore.new writerKey).setRoomKey cipher seed) plain writer)
    (ids : List NodeId) (all : ids.Perm writer.graph.nodes.allIds) (distinct : crypto.CollisionFree
      {tx | ∃ node ∈ plain ++ writer.graph.nodes.data, node.transaction = tx}) :
    (∃ reader, importPack cipher ((SyncStore.new readerKey).setRoomKey cipher seed)
        (writer.exportNodes ids) = (reader, .ok ()) ∧
      ∀ key, reader.resolveJson key = lwwResolve plain key) ↔ plain = [] := by
  have mirrors := commits.mirrors ⟨rfl, rfl, fun _ absent => (not_mem_nil absent).elim⟩
  constructor
  · rintro ⟨reader, ran, -⟩
    by_contra nonempty
    exact mirrors.import_refused rfl all distinct nonempty (congrArg Prod.snd ran)
  · rintro rfl
    have stored := eq_nil_of_length_eq_zero mirrors.size
    obtain rfl : ids = [] := perm_nil.mp (by simpa [MemoryNodeStore.allIds, stored] using all)
    refine ⟨_, importPack_nil _ _, fun key => ?_⟩
    have empty : StateGraph.empty.resolve key = none := rfl
    simp [resolveJson, setRoomKey, new, lwwResolve, LastWriter.winner, empty]

/-- A digest that covers the ops. -/
def opsSample : Crypto :=
  { Crypto.sample with
    txHash := fun tx => .padTo 32 (Fin.ofNat 256 tx.lamport :: opsCodec.encode tx.ops) }

def opsKey (seed : U8) : opsSample.SigningKey := seed

/-- A store with a room key and nothing else. -/
def sampleRoom (seed : opsSample.SigningKey) : SyncStore opsSample :=
  (SyncStore.new seed).setRoomKey RoomCipher.sample (Bytes.zero 32)

/-- The one op of the sample and what it is encrypted to. -/
def sampleClear : List Op := [MapOp.set "k" [7]].map .map

def sampleWrapped : List Op :=
  let roomKey := deriveRoomKey RoomCipher.sample (Bytes.zero 32)
  let nonce := deriveNonce RoomCipher.sample roomKey (opsSample.verifyingKey (opsKey 1)) 1
  [.map (.set e2eeKey (nonce.val ++ opsCodec.encode sampleClear))]

def sampleNodeOf (ops : List Op) : SyncNode :=
  localNode opsSample .empty (opsKey 1) 0 ops noLeaves

/-- The store once the op is committed. -/
def sampleWriter : SyncStore opsSample :=
  { (sampleRoom (opsKey 1)).logged sampleClear with
    graph := StateGraph.empty.commitLocal sampleWrapped (sampleNodeOf sampleWrapped) }

theorem sampleWriter_ran :
    commitOpsImmediate RoomCipher.sample (sampleRoom (opsKey 1)) sampleClear 0 noLeaves =
      some (sampleWriter, .ok (sampleNodeOf sampleWrapped).id) := by
  have applies : StateGraph.applyLocal opsSample .empty (opsKey 1) 0 sampleWrapped noLeaves =
    some _ := applyLocal_commit (by decide) rfl
  exact (commitOpsImmediate_wrapped rfl (by decide) rfl).trans (congrArg (Option.map _) applies)

theorem sampleWriter_commits : Commits RoomCipher.sample (sampleRoom (opsKey 1))
    [sampleNodeOf sampleClear] sampleWriter := by
  have ran : commitOpsImmediate RoomCipher.sample (sampleRoom (opsKey 1))
    ([MapOp.set "k" [7]].map .map) 0 noLeaves = _ := sampleWriter_ran
  exact .commit .start _ _ ran

theorem sampleWriter_distinct : opsSample.CollisionFree
    {tx | ∃ node ∈ [sampleNodeOf sampleClear] ++ sampleWriter.graph.nodes.data,
      node.transaction = tx} := by
  rw [show sampleWriter.graph.nodes.data = [sampleNodeOf sampleWrapped] from put_fresh rfl]
  exact opsSample.collisionFree_of_nodes (by decide +kernel)

/-- The empty export is readable, and the export with one op in it is not. -/
theorem sample_exports_readable_iff :
    (∃ reader, importPack RoomCipher.sample (sampleRoom (opsKey 2))
        ((sampleRoom (opsKey 1)).exportNodes []) = (reader, .ok ()) ∧
      ∀ key, reader.resolveJson key = lwwResolve [] key) ∧
    ((∃ reader, importPack RoomCipher.sample (sampleRoom (opsKey 2))
        (sampleWriter.exportNodes sampleWriter.graph.nodes.allIds) = (reader, .ok ()) ∧
      ∀ key, reader.resolveJson key = lwwResolve [sampleNodeOf sampleClear] key) ↔
        [sampleNodeOf sampleClear] = []) :=
  ⟨(encrypted_export_readable_iff opsSample RoomCipher.sample (Bytes.zero 32) (opsKey 1)
      (opsKey 2) [] (sampleRoom (opsKey 1)) .start [] (.refl _)
      (by rintro tx ⟨node, absent, -⟩; exact (not_mem_nil absent).elim)).mpr rfl,
    encrypted_export_readable_iff opsSample RoomCipher.sample (Bytes.zero 32) (opsKey 1)
      (opsKey 2) [sampleNodeOf sampleClear] sampleWriter sampleWriter_commits
      sampleWriter.graph.nodes.allIds (.refl _) sampleWriter_distinct⟩

/-- One key is written, and the other holder of the room key cannot take the
export. -/
theorem encrypted_write_refused :
    commitOpsImmediate RoomCipher.sample (sampleRoom (opsKey 1)) sampleClear 0 noLeaves =
        some (sampleWriter, .ok (sampleNodeOf sampleWrapped).id) ∧
      (importPack RoomCipher.sample (sampleRoom (opsKey 2))
        (sampleWriter.exportNodes sampleWriter.graph.nodes.allIds)).2 ≠ .ok () := by
  refine ⟨sampleWriter_ran, fun taken => ?_⟩
  have refused : ((importPack RoomCipher.sample (sampleRoom (opsKey 2))
      (sampleWriter.exportNodes sampleWriter.graph.nodes.allIds)).2.toOption = none) := by
    decide +kernel
  rw [taken] at refused
  cases refused

end NodalMerge.SyncStore
