import NodalMerge.Crdt.Admission

namespace NodalMerge

open List

/-- The node is unsigned, or its signature verifies under its author's key. -/
def SyncNode.Genuine (crypto : Crypto) (node : SyncNode) : Prop :=
  node.signature.isZero = true ∨ node.signatureVerifies crypto = true

instance (crypto : Crypto) (node : SyncNode) : Decidable (node.Genuine crypto) :=
  inferInstanceAs (Decidable (_ ∨ _))

theorem SyncNode.verifySignature_ok_iff {node : SyncNode} :
    node.verifySignature crypto = .ok () ↔ node.Genuine crypto := by
  unfold SyncNode.verifySignature SyncNode.Genuine
  cases node.signature.isZero <;> cases node.signatureVerifies crypto <;> simp

theorem SyncNode.newSigned_genuine (signs : crypto.SignVerifies)
    (author : tx.author = crypto.verifyingKey signingKey) :
    (SyncNode.newSigned crypto tx signingKey).Genuine crypto := by
  obtain ⟨decodes, verifies⟩ := signs signingKey (crypto.txHash tx)
  right
  simp only [SyncNode.signatureVerifies, SyncNode.newSigned, author, decodes, verifies,
    Bool.and_self]

theorem chunksFrom_flatten {α : Type} (size room : Nat) (current items : List α) :
    (chunksFrom size room current items).flatten = current.reverse ++ items := by
  induction items generalizing room current with
  | nil =>
    simp only [chunksFrom]
    split
    · rename_i empty
      simp [List.isEmpty_iff.mp empty]
    · simp
  | cons item rest ih =>
    cases room with
    | zero => simp [chunksFrom, ih]
    | succ room => simp [chunksFrom, ih]

/-- The index of a slot and the verdict on its node alone. -/
def verdict (crypto : Crypto) (slot : SyncNode × Nat) : Nat × Bool :=
  (slot.2, slot.1.signatureVerifies crypto)

/-- A chunk of signed nodes gets the verdicts of its nodes taken one by one. -/
theorem verifyChunk_eq (sound : crypto.BatchSound (chunk.map Prod.fst))
    (signed : ∀ slot ∈ chunk, slot.1.signature.isZero = false) :
    verifyChunk crypto chunk =
      (chunk.filter (fun slot => !crypto.decodes slot.1.transaction.author) ++
        chunk.filter (fun slot => crypto.decodes slot.1.transaction.author)).map
          (verdict crypto) := by
  simp only [verifyChunk, map_append]
  congr 1
  · apply map_congr_left
    intro slot member
    have undecodable := (mem_filter.mp member).2
    rw [Bool.not_eq_true'] at undecodable
    simp [verdict, SyncNode.signatureVerifies, undecodable]
  · split
    · rename_i passed
      have verified := sound _ (map_subset Prod.fst (filter_subset_self ..)) (by rwa [map_map])
      apply map_congr_left
      intro slot member
      have verifies := verified slot.1 (mem_map_of_mem member)
      have decodes := (mem_filter.mp member).2
      simp [verdict, SyncNode.signatureVerifies, decodes, verifies]
    · apply map_congr_left
      intro slot member
      have nonzero := signed slot (mem_filter.mp member).1
      simp only [verdict, SyncNode.verifySignature, nonzero, Bool.false_eq_true, ↓reduceIte]
      cases slot.1.signatureVerifies crypto <;> rfl

theorem mem_verifyChunk (sound : crypto.BatchSound (chunk.map Prod.fst))
    (signed : ∀ slot ∈ chunk, slot.1.signature.isZero = false) :
    outcome ∈ verifyChunk crypto chunk ↔ ∃ slot ∈ chunk, verdict crypto slot = outcome := by
  rw [verifyChunk_eq sound signed, mem_map]
  constructor
  · rintro ⟨slot, member, same⟩
    rcases mem_append.mp member with bad | good
    · exact ⟨slot, (mem_filter.mp bad).1, same⟩
    · exact ⟨slot, (mem_filter.mp good).1, same⟩
  · rintro ⟨slot, member, same⟩
    refine ⟨slot, ?_, same⟩
    cases crypto.decodes slot.1.transaction.author <;> simp [member]

/-- Writing consistent outcomes into their slots, in any order and repetition. -/
theorem getElem?_foldl_set {outcomes : List (Nat × Bool)} {value : Nat → Bool}
    (consistent : ∀ outcome ∈ outcomes, outcome.2 = value outcome.1) (results : List Bool)
    (index : Nat) :
    (outcomes.foldl (fun results outcome => results.set outcome.1 outcome.2) results)[index]? =
      if index ∈ outcomes.map Prod.fst then results[index]?.map fun _ => value index
      else results[index]? := by
  induction outcomes generalizing results with
  | nil => simp
  | cons outcome rest ih =>
    have here := consistent outcome (.head _)
    rw [foldl_cons, ih fun later member => consistent later (.tail _ member)]
    by_cases same : outcome.1 = index
    · subst same
      have written : (results.set outcome.1 outcome.2)[outcome.1]? =
          results[outcome.1]?.map fun _ => value outcome.1 := by
        rw [List.getElem?_set_self', here]
        rfl
      rw [written, if_pos (show outcome.1 ∈ (outcome :: rest).map Prod.fst from .head _)]
      split
      · cases results[outcome.1]? <;> rfl
      · rfl
    · simp [same, Ne.symm same]

namespace StateGraph

/-- The one-by-one check: unsigned and already verified nodes pass. -/
def signaturePasses (crypto : Crypto) (graph : StateGraph) (node : SyncNode) : Bool :=
  decide (node.id ∈ graph.verifiedIds) || node.signature.isZero || node.signatureVerifies crypto

theorem checkSignature_ok_iff :
    checkSignature crypto graph node = .ok () ↔ signaturePasses crypto graph node = true := by
  unfold checkSignature signaturePasses
  by_cases verified : node.id ∈ graph.verifiedIds
  · simp [verified]
  · simp [verified, SyncNode.verifySignature_ok_iff, SyncNode.Genuine]

/-- The node has a signature that was not checked in this session. -/
def needsCheck (graph : StateGraph) (node : SyncNode) : Bool :=
  !node.signature.isZero && !decide (node.id ∈ graph.verifiedIds)

theorem mem_outcomes {graph : StateGraph} {slots : List (SyncNode × Nat)}
    (sound : crypto.BatchSound (slots.map Prod.fst))
    (needed : ∀ slot ∈ slots, graph.needsCheck slot.1 = true) {outcome : Nat × Bool} :
    outcome ∈ ((chunksFrom batchVerifyChunk batchVerifyChunk [] slots).map
      (verifyChunk crypto)).flatten ↔ ∃ slot ∈ slots, verdict crypto slot = outcome := by
  have flat : (chunksFrom batchVerifyChunk batchVerifyChunk [] slots).flatten = slots :=
    chunksFrom_flatten ..
  generalize chunksFrom batchVerifyChunk batchVerifyChunk [] slots = chunks at flat
  subst flat
  have inside {chunk : List (SyncNode × Nat)} (inChunks : chunk ∈ chunks) :
      crypto.BatchSound (chunk.map Prod.fst) :=
    sound.mono (map_subset Prod.fst fun slot member => mem_flatten.mpr ⟨chunk, inChunks, member⟩)
  have signed : ∀ chunk ∈ chunks, ∀ slot ∈ chunk, slot.1.signature.isZero = false := by
    intro chunk inChunks slot member
    have unverified := needed slot (mem_flatten.mpr ⟨chunk, inChunks, member⟩)
    simp only [needsCheck, Bool.and_eq_true, Bool.not_eq_true'] at unverified
    exact unverified.1
  simp only [mem_flatten, mem_map, exists_exists_and_eq_and]
  constructor
  · rintro ⟨chunk, inChunks, member⟩
    obtain ⟨slot, inChunk, same⟩ :=
      (mem_verifyChunk (inside inChunks) (signed chunk inChunks)).mp member
    exact ⟨slot, ⟨chunk, inChunks, inChunk⟩, same⟩
  · rintro ⟨slot, ⟨chunk, inChunks, inChunk⟩, same⟩
    have member :=
      (mem_verifyChunk (inside inChunks) (signed chunk inChunks)).mpr ⟨slot, inChunk, same⟩
    exact ⟨chunk, inChunks, member⟩

theorem signaturePasses_eq :
    signaturePasses crypto graph node =
      (!graph.needsCheck node || node.signatureVerifies crypto) := by
  unfold signaturePasses needsCheck
  cases node.signature.isZero <;> cases decide (node.id ∈ graph.verifiedIds) <;> rfl

/-- The batched verifier agrees with checking node by node. -/
theorem verifyNodesBatched_eq {nodes : List SyncNode} (sound : crypto.BatchSound nodes)
    (graph : StateGraph) :
    verifyNodesBatched crypto graph nodes = nodes.map (signaturePasses crypto graph) := by
  let need := nodes.zipIdx.filter fun slot => graph.needsCheck slot.1
  let value (index : Nat) : Bool := (nodes[index]?.map (·.signatureVerifies crypto)).getD false
  have mem_need : ∀ slot, slot ∈ need ↔
      nodes[slot.2]? = some slot.1 ∧ graph.needsCheck slot.1 = true := by
    intro slot
    rw [mem_filter, mem_zipIdx_iff_getElem?]
  have needed : need.map Prod.fst ⊆ nodes := by
    intro node member
    obtain ⟨slot, inNeed, rfl⟩ := mem_map.mp member
    exact mem_of_getElem? ((mem_need slot).mp inNeed).1
  have outcomes {outcome : Nat × Bool} := @mem_outcomes crypto graph need (sound.mono needed)
    (fun slot member => ((mem_need slot).mp member).2) outcome
  have consistent : ∀ outcome ∈ ((chunksFrom batchVerifyChunk batchVerifyChunk [] need).map
      (verifyChunk crypto)).flatten, outcome.2 = value outcome.1 := by
    intro outcome member
    obtain ⟨slot, inNeed, rfl⟩ := outcomes.mp member
    simp [value, verdict, ((mem_need slot).mp inNeed).1]
  apply ext_getElem?
  intro index
  have written := getElem?_foldl_set consistent (List.replicate nodes.length true) index
  rw [foldl_flatten] at written
  refine Eq.trans written ?_
  cases found : nodes[index]? with
  | none =>
    have beyond := List.getElem?_eq_none_iff.mp found
    simp [not_lt.mpr beyond]
  | some node =>
    have within : index < nodes.length := (List.getElem?_eq_some_iff.mp found).1
    have checked : index ∈ ((chunksFrom batchVerifyChunk batchVerifyChunk [] need).map
        (verifyChunk crypto)).flatten.map Prod.fst ↔ graph.needsCheck node = true := by
      rw [mem_map]
      constructor
      · rintro ⟨outcome, member, rfl⟩
        obtain ⟨slot, inNeed, rfl⟩ := outcomes.mp member
        obtain ⟨there, needed⟩ := (mem_need slot).mp inNeed
        obtain rfl : slot.1 = node := Option.some.inj (there.symm.trans found)
        exact needed
      · intro needed
        exact ⟨verdict crypto (node, index), outcomes.mpr ⟨(node, index),
          (mem_need _).mpr ⟨found, needed⟩, rfl⟩, rfl⟩
    simp only [checked, List.getElem?_map, found, List.getElem?_replicate, within, ↓reduceIte,
      Option.map_some, signaturePasses_eq]
    cases graph.needsCheck node <;> simp [value, found]

theorem mem_batchSlots {nodes : List SyncNode} (sound : crypto.BatchSound nodes)
    (member : (node, true) ∈ batchSlots crypto graph nodes nowMs) :
    signaturePasses crypto graph node = true := by
  rw [batchSlots, verifyNodesBatched_eq (sound.mono screenBatch_subset), ← map_prod_left_eq_zip]
    at member
  obtain ⟨screened, _, same⟩ := mem_map.mp member
  obtain ⟨rfl, passes⟩ := Prod.mk.inj same
  exact passes

/-- A node that was verified before and is not stored is delivered only with a
signature that still stands on its own. -/
def GenuineReplay (crypto : Crypto) (graph : StateGraph) (node : SyncNode) : Prop :=
  node.id ∈ graph.verifiedIds → graph.nodes.contains node.id = false → node.Genuine crypto

/-- Of a batch it is also asked that its check is sound for the nodes in it. -/
def Call.GenuineReplays {crypto : Crypto} (graph : StateGraph) : Call crypto graph → Prop
  | .applyRemote node _ => GenuineReplay crypto graph node
  | .applyRemoteBatch nodes _ => crypto.BatchSound nodes ∧
      ∀ node ∈ nodes, GenuineReplay crypto graph node
  | _ => True

theorem genuine_of_passes (replay : GenuineReplay crypto graph node)
    (fresh : graph.nodes.contains node.id = false)
    (passes : signaturePasses crypto graph node = true) : node.Genuine crypto := by
  simp only [signaturePasses, Bool.or_eq_true, decide_eq_true_eq] at passes
  rcases passes with (verified | unsigned) | verifies
  · exact replay verified fresh
  · exact .inl unsigned
  · exact .inr verifies

theorem localNode_genuine (signs : crypto.SignVerifies) {parents : Enumeration graph.leaves} :
    (localNode crypto graph signingKey wallMs ops parents).Genuine crypto := by
  unfold localNode
  split
  · exact SyncNode.newSigned_genuine signs rfl
  · exact .inl (decide_eq_true rfl)

theorem Call.run_genuine (signs : crypto.SignVerifies) {after : StateGraph}
    {call : Call crypto graph} (replays : call.GenuineReplays)
    (ran : call.run = some after) (genuine : ∀ node ∈ graph.nodes.data, node.Genuine crypto) :
    ∀ node ∈ after.nodes.data, node.Genuine crypto := by
  intro node member
  cases call with
  | applyLocal signingKey wallMs ops parents =>
    obtain ⟨outcome, wrote, rfl⟩ := Option.map_eq_some_iff.mp ran
    obtain ⟨_, ⟨_, rfl⟩ | ⟨_, rfl⟩⟩ := applyLocal_cases wrote
    · exact genuine node member
    · rcases @mem_store _ (graph.reserve ops).core false node member with before | rfl
      · exact genuine node before
      · exact localNode_genuine signs
  | applyRemote delivered nowMs =>
    cases ran
    rcases mem_applyRemoteChecked member with before | ⟨rfl, screened, admissible⟩
    · exact genuine node before
    · exact genuine_of_passes replays admissible.fresh (checkSignature_ok_iff.mp screened.signed)
  | applyRemoteBatch nodes nowMs =>
    cases ran
    rcases mem_applyRemoteBatchChecked member with before | accepted
    · exact genuine node before
    · obtain ⟨delivered, fresh, _, _, slot⟩ := mem_batchAccepted accepted
      exact genuine_of_passes (replays.2 node delivered) fresh (mem_batchSlots replays.1 slot)
  | setPolicy policy =>
    cases ran
    exact genuine node member
  | setLocalSigning enabled =>
    cases ran
    exact genuine node member

/-- While no verified id is replayed with a worthless signature, every signed
node of the store carries a signature of its author. -/
theorem stored_signatures_verify (crypto : Crypto) (signs : crypto.SignVerifies)
    (graph : StateGraph) (reached : Reachable crypto (fun _ call => call.GenuineReplays) graph) :
    ∀ node ∈ graph.nodes.data, node.signature.isZero = false →
      node.signatureVerifies crypto = true := by
  have genuine : ∀ node ∈ graph.nodes.data, node.Genuine crypto := by
    induction reached with
    | start => simp [empty, MemoryNodeStore.empty]
    | call _ replays ran ih => exact Call.run_genuine signs replays ran ih
  intro node member signed
  rcases genuine node member with unsigned | verifies
  · rw [signed] at unsigned
    cases unsigned
  · exact verifies

theorem sampleNode_signature_verifies :
    sampleNode ∈ (empty.accept sampleNode).nodes.data ∧
      sampleNode.signatureVerifies Crypto.sample = true :=
  ⟨by decide, stored_signatures_verify Crypto.sample Crypto.sample_signVerifies _
    (.receive .start (fun verified => by simp [empty] at verified) sampleNode_screened
      sampleNode_admissible) sampleNode (by decide) (by decide)⟩

/-- A child of the first write, without a signature. -/
def unsignedChild : SyncNode :=
  .new Crypto.sample ⟨.padTo 32 [2], 2, 0, sampleOps, [sampleNode.id]⟩

/-- The same child under a signature that nobody made. -/
def forgedChild : SyncNode := { unsignedChild with signature := .padTo 64 [9] }

/-- The unsigned child is rejected for its missing parent but marks the id; once
the parent is there, the forged copy passes. -/
def forgedStore : StateGraph :=
  (applyRemote Crypto.sample (applyRemote Crypto.sample
    (applyRemote Crypto.sample .empty unsignedChild).1 sampleNode).1 forgedChild).1

theorem forged_signature_stored :
    Reachable Crypto.sample (fun _ _ => True) forgedStore ∧
      ∃ node ∈ forgedStore.nodes.data, node.signature.isZero = false ∧
        node.signatureVerifies Crypto.sample = false :=
  ⟨((Reachable.start.remote unsignedChild none trivial).remote sampleNode none trivial).remote
    forgedChild none trivial, by decide⟩

end StateGraph

end NodalMerge
