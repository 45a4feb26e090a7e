import NodalMerge.Crdt.Signature

namespace NodalMerge

open List MemoryNodeStore

/-- What admission reads of a graph. -/
@[ext] structure Ledger where
  ids : Finset NodeId
  clock : Nat
  verified : Finset NodeId
  policy : Policy

namespace Ledger

variable (crypto : Crypto) (nowMs : Option Nat)

/-- Content hash, clocks and signature are in order. -/
def vouches (ledger : Ledger) (node : SyncNode) : Bool :=
  (precheck crypto ledger.clock nowMs node).toBool &&
    (decide (node.id ∈ ledger.verified) || node.signature.isZero || node.signatureVerifies crypto)

/-- The node is also new, permitted, and its parents are there. -/
def admits (ledger : Ledger) (node : SyncNode) : Bool :=
  ledger.vouches crypto nowMs node &&
    (node.parents.all (fun parent => decide (parent ∈ ledger.ids)) &&
      (isSnapshotNode node || node.transaction.ops.all (fun op =>
        ledger.policy.canWrite op.key node.transaction.author)) &&
      decide (node.id ∉ ledger.ids))

/-- A node that is vouched for is marked, and entered if it is admitted. -/
def next (ledger : Ledger) (node : SyncNode) : Ledger :=
  if ledger.vouches crypto nowMs node then
    let marked := { ledger with verified := insert node.id ledger.verified }
    if ledger.admits crypto nowMs node then
      { marked with ids := insert node.id ledger.ids, clock := max ledger.clock node.lamport }
    else marked
  else ledger

/-- Every entry admitted at its turn is the first one with its id, and its
clock is below a ceiling fixed in advance. -/
def Prompt (ceiling : Nat) : Ledger → Finset NodeId → List SyncNode → Prop
  | _, _, [] => True
  | ledger, seen, node :: rest =>
    (ledger.admits crypto nowMs node = true → node.id ∉ seen ∧ node.lamport ≤ ceiling) ∧
      Prompt ceiling (ledger.next crypto nowMs node) (insert node.id seen) rest

instance Prompt.decidable (ceiling : Nat) : ∀ ledger seen nodes,
    Decidable (Prompt crypto nowMs ceiling ledger seen nodes)
  | _, _, [] => .isTrue trivial
  | ledger, seen, node :: rest =>
    haveI := Prompt.decidable ceiling (ledger.next crypto nowMs node) (insert node.id seen) rest
    inferInstanceAs (Decidable (_ ∧ _))

end Ledger

namespace StateGraph

def ledger (graph : StateGraph) : Ledger where
  ids := graph.nodes.allIds.toFinset
  clock := graph.lamport
  verified := graph.verifiedIds
  policy := graph.policy

/-- `apply_remote_checked` folded over a list, with the nodes it accepted. -/
def ingest (crypto : Crypto) (nowMs : Option Nat) (graph : StateGraph) :
    List SyncNode → StateGraph × List SyncNode
  | [] => (graph, [])
  | node :: rest =>
    let outcome := applyRemoteChecked crypto graph node nowMs
    let applied := ingest crypto nowMs outcome.1 rest
    (applied.1, if outcome.2.toBool then node :: applied.2 else applied.2)

variable {crypto : Crypto} {nowMs : Option Nat} {graph : StateGraph}

theorem mem_ledger_ids {id : NodeId} : id ∈ graph.ledger.ids ↔ graph.nodes.contains id = true := by
  rw [contains_iff]
  exact mem_toFinset

theorem toBool_eq_true {outcome : Except SyncError Unit} :
    outcome.toBool = true ↔ outcome = .ok () := by
  cases outcome <;> simp [Except.toBool]

theorem ledger_vouches_iff : graph.ledger.vouches crypto nowMs node = true ↔
    Screened crypto graph nowMs node := by
  rw [Ledger.vouches, Bool.and_eq_true, toBool_eq_true]
  constructor
  · rintro ⟨prechecked, passes⟩
    exact ⟨prechecked, checkSignature_ok_iff.mpr passes⟩
  · rintro ⟨prechecked, signed⟩
    exact ⟨prechecked, checkSignature_ok_iff.mp signed⟩

theorem ledger_admits_iff : graph.ledger.admits crypto nowMs node = true ↔
    Screened crypto graph nowMs node ∧ graph.Admissible node := by
  rw [Ledger.admits, Bool.and_eq_true, ledger_vouches_iff]
  have checks : (node.parents.all (fun parent => decide (parent ∈ graph.ledger.ids)) &&
      (isSnapshotNode node || node.transaction.ops.all (fun op =>
        graph.ledger.policy.canWrite op.key node.transaction.author)) &&
      decide (node.id ∉ graph.ledger.ids)) = true ↔ graph.Admissible node := by
    simp only [Bool.and_eq_true, all_eq_true, decide_eq_true_eq, Bool.or_eq_true,
      mem_ledger_ids, Bool.not_eq_true]
    exact ⟨fun ⟨⟨parents, permitted⟩, fresh⟩ => ⟨parents, permitted, fresh⟩,
      fun admissible => ⟨⟨admissible.parents, admissible.permitted⟩, admissible.fresh⟩⟩
  rw [checks]

theorem put_ids {store : MemoryNodeStore} (fresh : store.contains node.id = false) :
    (store.put node).allIds.toFinset = insert node.id store.allIds.toFinset := by
  rw [MemoryNodeStore.allIds, put_fresh fresh, map_append,
    toFinset_append, Finset.union_comm]
  rfl

/-- One call of `apply_remote` moves the ledger by one entry. -/
theorem ledger_applyRemoteChecked (crypto : Crypto) (nowMs : Option Nat) (graph : StateGraph)
    (node : SyncNode) :
    (applyRemoteChecked crypto graph node nowMs).1.ledger =
      graph.ledger.next crypto nowMs node := by
  unfold Ledger.next
  by_cases screened : Screened crypto graph nowMs node
  · rw [if_pos (ledger_vouches_iff.mpr screened)]
    by_cases admissible : graph.Admissible node
    · rw [if_pos (ledger_admits_iff.mpr ⟨screened, admissible⟩),
        applyRemoteChecked_accepts screened admissible]
      exact Ledger.ext (put_ids admissible.fresh) rfl rfl rfl
    · obtain ⟨error, same⟩ := applyRemoteChecked_refused screened admissible
      rw [if_neg fun admits => admissible (ledger_admits_iff.mp admits).2, same]
      rfl
  · obtain ⟨error, same⟩ := applyRemoteChecked_unscreened screened
    rw [if_neg fun vouches => screened (ledger_vouches_iff.mp vouches), same]

/-- The screened entries with the verdicts of the graph the batch starts from. -/
def screenedSlots (crypto : Crypto) (nowMs : Option Nat) (start : StateGraph)
    (seen : Finset NodeId) (nodes : List SyncNode) : List (SyncNode × Bool) :=
  (screenBatch crypto start nowMs seen nodes).1.map fun node =>
    (node, signaturePasses crypto start node)

theorem batchSlots_eq {nodes : List SyncNode} (sound : crypto.BatchSound nodes) :
    batchSlots crypto graph nodes nowMs = screenedSlots crypto nowMs graph ∅ nodes := by
  rw [batchSlots, verifyNodesBatched_eq (sound.mono screenBatch_subset), ← map_prod_left_eq_zip]
  rfl

/-- What the batch asks of an entry: everything but the last item is judged by
the graph `start` at the beginning of the batch. -/
structure BatchAdmits (crypto : Crypto) (nowMs : Option Nat) (start : StateGraph)
    (seen : Finset NodeId) (batch : StateGraph) (node : SyncNode) : Prop where
  unseen : node.id ∉ seen
  fresh : start.nodes.contains node.id = false
  prechecked : precheck crypto start.lamport nowMs node = .ok ()
  passes : signaturePasses crypto start node = true
  admissible : batch.Admissible node

variable {start batch sequential : StateGraph} {seen : Finset NodeId}

theorem screenedSlots_cons_of_dropped (dropped : node.id ∈ seen ∨
      start.nodes.contains node.id = true ∨
      precheck crypto start.lamport nowMs node ≠ .ok ()) :
    screenedSlots crypto nowMs start seen (node :: rest) =
      screenedSlots crypto nowMs start (insert node.id seen) rest := by
  by_cases known : node.id ∈ seen
  · simp only [screenedSlots, screenBatch, known, ↓reduceIte, Finset.insert_eq_self.mpr known]
  · by_cases stored : start.nodes.contains node.id = true
    · simp only [screenedSlots, screenBatch, known, stored, ↓reduceIte]
    · cases outcome : precheck crypto start.lamport nowMs node with
      | error error =>
        simp only [screenedSlots, screenBatch, known, stored, outcome, Bool.false_eq_true,
          ↓reduceIte]
      | ok _ =>
        rcases dropped with known' | stored' | failed
        · exact (known known').elim
        · exact (stored stored').elim
        · exact (failed outcome).elim

/-- One entry of a batch is admitted or leaves the core alone. -/
theorem applyBatch_screenedSlots (crypto : Crypto) (nowMs : Option Nat) (start : StateGraph)
    (seen : Finset NodeId) (batch : StateGraph) (node : SyncNode) (rest : List SyncNode) :
    (BatchAdmits crypto nowMs start seen batch node ∧
      (batch.applyBatch (screenedSlots crypto nowMs start seen (node :: rest))).1 =
        (((batch.markVerified node.id).store node true).applyBatch
          (screenedSlots crypto nowMs start (insert node.id seen) rest)).1 ∧
      (batch.applyBatch (screenedSlots crypto nowMs start seen (node :: rest))).2.1 =
        node :: (((batch.markVerified node.id).store node true).applyBatch
          (screenedSlots crypto nowMs start (insert node.id seen) rest)).2.1) ∨
    (¬ BatchAdmits crypto nowMs start seen batch node ∧ ∃ ids,
      (batch.applyBatch (screenedSlots crypto nowMs start seen (node :: rest))).1 =
        ({ batch with verifiedIds := ids }.applyBatch
          (screenedSlots crypto nowMs start (insert node.id seen) rest)).1 ∧
      (batch.applyBatch (screenedSlots crypto nowMs start seen (node :: rest))).2.1 =
        ({ batch with verifiedIds := ids }.applyBatch
          (screenedSlots crypto nowMs start (insert node.id seen) rest)).2.1) := by
  by_cases dropped : node.id ∈ seen ∨ start.nodes.contains node.id = true ∨
      precheck crypto start.lamport nowMs node ≠ .ok ()
  · rw [screenedSlots_cons_of_dropped dropped]
    refine .inr ⟨?_, batch.verifiedIds, rfl, rfl⟩
    intro admits
    rcases dropped with known | stored | failed
    · exact admits.unseen known
    · rw [admits.fresh] at stored
      cases stored
    · exact failed admits.prechecked
  · rw [not_or, not_or, not_not, Bool.not_eq_true] at dropped
    obtain ⟨unseen, fresh, prechecked⟩ := dropped
    simp only [screenedSlots, screenBatch, unseen, fresh, prechecked, ↓reduceIte,
      Bool.false_eq_true, map_cons]
    rcases applyBatch_cons batch (node, signaturePasses crypto start node)
      (screenedSlots crypto nowMs start (insert node.id seen) rest) with
      ⟨passes, admissible, after, accepted⟩ | ⟨refused, ids, after, accepted⟩
    · exact .inl ⟨⟨unseen, fresh, prechecked, passes, admissible⟩, after, accepted⟩
    · exact .inr ⟨fun admits => refused admits.passes admits.admissible, ids, after, accepted⟩

/-- Batch and sequential ingest after the same entries of a list. -/
structure InStep (start : StateGraph) (seen : Finset NodeId) (batch sequential : StateGraph) :
    Prop where
  core : batch.core = sequential.core
  batchPolicy : batch.policy = start.policy
  policy : sequential.policy = start.policy
  verified : start.verifiedIds ⊆ sequential.verifiedIds
  marked : ∀ id ∈ sequential.verifiedIds, id ∈ start.verifiedIds ∨ id ∈ seen
  stored : ∀ id, start.nodes.contains id = true → sequential.nodes.contains id = true
  clock : start.lamport ≤ sequential.lamport

theorem InStep.refl (start : StateGraph) : InStep start ∅ start start where
  core := rfl
  batchPolicy := rfl
  policy := rfl
  verified := Finset.Subset.refl _
  marked := fun _ known => .inl known
  stored := fun _ known => known
  clock := le_refl _

theorem admissible_congr {first second : StateGraph} (core : first.core = second.core)
    (policy : first.policy = second.policy) (admissible : first.Admissible node) :
    second.Admissible node := by
  have nodes : first.nodes = second.nodes := congrArg Core.nodes core
  refine ⟨?_, ?_, ?_⟩
  · rw [← nodes]
    exact admissible.parents
  · unfold Permitted
    rw [← policy]
    exact admissible.permitted
  · rw [← nodes]
    exact admissible.fresh

section
variable (inStep : InStep start seen batch sequential)
include inStep

/-- What the batch admits, one-by-one ingest accepts. -/
theorem InStep.accepts (admits : BatchAdmits crypto nowMs start seen batch node) :
    Screened crypto sequential nowMs node ∧ sequential.Admissible node := by
  obtain ⟨hashed, ceiling, wall⟩ := precheck_ok_iff.mp admits.prechecked
  have higher := ceiling.trans (saturatingAdd_mono inStep.clock lamportSlack)
  refine ⟨⟨precheck_ok_iff.mpr ⟨hashed, higher, wall⟩, checkSignature_ok_iff.mpr ?_⟩, ?_⟩
  · have passes := admits.passes
    simp only [signaturePasses, Bool.or_eq_true, decide_eq_true_eq] at passes ⊢
    exact passes.imp_left (.imp_left fun known => inStep.verified known)
  · exact admissible_congr inStep.core (inStep.batchPolicy.trans inStep.policy.symm)
      admits.admissible

/-- What one-by-one ingest accepts, the batch admits, as long as the id is new
in the list and the clock is low enough for the start of the batch. -/
theorem InStep.admits (screened : Screened crypto sequential nowMs node)
    (admissible : sequential.Admissible node) (unseen : node.id ∉ seen)
    (ceiling : node.lamport ≤ saturatingAdd start.lamport lamportSlack) :
    BatchAdmits crypto nowMs start seen batch node := by
  obtain ⟨hashed, _, wall⟩ := precheck_ok_iff.mp screened.prechecked
  refine ⟨unseen, ?_, precheck_ok_iff.mpr ⟨hashed, ceiling, wall⟩, ?_, ?_⟩
  · by_contra known
    have stored := inStep.stored node.id (by simpa using known)
    rw [admissible.fresh] at stored
    cases stored
  · have passes := checkSignature_ok_iff.mp screened.signed
    simp only [signaturePasses, Bool.or_eq_true, decide_eq_true_eq] at passes ⊢
    refine passes.imp_left (.imp_left fun known => ?_)
    exact (inStep.marked node.id known).resolve_right unseen
  · exact admissible_congr inStep.core.symm (inStep.policy.trans inStep.batchPolicy.symm) admissible

theorem InStep.accept :
    InStep start (insert node.id seen) ((batch.markVerified node.id).store node true)
      (sequential.accept node) where
  core := congrArg (fun core => core.store node true) inStep.core
  batchPolicy := inStep.batchPolicy
  policy := inStep.policy
  verified := inStep.verified.trans (Finset.subset_insert _ _)
  marked := by
    intro id known
    rcases Finset.mem_insert.mp known with rfl | earlier
    · exact .inr (Finset.mem_insert_self _ _)
    · exact (inStep.marked id earlier).imp_right Finset.mem_insert_of_mem
  stored := fun id known => contains_put (inStep.stored id known) node
  clock := inStep.clock.trans (le_max_left ..)

theorem InStep.skip
    (refused : ¬ (Screened crypto sequential nowMs node ∧ sequential.Admissible node))
    (ids : Finset NodeId) : InStep start (insert node.id seen) { batch with verifiedIds := ids }
      (applyRemoteChecked crypto sequential node nowMs).1 := by
  have kept : InStep start (insert node.id seen) { batch with verifiedIds := ids } sequential :=
    { inStep with
      marked := fun id known => (inStep.marked id known).imp_right Finset.mem_insert_of_mem }
  by_cases screened : Screened crypto sequential nowMs node
  · obtain ⟨error, same⟩ :=
      applyRemoteChecked_refused screened fun admissible => refused ⟨screened, admissible⟩
    rw [same]
    refine { kept with
      verified := kept.verified.trans (Finset.subset_insert _ _)
      marked := ?_ }
    intro id known
    rcases Finset.mem_insert.mp known with rfl | earlier
    · exact .inr (Finset.mem_insert_self _ _)
    · exact kept.marked id earlier
  · obtain ⟨error, same⟩ := applyRemoteChecked_unscreened screened
    rw [same]
    exact kept

end

theorem ingest_accepted (screened : Screened crypto graph nowMs node)
    (admissible : graph.Admissible node) (rest : List SyncNode) :
    ingest crypto nowMs graph (node :: rest) =
      ((ingest crypto nowMs (graph.accept node) rest).1,
        node :: (ingest crypto nowMs (graph.accept node) rest).2) := by
  simp only [ingest, applyRemoteChecked_accepts screened admissible]
  rfl

theorem ingest_rejected
    (refused : ¬ (Screened crypto graph nowMs node ∧ graph.Admissible node))
    (rest : List SyncNode) :
    ingest crypto nowMs graph (node :: rest) =
      ingest crypto nowMs (applyRemoteChecked crypto graph node nowMs).1 rest := by
  have failed : (applyRemoteChecked crypto graph node nowMs).2.toBool = false := by
    rw [← Bool.not_eq_true, toBool_eq_true, applyRemoteChecked_ok_iff]
    exact refused
  simp only [ingest, failed, Bool.false_eq_true, ↓reduceIte]

theorem contains_applyRemoteChecked {id : NodeId} (known : graph.nodes.contains id = true) :
    (applyRemoteChecked crypto graph node nowMs).1.nodes.contains id = true := by
  rcases applyRemoteChecked_cases crypto graph node nowMs with ⟨_, _, same⟩ | ⟨_, _, _, same⟩
  · rw [same]
    exact contains_put known node
  · rw [same]
    exact known

theorem contains_ingest {id : NodeId} (nodes : List SyncNode)
    (known : graph.nodes.contains id = true) :
    (ingest crypto nowMs graph nodes).1.nodes.contains id = true := by
  induction nodes generalizing graph with
  | nil => exact known
  | cons node rest ih => exact ih (contains_applyRemoteChecked known)

/-- An id that was seen and not stored will not be stored by the batch. -/
theorem batch_lacks {id : NodeId} (known : id ∈ seen)
    (absent : batch.nodes.contains id = false) (nodes : List SyncNode) :
    (batch.applyBatch (screenedSlots crypto nowMs start seen nodes)).1.core.nodes.contains id
      = false := by
  rw [contains_eq_false] at absent ⊢
  intro stored
  obtain ⟨other, member, rfl⟩ := mem_map.mp stored
  rw [applyBatch_core] at member
  rcases mem_foldl_store member with before | accepted
  · exact absent (mem_map.mpr ⟨other, before, rfl⟩)
  · obtain ⟨slot, _⟩ := mem_applyBatch accepted
    obtain ⟨screened, inScreen, same⟩ := mem_map.mp slot
    obtain rfl : screened = other := (Prod.mk.inj same).1
    exact (mem_screenBatch inScreen).2.1 known

theorem InStep.same_of_prompt {nodes : List SyncNode} (inStep : InStep start seen batch sequential)
    (prompt : Ledger.Prompt crypto nowMs (saturatingAdd start.lamport lamportSlack)
      sequential.ledger seen nodes) :
    (batch.applyBatch (screenedSlots crypto nowMs start seen nodes)).2.1 =
        (ingest crypto nowMs sequential nodes).2 ∧
      (batch.applyBatch (screenedSlots crypto nowMs start seen nodes)).1.core =
        (ingest crypto nowMs sequential nodes).1.core := by
  induction nodes generalizing seen batch sequential with
  | nil => exact ⟨rfl, inStep.core⟩
  | cons node rest ih =>
    obtain ⟨here, later⟩ := prompt
    rw [← ledger_applyRemoteChecked] at later
    by_cases accepted : Screened crypto sequential nowMs node ∧ sequential.Admissible node
    · obtain ⟨screened, admissible⟩ := accepted
      obtain ⟨unseen, ceiling⟩ := here (ledger_admits_iff.mpr ⟨screened, admissible⟩)
      rw [applyRemoteChecked_accepts screened admissible] at later
      obtain ⟨sameAccepted, sameCore⟩ := ih inStep.accept later
      have admits := inStep.admits screened admissible unseen ceiling
      rcases applyBatch_screenedSlots crypto nowMs start seen batch node rest with
        ⟨_, after, entries⟩ | ⟨refused, _⟩
      · rw [after, entries, ingest_accepted screened admissible, sameAccepted]
        exact ⟨rfl, sameCore⟩
      · exact (refused admits).elim
    · rw [ingest_rejected accepted]
      rcases applyBatch_screenedSlots crypto nowMs start seen batch node rest with
        ⟨admits, _⟩ | ⟨_, ids, after, entries⟩
      · exact (accepted (inStep.accepts admits)).elim
      · rw [after, entries]
        exact ih (inStep.skip accepted ids) later

theorem InStep.prompt_of_same {nodes : List SyncNode} (inStep : InStep start seen batch sequential)
    (same : ∀ id, (ingest crypto nowMs sequential nodes).1.nodes.contains id = true →
      (batch.applyBatch (screenedSlots crypto nowMs start seen nodes)).1.core.nodes.contains id
        = true) :
    Ledger.Prompt crypto nowMs (saturatingAdd start.lamport lamportSlack)
      sequential.ledger seen nodes := by
  induction nodes generalizing seen batch sequential with
  | nil => trivial
  | cons node rest ih =>
    by_cases accepted : Screened crypto sequential nowMs node ∧ sequential.Admissible node
    · obtain ⟨screened, admissible⟩ := accepted
      rw [ingest_accepted screened admissible] at same
      rcases applyBatch_screenedSlots crypto nowMs start seen batch node rest with
        ⟨admits, after, _⟩ | ⟨refused, ids, after, _⟩
      · refine ⟨fun _ => ⟨admits.unseen, (precheck_ok_iff.mp admits.prechecked).2.1⟩, ?_⟩
        rw [← ledger_applyRemoteChecked, applyRemoteChecked_accepts screened admissible]
        rw [after] at same
        exact ih inStep.accept same
      · -- The batch dropped what one-by-one ingest stored, and cannot catch up.
        have absent : batch.nodes.contains node.id = false := by
          have nodes : batch.nodes = sequential.nodes := congrArg Core.nodes inStep.core
          rw [nodes]
          exact admissible.fresh
        have stored : (ingest crypto nowMs (sequential.accept node) rest).1.nodes.contains node.id
            = true := by
          apply contains_ingest
          exact contains_iff.mpr
            (mem_map.mpr ⟨node, sequential.nodes.self_mem_put node, rfl⟩)
        have lacks := @batch_lacks crypto nowMs start { batch with verifiedIds := ids } _ _
          (Finset.mem_insert_self node.id seen) absent rest
        rw [← after, same node.id stored] at lacks
        cases lacks
    · rw [ingest_rejected accepted] at same
      rcases applyBatch_screenedSlots crypto nowMs start seen batch node rest with
        ⟨admits, _⟩ | ⟨_, ids, after, _⟩
      · exact (accepted (inStep.accepts admits)).elim
      · refine ⟨fun admits => (accepted (ledger_admits_iff.mp admits)).elim, ?_⟩
        rw [← ledger_applyRemoteChecked]
        rw [after] at same
        exact ih (inStep.skip accepted ids) same

/-- Both ways accept the same nodes and leave the same graph behind. -/
structure SameIngest (crypto : Crypto) (graph : StateGraph) (nodes : List SyncNode)
    (nowMs : Option Nat) : Prop where
  accepted : ∀ id, id ∈ (applyRemoteBatchChecked crypto graph nodes nowMs).2.accepted ↔
    id ∈ (ingest crypto nowMs graph nodes).2.map SyncNode.id
  stored : ∀ node, node ∈ (applyRemoteBatchChecked crypto graph nodes nowMs).1.nodes.data ↔
    node ∈ (ingest crypto nowMs graph nodes).1.nodes.data
  leaves : (applyRemoteBatchChecked crypto graph nodes nowMs).1.leaves =
    (ingest crypto nowMs graph nodes).1.leaves
  lamport : (applyRemoteBatchChecked crypto graph nodes nowMs).1.lamport =
    (ingest crypto nowMs graph nodes).1.lamport
  resolve : (applyRemoteBatchChecked crypto graph nodes nowMs).1.resolve =
    (ingest crypto nowMs graph nodes).1.resolve
  resolveList : (applyRemoteBatchChecked crypto graph nodes nowMs).1.resolveList =
    (ingest crypto nowMs graph nodes).1.resolveList

/-- Batch and sequential ingest agree exactly on the lists in which every entry
that is admissible at its turn is the first with its id and lies within the
slack of the starting clock. -/
theorem batch_eq_sequential_iff (crypto : Crypto) (graph : StateGraph) (nodes : List SyncNode)
    (sound : crypto.BatchSound nodes) (nowMs : Option Nat) :
    SameIngest crypto graph nodes nowMs ↔
      Ledger.Prompt crypto nowMs (saturatingAdd graph.lamport lamportSlack) graph.ledger ∅ nodes := by
  have slots := @batchSlots_eq crypto nowMs graph nodes sound
  constructor
  · intro same
    apply (InStep.refl graph).prompt_of_same
    intro id stored
    rw [← slots]
    obtain ⟨node, member, rfl⟩ := mem_map.mp (contains_iff.mp stored)
    exact contains_iff.mpr
      (mem_map.mpr ⟨node, (same.stored node).mpr member, rfl⟩)
  · intro prompt
    obtain ⟨accepted, core⟩ := (InStep.refl graph).same_of_prompt prompt
    rw [← slots] at accepted core
    have caches : (applyRemoteBatchChecked crypto graph nodes nowMs).1.stateCaches =
        (ingest crypto nowMs graph nodes).1.stateCaches := congrArg Core.stateCaches core
    have stored : (applyRemoteBatchChecked crypto graph nodes nowMs).1.nodes =
        (ingest crypto nowMs graph nodes).1.nodes := congrArg Core.nodes core
    refine ⟨?_, ?_, congrArg Core.leaves core, congrArg Core.lamport core, ?_, ?_⟩
    · intro id
      rw [applyRemoteBatchChecked_accepted, batchAccepted, accepted]
    · intro node
      rw [stored]
    · funext key
      rw [resolve, resolve, caches]
    · funext key
      rw [resolveList, resolveList, caches]

theorem sampleNode_batch_eq_sequential :
    (ingest Crypto.sample none .empty [sampleNode, replyNode]).2 = [sampleNode, replyNode] ∧
      SameIngest Crypto.sample .empty [sampleNode, replyNode] none :=
  ⟨by decide, (batch_eq_sequential_iff Crypto.sample .empty [sampleNode, replyNode]
    (Crypto.sample_batchSound _) none).mpr (by decide)⟩

def emptyWrite (lamport : Nat) : SyncNode := .new Crypto.sample ⟨.padTo 32 [2], lamport, 0, [], []⟩

/-- Another transaction that claims the id of the first write. -/
def impostor : SyncNode := { emptyWrite 1 with id := sampleNode.id }

/-- Sequential ingest accepts a second node within the slack of the first, and
a genuine node after an impostor of its id; the batch drops both. -/
theorem batch_drops_admissible_nodes :
    ((ingest Crypto.sample none .empty [emptyWrite (2 ^ 20), emptyWrite (2 ^ 20 + 100)]).2.map
        SyncNode.id = [(emptyWrite (2 ^ 20)).id, (emptyWrite (2 ^ 20 + 100)).id] ∧
      (applyRemoteBatch Crypto.sample .empty
        [emptyWrite (2 ^ 20), emptyWrite (2 ^ 20 + 100)]).2.accepted =
          [(emptyWrite (2 ^ 20)).id]) ∧
    ((ingest Crypto.sample none .empty [impostor, sampleNode]).2.map SyncNode.id =
        [sampleNode.id] ∧
      (applyRemoteBatch Crypto.sample .empty [impostor, sampleNode]).2.accepted = []) := by
  decide

end StateGraph

end NodalMerge
