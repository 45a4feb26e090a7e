import NodalMerge.Server.Import

namespace NodalMerge

open Finset LinkedLog List StateGraph

namespace StateGraph

section
variable {graph : StateGraph} {id : NodeId}

theorem checkPolicy_isDuplicateNode (refused : graph.checkPolicy node = .error error) :
    error.isDuplicateNode = false := by
  unfold checkPolicy at refused
  split at refused
  · cases refused
  · dsimp only at refused
    split at refused
    · cases refused
      rfl
    · cases refused

/-- A node with its parents is refused as a duplicate or by the policy. -/
theorem refused_cases (failed : graph.applyRemoteVerifiedNoProjection node = .error error)
    (parents : error.isMissingParent = false) :
    (error.isDuplicateNode = true ∧ graph.nodes.contains node.id = true) ∨
      (error.isDuplicateNode = false ∧ ¬ graph.Permitted node) := by
  rcases parents_cases graph node with missing | present
  · obtain ⟨parent, absent⟩ := checkParents_missing missing
    simp only [applyRemoteVerifiedNoProjection, absent, bind, Except.bind] at failed
    cases failed
    cases parents
  · simp only [applyRemoteVerifiedNoProjection, checkParents_ok_iff.mpr present, bind,
      Except.bind] at failed
    cases policy : graph.checkPolicy node with
    | error other =>
      rw [policy] at failed
      cases failed
      refine .inr ⟨checkPolicy_isDuplicateNode policy, fun permitted => ?_⟩
      cases policy.symm.trans (checkPolicy_ok_iff.mpr permitted)
    | ok _ =>
      rw [policy] at failed
      cases known : graph.nodes.contains node.id with
      | false =>
        rw [insertNode_ok known] at failed
        cases failed
      | true =>
        simp only [insertNode, known, ↓reduceIte] at failed
        cases failed
        exact .inl ⟨rfl, rfl⟩

/-- A rejection other than for a missing parent: a duplicate of a stored node, or a
slot with a bad signature or refused by the policy. -/
theorem applyBatch_rejected (rejected : (id, error) ∈ (graph.applyBatch slots).2.2)
    (parents : error.isMissingParent = false) :
    (error.isDuplicateNode = true ∧ (graph.applyBatch slots).1.nodes.contains id = true) ∨
      error.isDuplicateNode = false ∧ ∃ node verdict, (node, verdict) ∈ slots ∧ node.id = id ∧
        (verdict = true → ¬ graph.Permitted node) := by
  obtain ⟨node, _, member, rfl, ⟨rfl, rfl⟩ | ⟨rfl, here, between, failed⟩⟩ :=
    exists_of_applyBatch_rejected rejected
  · exact .inr ⟨rfl, node, false, member, rfl, nofun⟩
  · refine (refused_cases failed parents).imp (And.imp_right (between.kept _)) ?_
    refine And.imp_right fun refused => ⟨node, true, member, rfl, fun _ permitted => refused ?_⟩
    unfold Permitted
    rwa [between.policy]

end

end StateGraph

theorem Import.errors_eq_nil_iff {result : Import} :
    result.errors = [] ↔
      (∀ entry ∈ result.rejected, entry.2.isDuplicateNode = true) ∧ result.unresolved = [] := by
  rw [Import.errors, append_eq_nil_iff, filterMap_eq_nil_iff]
  refine and_congr (forall₂_congr fun entry _ => ?_) ?_
  · split <;> simp_all
  · cases result.unresolved <;> simp

section
variable {graph : StateGraph} {id : NodeId}

/-- Where a pass refuses a node for good, a node cannot be placed. -/
theorem exists_not_placed_of_rejected (sound : crypto.BatchSound pending) (rejected : (id, error) ∈
      (applyRemoteBatchChecked crypto graph (passBatch pending) nowMs).2.rejected)
    (parents : error.isMissingParent = false) (fresh : error.isDuplicateNode = false) :
    ∃ node ∈ pending, ¬ Placed crypto nowMs graph pending node.id := by
  -- the only copy that could be placed is the one that was refused
  have refused : ∃ node, lastCopy pending id = some node ∧ graph.nodes.contains id = false ∧
      ¬ Cleared crypto nowMs graph node := by
    rcases mem_append.mp rejected with screened | applied
    · obtain ⟨node, member, rfl, absent, failed⟩ := exists_of_screenBatch_rejected screened
      refine ⟨node, mem_passBatch.mp member, absent, fun cleared => ?_⟩
      cases cleared.screened.prechecked.symm.trans failed
    · rcases applyBatch_rejected applied parents with ⟨duplicate, -⟩ |
        ⟨-, node, verdict, slot, rfl, unpermitted⟩
      · cases duplicate.symm.trans fresh
      · change (node, verdict) ∈ batchSlots crypto graph (passBatch pending) nowMs at slot
        rw [batchSlots_eq (sound.mono passBatch_subset)] at slot
        obtain ⟨entry, inScreen, pair⟩ := mem_map.mp slot
        obtain ⟨rfl, rfl⟩ := Prod.mk.inj pair
        obtain ⟨inBatch, -, absent, -⟩ := mem_screenBatch inScreen
        refine ⟨entry, mem_passBatch.mp inBatch, absent, fun cleared => ?_⟩
        exact unpermitted (checkSignature_ok_iff.mp cleared.screened.signed) cleared.permitted
  obtain ⟨node, last, absent, uncleared⟩ := refused
  obtain ⟨member, rfl⟩ := mem_of_lastCopy last
  refine ⟨node, member, fun placed => ?_⟩
  rcases placed.known_or_fit with known | ⟨other, eligible, same⟩
  · cases known.symm.trans absent
  · have found := eligible.last
    rw [same, last] at found
    obtain rfl := Option.some.inj found
    exact uncleared eligible.cleared

/-- Every id of a pass is stored afterwards or rejected. -/
theorem stored_or_rejected (sound : crypto.BatchSound pending) (member : node ∈ pending) :
    (applyRemoteBatchChecked crypto graph (passBatch pending) nowMs).1.nodes.contains node.id
        = true ∨
      ∃ error, (node.id, error) ∈
        (applyRemoteBatchChecked crypto graph (passBatch pending) nowMs).2.rejected := by
  obtain ⟨copy, last⟩ := exists_lastCopy (mem_map_of_mem member)
  have same := (mem_of_lastCopy last).2
  have inBatch : copy ∈ passBatch pending := mem_passBatch.mpr (same ▸ last)
  rw [← same]
  rcases screenBatch_fate (passBatch_nodup pending) inBatch (notMem_empty _) with
    known | kept | ⟨error, rejected⟩
  · exact .inl ((batch_grows crypto nowMs graph (passBatch pending)).2.2.2 _ known)
  · have slot : (copy, signaturePasses crypto graph copy) ∈
        batchSlots crypto graph (passBatch pending) nowMs := by
      rw [batchSlots_eq (sound.mono passBatch_subset)]
      exact mem_map.mpr ⟨copy, kept, rfl⟩
    rcases applyBatch_slot slot with known | ⟨error, rejected, -⟩
    · exact .inl known
    · exact .inr ⟨error, mem_append_right _ rejected⟩
  · exact .inr ⟨error, mem_append_left _ rejected⟩

/-- The rejections of a pass that are reported. -/
theorem pass_reports_nothing_iff (sound : crypto.BatchSound pending)
    (left : ∀ node ∈ leftOver crypto nowMs graph pending, Placed crypto nowMs graph pending node.id) :
    (∀ entry ∈ (applyRemoteBatchChecked crypto graph (passBatch pending) nowMs).2.rejected.filter
        (fun entry => !entry.2.isMissingParent), entry.2.isDuplicateNode = true) ↔
      ∀ node ∈ pending, Placed crypto nowMs graph pending node.id := by
  constructor
  · intro quiet node member
    rcases stored_or_rejected sound member with known | ⟨error, rejected⟩
    · exact placed_of_pass sound known
    · cases missing : error.isMissingParent with
      | true =>
        obtain ⟨copy, last⟩ := exists_lastCopy (mem_map_of_mem member)
        have same := (mem_of_lastCopy last).2
        refine same ▸ left copy (mem_map.mpr ⟨(copy, error), mem_filterMap.mpr
          ⟨(node.id, error), rejected, ?_⟩, rfl⟩)
        simp [missing, last]
      | false =>
        have duplicate := quiet _ (mem_filter.mpr ⟨rejected, by simp [missing]⟩)
        rcases mem_append.mp rejected with screened | applied
        · obtain ⟨copy, -, -, -, failed⟩ := exists_of_screenBatch_rejected screened
          cases duplicate.symm.trans (precheck_error failed).2
        · rcases applyBatch_rejected applied missing with ⟨-, known⟩ | ⟨fresh, -⟩
          · exact placed_of_pass sound known
          · cases duplicate.symm.trans fresh
  · intro all entry kept
    obtain ⟨rejected, waits⟩ := mem_filter.mp kept
    by_contra fresh
    obtain ⟨node, member, unplaced⟩ := exists_not_placed_of_rejected sound rejected
      (by simpa using waits) (by simpa using fresh)
    exact unplaced (all node member)

/-- Nothing is reported exactly when every node can be placed. -/
theorem importPasses_errors_eq_nil_iff (sound : crypto.BatchSound pending) :
    (importPasses crypto nowMs graph pending).errors = [] ↔
      ∀ node ∈ pending, Placed crypto nowMs graph pending node.id := by
  fun_induction importPasses crypto nowMs graph pending with
  | case1 graph pending empty =>
    rw [List.isEmpty_iff.mp empty]
    refine ⟨fun _ node member => ?_, fun _ => rfl⟩
    cases member
  | case2 graph pending nonempty outcome still rejected stalled =>
    have everything : (leftOver crypto nowMs graph pending).length = pending.length := by
      rwa [leftOver, length_map]
    have left : leftOver crypto nowMs graph pending ≠ [] := by
      intro none
      rw [none] at everything
      exact nonempty (List.isEmpty_iff.mpr (eq_nil_of_length_eq_zero everything.symm))
    constructor
    · intro quiet
      refine absurd ?_ left
      exact congrArg (List.map Prod.fst) (Import.errors_eq_nil_iff.mp quiet).2
    · intro all
      obtain ⟨node, member⟩ := exists_mem_of_ne_nil _ left
      obtain ⟨last, -, fresh, -⟩ := mem_leftOver sound member
      have stored := placed_of_stalled sound everything (all node (mem_of_lastCopy last).1)
      rw [contains_of_stalled everything, fresh] at stored
      cases stored
  | case3 graph pending nonempty outcome still rejected progress rest ih =>
    have tail : rest.errors = [] ↔ ∀ node ∈ leftOver crypto nowMs graph pending,
        Placed crypto nowMs graph pending node.id :=
      (ih (sound.mono (leftOver_subset sound))).trans
        (forall₂_congr fun _ _ => placed_leftOver sound)
    rw [Import.errors_eq_nil_iff] at tail ⊢
    rw [forall_mem_append, and_assoc]
    refine (and_congr_right fun _ => tail).trans ?_
    constructor
    · rintro ⟨quiet, left⟩
      exact (pass_reports_nothing_iff sound left).mp quiet
    · intro all
      have left : ∀ node ∈ leftOver crypto nowMs graph pending,
          Placed crypto nowMs graph pending node.id :=
        fun node member => all node (leftOver_subset sound member)
      exact ⟨(pass_reports_nothing_iff sound left).mpr all, left⟩

/-- Every new node that passes the checks is marked already and is not admitted. -/
def Untouched (crypto : Crypto) (nowMs : Option Nat) (graph : StateGraph) (nodes : List SyncNode) :
    Prop :=
  ∀ node, lastCopy nodes node.id = some node → graph.nodes.contains node.id = false →
    Screened crypto graph nowMs node → node.id ∈ graph.verifiedIds ∧ ¬ graph.Admissible node

theorem applyBatch_eq_self {slots : List (SyncNode × Bool)}
    (untouched : ∀ node, (node, true) ∈ slots →
      node.id ∈ graph.verifiedIds ∧ ¬ graph.Admissible node) :
    (graph.applyBatch slots).1 = graph ∧ (graph.applyBatch slots).2.1 = [] := by
  induction slots with
  | nil => exact ⟨rfl, rfl⟩
  | cons slot rest ih =>
    obtain ⟨head, verdict⟩ := slot
    have tail := ih fun node member => untouched node (.tail _ member)
    cases verdict with
    | false => exact tail
    | true =>
      obtain ⟨known, refused⟩ := untouched head (.head _)
      have marked : graph.markVerified head.id = graph := by
        rw [markVerified, insert_eq_of_mem known]
      rw [applyBatch, marked]
      cases outcome : graph.applyRemoteVerifiedNoProjection head with
      | ok inserted => exact absurd (applyRemoteVerifiedNoProjection_ok_iff.mp outcome).1 refused
      | error other => exact tail

/-- The slots of a pass that are applied. -/
theorem mem_passSlots_iff (sound : crypto.BatchSound pending) :
    (node, true) ∈ batchSlots crypto graph (passBatch pending) nowMs ↔
      lastCopy pending node.id = some node ∧ graph.nodes.contains node.id = false ∧
        Screened crypto graph nowMs node := by
  rw [batchSlots_eq (sound.mono passBatch_subset)]
  constructor
  · intro slot
    obtain ⟨entry, inScreen, pair⟩ := mem_map.mp slot
    obtain ⟨rfl, passes⟩ := Prod.mk.inj pair
    obtain ⟨inBatch, -, fresh, prechecked⟩ := mem_screenBatch inScreen
    exact ⟨mem_passBatch.mp inBatch, fresh, prechecked, checkSignature_ok_iff.mpr passes⟩
  · rintro ⟨last, fresh, prechecked, signed⟩
    have screened := mem_screenBatch_of_nodup (passBatch_nodup pending) (mem_passBatch.mpr last)
      (notMem_empty _) fresh prechecked
    exact mem_map.mpr ⟨node, screened, by rw [checkSignature_ok_iff.mp signed]⟩

theorem Untouched.pass_eq (sound : crypto.BatchSound pending)
    (untouched : Untouched crypto nowMs graph pending) :
    (applyRemoteBatchChecked crypto graph (passBatch pending) nowMs).1 = graph := by
  obtain ⟨same, nothing⟩ := @applyBatch_eq_self graph
    (batchSlots crypto graph (passBatch pending) nowMs) fun node slot => by
      obtain ⟨last, fresh, screened⟩ := (mem_passSlots_iff sound).mp slot
      exact untouched node last fresh screened
  change updateTextProjectionFromNodesBatch
    (graph.applyBatch (batchSlots crypto graph (passBatch pending) nowMs)).1
    (graph.applyBatch (batchSlots crypto graph (passBatch pending) nowMs)).2.1 = graph
  rw [same, nothing]
  rfl

theorem mem_verifiedIds_of_slot (member : (node, true) ∈ slots) :
    node.id ∈ (graph.applyBatch slots).1.verifiedIds := by
  fun_induction applyBatch graph slots with
  | case1 graph => cases member
  | case2 graph head rest applied ih => exact ih (by simpa using member)
  | case3 graph head rest inserted outcome applied ih =>
    obtain ⟨-, rfl⟩ := applyRemoteVerifiedNoProjection_ok_iff.mp outcome
    rcases mem_cons.mp member with same | inRest
    · cases same
      exact applyBatch_verifiedIds _ rest (mem_insert_self _ _)
    · exact ih inRest
  | case4 graph head rest other outcome applied ih =>
    rcases mem_cons.mp member with same | inRest
    · cases same
      exact applyBatch_verifiedIds _ rest (mem_insert_self _ _)
    · exact ih inRest

theorem importPasses_verifiedIds (known : id ∈ graph.verifiedIds) :
    id ∈ (importPasses crypto nowMs graph pending).graph.verifiedIds :=
  @importPasses_invariant crypto nowMs graph [] (fun after _ => id ∈ after.verifiedIds)
    (fun before _ nodes held => (batch_grows crypto nowMs before nodes).2.1 held) pending known

/-- The passes leave the graph as it was exactly when they touch no new node. -/
theorem importPasses_graph_eq_iff (sound : crypto.BatchSound pending) :
    (importPasses crypto nowMs graph pending).graph = graph ↔
      Untouched crypto nowMs graph pending := by
  constructor
  · intro same node last fresh screened
    constructor
    · have marked : node.id ∈
          (applyRemoteBatchChecked crypto graph (passBatch pending) nowMs).1.verifiedIds :=
        mem_verifiedIds_of_slot ((mem_passSlots_iff sound).mpr ⟨last, fresh, screened⟩)
      have nonempty : pending ≠ [] := ne_nil_of_mem (mem_of_lastCopy last).1
      rw [importPasses, if_neg (by simpa using nonempty)] at same
      dsimp only at same
      rw [← same]
      split
      · exact marked
      · exact importPasses_verifiedIds marked
    · intro admissible
      have placed : Placed crypto nowMs graph pending node.id :=
        .placed ⟨last, screened, admissible.permitted⟩
          fun parent edge => .known (admissible.parents parent edge)
      have stored := (importPasses_contains_iff sound).mpr placed
      rw [same, fresh] at stored
      cases stored
  · intro untouched
    fun_induction importPasses crypto nowMs graph pending with
    | case1 => rfl
    | case2 graph pending => exact untouched.pass_eq sound
    | case3 graph pending nonempty outcome still rejected progress rest ih =>
      have same : outcome.1 = graph := untouched.pass_eq sound
      refine (ih (sound.mono (leftOver_subset sound)) fun node last fresh screened => ?_).trans same
      rw [same] at fresh screened ⊢
      obtain ⟨lastBefore, -⟩ := mem_leftOver sound (mem_of_lastCopy last).1
      exact untouched node lastBefore fresh screened

end

end NodalMerge
