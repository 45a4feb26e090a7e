import NodalMerge.Server.ImportOutcome

namespace NodalMerge

open LinkedLog List MemoryNodeStore Retry StateGraph

/-- One node in its turn, on the list of what is stored. -/
def placeStep (known : List SyncNode) (node : SyncNode) : Outcome (List SyncNode) Unit :=
  if placeable known node then .done (place known node) else .later known

section
variable {known last later still : List SyncNode}

theorem placeStep_done {next : List SyncNode} (done : placeStep known node = .done next) :
    next = place known node ∧ node.id ∈ next.map SyncNode.id := by
  rw [placeStep] at done
  split at done
  · rename_i can
    obtain rfl := Outcome.done.inj done
    refine ⟨rfl, ?_⟩
    simp [place, can]
  · cases done

theorem placeStep_later {next : List SyncNode} (waits : placeStep known node = .later next) :
    next = known ∧ next = place known node := by
  rw [placeStep] at waits
  split at waits
  · cases waits
  · rename_i cannot
    obtain rfl := Outcome.later.inj waits
    exact ⟨rfl, (if_neg cannot).symm⟩

/-- A pass appends what it does not leave. -/
theorem trace_added (trace : Trace placeStep known later last still) :
    ∃ added, last = known ++ added ∧ (added ++ still).Perm later := by
  induction trace with
  | nil => exact ⟨[], (append_nil _).symm, .refl _⟩
  | @done known next last node rest still stepped tail ih =>
    obtain ⟨added, rfl, perm⟩ := ih
    refine ⟨node :: added, ?_, perm.cons node⟩
    rw [placeStep] at stepped
    split at stepped
    · rename_i can
      rw [← Outcome.done.inj stepped, place, if_pos can, append_assoc]
      rfl
    · cases stepped
  | @later known next last node rest still stepped tail ih =>
    obtain ⟨added, rfl, perm⟩ := ih
    rw [(placeStep_later stepped).1]
    exact ⟨added, rfl, perm_middle.trans (perm.cons node)⟩

/-- What a pass leaves is not stored. -/
theorem trace_waiting (trace : Trace placeStep known later last still)
    (nodup : (later.map SyncNode.id).Nodup)
    (fresh : ∀ node ∈ later, node.id ∉ known.map SyncNode.id) (member : node ∈ still) :
    node.id ∉ last.map SyncNode.id := by
  obtain ⟨added, rfl, perm⟩ := trace_added trace
  have apart := (perm.map SyncNode.id).nodup_iff.mpr nodup
  rw [map_append, nodup_append] at apart
  rw [map_append, mem_append]
  rintro (before | now)
  · exact fresh node (trace.sublist.subset member) before
  · exact apart.2.2 _ now _ (mem_map_of_mem member) rfl

theorem settled_of_runs (runs : Runs placeStep known later last still) :
    last = settled known later := by
  refine @Runs.view_eq _ _ _ placeStep known last later still _ id place
    (fun known node => node.id ∈ known.map SyncNode.id) (fun known node next proceeds => ?_)
    (fun known node next done => (placeStep_done done).2) (fun known node stored => ?_)
    (fun known node other stored => mem_place stored other)
    (fun known node next waits => (placeStep_later waits).1) runs later.length le_rfl
  · rcases proceeds with done | waits
    · exact (placeStep_done done).1
    · exact (placeStep_later waits).2
  · exact if_neg fun can => (placeable_iff.mp can).fresh stored

end

section
variable {graph : StateGraph}

/-- Nodes that passed their checks are stored or wait for a parent, one after the other. -/
theorem applyBatch_trace (nodup : (pending.map SyncNode.id).Nodup)
    (fresh : ∀ node ∈ pending, graph.nodes.contains node.id = false)
    (permitted : ∀ node ∈ pending, graph.Permitted node) :
    ∃ still : List (SyncNode × SyncError),
      Trace placeStep graph.nodes.data pending
          (graph.applyBatch (pending.map fun node => (node, true))).1.nodes.data
          (still.map Prod.fst) ∧
        (graph.applyBatch (pending.map fun node => (node, true))).2.2 =
          still.map (fun entry => (entry.1.id, entry.2)) ∧
        ∀ entry ∈ still, entry.2.isMissingParent = true := by
  induction pending generalizing graph with
  | nil => exact ⟨[], .nil, rfl, nofun⟩
  | cons head rest ih =>
    rw [map_cons, nodup_cons] at nodup
    have new := fresh head mem_cons_self
    have can : placeable graph.nodes.data head = true ↔
        ∀ parent ∈ head.parents, graph.nodes.contains parent = true := by
      simp only [placeable_iff, contains_iff]
      exact ⟨Placeable.known, fun known => ⟨contains_eq_false.mp new, known⟩⟩
    rw [map_cons, applyBatch]
    cases outcome : (graph.markVerified head.id).applyRemoteVerifiedNoProjection head with
    | ok inserted =>
      obtain ⟨admissible, rfl⟩ := applyRemoteVerifiedNoProjection_ok_iff.mp outcome
      have ready := can.mpr admissible.parents
      have data : ((graph.markVerified head.id).store head true).nodes.data =
          graph.nodes.data ++ [head] := put_fresh new
      obtain ⟨still, trace, rejected, missing⟩ :=
        @ih ((graph.markVerified head.id).store head true) nodup.2 (by
          intro node member
          have before := fresh node (mem_cons_of_mem _ member)
          rw [contains_eq_false] at before ⊢
          rw [data, map_append, mem_append]
          rintro (known | same)
          · exact before known
          · have sameId : node.id = head.id := by simpa using same
            exact nodup.1 (sameId ▸ mem_map_of_mem member))
          fun node member => permitted node (mem_cons_of_mem _ member)
      refine ⟨still, .done ?_ trace, rejected, missing⟩
      rw [placeStep, if_pos ready, place, if_pos ready, data]
    | error error =>
      obtain ⟨still, trace, rejected, missing⟩ := @ih (graph.markVerified head.id) nodup.2
        (fun node member => fresh node (mem_cons_of_mem _ member))
        fun node member => permitted node (mem_cons_of_mem _ member)
      rcases applyRemoteVerifiedNoProjection_error outcome with ⟨lacks, parent, edge, absent⟩ |
        ⟨-, known⟩
      · refine ⟨(head, error) :: still, .later ?_ trace, congrArg (_ :: ·) rejected, ?_⟩
        · refine if_neg fun ready => ?_
          have present : graph.nodes.contains parent = true := can.mp ready parent edge
          cases absent.symm.trans present
        · exact forall_mem_cons.mpr ⟨lacks, missing⟩
      · have present : graph.nodes.contains head.id = true :=
          known (permitted head mem_cons_self)
        cases new.symm.trans present

theorem lastCopy_of_nodup (nodup : (pending.map SyncNode.id).Nodup) (member : node ∈ pending) :
    lastCopy pending node.id = some node := by
  obtain ⟨copy, found⟩ := exists_lastCopy (mem_map_of_mem member)
  obtain ⟨inside, same⟩ := mem_of_lastCopy found
  rw [found, inj_on_of_nodup_map nodup inside member same]

theorem firstSeen_of_nodup (nodup : ids.Nodup) (unseen : ∀ id ∈ ids, id ∉ seen) :
    firstSeen seen ids = ids := by
  induction ids generalizing seen with
  | nil => rfl
  | cons head rest ih =>
    rw [nodup_cons] at nodup
    rw [firstSeen, if_neg (unseen head mem_cons_self), ih nodup.2]
    intro id member known
    rcases Finset.mem_insert.mp known with rfl | before
    · exact nodup.1 member
    · exact unseen id (mem_cons_of_mem _ member) before

/-- With every id once, a pass takes the nodes as they are. -/
theorem passBatch_of_nodup (nodup : (pending.map SyncNode.id).Nodup) :
    passBatch pending = pending := by
  rw [passBatch, firstSeen_of_nodup nodup fun _ _ => Finset.notMem_empty _, filterMap_map]
  refine (filterMap_congr fun node member => ?_).trans filterMap_some
  exact lastCopy_of_nodup nodup member

/-- A pass over nodes that pass all their checks. -/
theorem importPass_trace (sound : crypto.BatchSound pending)
    (nodup : (pending.map SyncNode.id).Nodup)
    (fresh : ∀ node ∈ pending, graph.nodes.contains node.id = false)
    (cleared : ∀ node ∈ pending, Cleared crypto nowMs graph node) :
    Trace placeStep graph.nodes.data pending
      (applyRemoteBatchChecked crypto graph (passBatch pending) nowMs).1.nodes.data
      (leftOver crypto nowMs graph pending) := by
  have prechecked : ∀ node ∈ pending, precheck crypto graph.lamport nowMs node = .ok () :=
    fun node member => (cleared node member).screened.prechecked
  have slots : batchSlots crypto graph pending nowMs = pending.map fun node => (node, true) :=
    batchSlots_all sound nodup fresh fun node member =>
      ⟨prechecked node member, checkSignature_ok_iff.mp (cleared node member).screened.signed⟩
  have screened : screenBatch crypto graph nowMs ∅ pending = (pending, []) :=
    screenBatch_all nodup (fun _ _ => Finset.notMem_empty _) fresh prechecked
  obtain ⟨still, trace, rejected, missing⟩ :=
    applyBatch_trace nodup fresh fun node member => (cleared node member).permitted
  have rejects : (applyRemoteBatchChecked crypto graph pending nowMs).2.rejected =
      still.map fun entry => (entry.1.id, entry.2) := by
    change (screenBatch crypto graph nowMs ∅ pending).2 ++
      (graph.applyBatch (batchSlots crypto graph pending nowMs)).2.2 = _
    rw [slots, screened, rejected, nil_append]
  have left : leftOver crypto nowMs graph pending = still.map Prod.fst := by
    rw [leftOver, passBatch_of_nodup nodup, rejects, stillPending, filterMap_map]
    refine congrArg (List.map Prod.fst)
      ((filterMap_congr fun entry member => ?_).trans filterMap_some)
    have waiting : entry.1 ∈ pending :=
      trace.sublist.subset (mem_map_of_mem member)
    simp [missing entry member, lastCopy_of_nodup nodup waiting]
  rw [left, passBatch_of_nodup nodup]
  rw [← slots] at trace
  exact trace

/-- The passes store nodes that pass all their checks in the order of the passes
of a replay. -/
theorem importPasses_data_eq (sound : crypto.BatchSound pending)
    (nodup : (pending.map SyncNode.id).Nodup)
    (fresh : ∀ node ∈ pending, graph.nodes.contains node.id = false)
    (cleared : ∀ node ∈ pending, Cleared crypto nowMs graph node) :
    (importPasses crypto nowMs graph pending).graph.nodes.data =
      settled graph.nodes.data pending := by
  have runs : ∃ still, Runs placeStep graph.nodes.data pending
      (importPasses crypto nowMs graph pending).graph.nodes.data still := by
    fun_induction importPasses crypto nowMs graph pending with
    | case1 graph pending empty =>
      rw [List.isEmpty_iff.mp empty]
      exact ⟨[], .finished⟩
    | case2 graph pending nonempty outcome still rejected stalled =>
      exact ⟨_, .stalled (by simpa using nonempty) (importPass_trace sound nodup fresh cleared)
        (by rwa [leftOver, length_map])⟩
    | case3 graph pending nonempty outcome still rejected progress rest ih =>
      have trace := importPass_trace sound nodup fresh cleared
      obtain ⟨clock, verified, policy, -⟩ := batch_grows crypto nowMs graph (passBatch pending)
      obtain ⟨last, tail⟩ := ih (sound.mono trace.sublist.subset)
        (nodup.sublist (trace.sublist.map SyncNode.id))
        (fun node member => contains_eq_false.mpr
          (trace_waiting trace nodup (fun node member =>
            contains_eq_false.mp (fresh node member)) member))
        (fun node member => (cleared node (trace.sublist.subset member)).mono clock verified policy)
      refine ⟨last, .again trace (Nat.lt_of_le_of_ne trace.sublist.length_le ?_) tail⟩
      rwa [leftOver, length_map]
  obtain ⟨still, runs⟩ := runs
  exact settled_of_runs runs

/-- Nodes that lie in a linked order are all stored by an empty graph exactly when
each of them passes its checks there. -/
theorem importPasses_empty_errors_iff (sound : crypto.BatchSound pending)
    (linked : Linked SyncNode.id SyncNode.parents rows) (perm : pending.Perm rows) :
    (importPasses crypto nowMs empty pending).errors = [] ↔
      ∀ node ∈ pending, Cleared crypto nowMs empty node := by
  have nodup : (pending.map SyncNode.id).Nodup :=
    (perm.map SyncNode.id).nodup_iff.mpr linked.nodup
  rw [importPasses_errors_eq_nil_iff sound]
  constructor
  · intro placed node member
    rcases (placed node member).known_or_fit with stored | ⟨copy, eligible, same⟩
    · cases stored
    · obtain ⟨inside, -⟩ := mem_of_lastCopy eligible.last
      rw [← inj_on_of_nodup_map nodup inside member same]
      exact eligible.cleared
  · intro cleared node member
    have all : ∀ entry ∈ rows, Placed crypto nowMs empty pending entry.id := by
      refine linked.forall_of_parents fun entry inRows below => ?_
      have inPending := perm.mem_iff.mpr inRows
      refine .placed ⟨lastCopy_of_nodup nodup inPending, cleared entry inPending⟩ ?_
      intro parent edge
      obtain ⟨origin, inLog, rfl⟩ := mem_map.mp (linked.closed inRows edge)
      exact below origin inLog edge
    exact all node (perm.mem_iff.mp member)

end

end NodalMerge
