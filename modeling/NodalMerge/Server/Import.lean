import NodalMerge.Crdt.Batch
import NodalMerge.Crdt.SyncStore

/-! Metrics and the host's conflict stream are left out. -/

namespace NodalMerge

open And LinkedLog List MemoryNodeStore Retry StateGraph

/-- What the index of a pass holds under an id: the last insert wins. -/
def lastCopy (pending : List SyncNode) (id : NodeId) : Option SyncNode :=
  pending.reverse.find? fun node => node.id = id

/-- The ids that were not seen before, in order. -/
def firstSeen (seen : Finset NodeId) : List NodeId → List NodeId
  | [] => []
  | id :: rest =>
    if id ∈ seen then firstSeen seen rest else id :: firstSeen (insert id seen) rest

/-- Every id once: where its first copy stands, with what its last copy says. -/
def passBatch (pending : List SyncNode) : List SyncNode :=
  (firstSeen ∅ (pending.map SyncNode.id)).filterMap (lastCopy pending)

def SyncError.isMissingParent : SyncError → Bool
  | .missingParent _ => true
  | _ => false

def SyncError.isDuplicateNode : SyncError → Bool
  | .duplicateNode _ => true
  | _ => false

/-- The rejects that another pass may still place, taken back from the index. -/
def stillPending (pending : List SyncNode) (rejected : List (NodeId × SyncError)) :
    List (SyncNode × SyncError) :=
  rejected.filterMap fun entry =>
    if entry.2.isMissingParent then (lastCopy pending entry.1).map fun node => (node, entry.2)
    else none

/-- What the passes leave: `rejected` without missing parents, and the nodes that
were still without a parent at the end. -/
structure Import where
  graph : StateGraph
  accepted : List NodeId
  rejected : List (NodeId × SyncError)
  unresolved : List (SyncNode × SyncError)

section
variable {id : NodeId}

theorem mem_of_lastCopy (found : lastCopy pending id = some node) :
    node ∈ pending ∧ node.id = id :=
  ⟨mem_reverse.mp (mem_of_find?_eq_some found), by simpa using List.find?_some found⟩

theorem exists_lastCopy (member : id ∈ pending.map SyncNode.id) :
    ∃ node, lastCopy pending id = some node := by
  obtain ⟨node, inside, rfl⟩ := mem_map.mp member
  refine Option.isSome_iff_exists.mp (List.find?_isSome.mpr ⟨node, mem_reverse.mpr inside, ?_⟩)
  simp

theorem mem_firstSeen : id ∈ firstSeen seen ids ↔ id ∈ ids ∧ id ∉ seen := by
  fun_induction firstSeen seen ids with
  | case1 seen => simp
  | case2 seen head rest known ih =>
    rw [ih, mem_cons]
    constructor
    · exact fun ⟨inRest, unseen⟩ => ⟨.inr inRest, unseen⟩
    · rintro ⟨rfl | inRest, unseen⟩
      · exact (unseen known).elim
      · exact ⟨inRest, unseen⟩
  | case3 seen head rest unknown ih =>
    rw [mem_cons, ih, Finset.mem_insert, not_or, mem_cons]
    by_cases same : id = head <;> simp [same, unknown]

theorem firstSeen_nodup (seen : Finset NodeId) (ids : List NodeId) : (firstSeen seen ids).Nodup := by
  fun_induction firstSeen seen ids with
  | case1 seen => exact .nil
  | case2 seen head rest known ih => exact ih
  | case3 seen head rest unknown ih =>
    refine nodup_cons.mpr ⟨fun again => ?_, ih⟩
    exact (mem_firstSeen.mp again).2 (Finset.mem_insert_self _ _)

theorem length_firstSeen (seen : Finset NodeId) (ids : List NodeId) :
    (firstSeen seen ids).length ≤ ids.length := by
  fun_induction firstSeen seen ids with
  | case1 seen => exact le_rfl
  | case2 seen head rest known ih => exact ih.trans (Nat.le_succ _)
  | case3 seen head rest unknown ih => exact Nat.succ_le_succ ih

theorem mem_passBatch : node ∈ passBatch pending ↔ lastCopy pending node.id = some node := by
  rw [passBatch, mem_filterMap]
  constructor
  · rintro ⟨id, -, found⟩
    rwa [(mem_of_lastCopy found).2]
  · intro found
    refine ⟨node.id, mem_firstSeen.mpr ⟨?_, Finset.notMem_empty _⟩, found⟩
    exact mem_map_of_mem (mem_of_lastCopy found).1

theorem passBatch_subset : passBatch pending ⊆ pending :=
  fun _ member => (mem_of_lastCopy (mem_passBatch.mp member)).1

theorem length_passBatch (pending : List SyncNode) : (passBatch pending).length ≤ pending.length := by
  refine (length_filterMap_le _ _).trans ((length_firstSeen _ _).trans ?_)
  rw [length_map]

theorem passBatch_nodup (pending : List SyncNode) : ((passBatch pending).map SyncNode.id).Nodup := by
  have distinct : (passBatch pending).Pairwise fun first second => first.id ≠ second.id := by
    refine List.Pairwise.filterMap _ ?_ (firstSeen_nodup ∅ (pending.map SyncNode.id))
    intro first second differ one inFirst two inSecond same
    rw [(mem_of_lastCopy inFirst).2, (mem_of_lastCopy inSecond).2] at same
    exact differ same
  exact pairwise_map.mpr distinct

theorem length_stillPending (pending : List SyncNode) (rejected : List (NodeId × SyncError)) :
    (stillPending pending rejected).length ≤ rejected.length :=
  length_filterMap_le _ _

end

namespace StateGraph

section
variable {graph : StateGraph} {nodes : List SyncNode} {id : NodeId}

theorem length_screenBatch (crypto : Crypto) (graph : StateGraph) (nowMs : Option Nat)
    (seen : Finset NodeId) (nodes : List SyncNode) :
    (screenBatch crypto graph nowMs seen nodes).1.length +
      (screenBatch crypto graph nowMs seen nodes).2.length ≤ nodes.length := by
  fun_induction screenBatch crypto graph nowMs seen nodes <;> grind

theorem length_applyBatch (graph : StateGraph) (slots : List (SyncNode × Bool)) :
    (graph.applyBatch slots).2.1.length + (graph.applyBatch slots).2.2.length = slots.length := by
  fun_induction applyBatch graph slots <;> grind

/-- Every node of a batch is accepted, rejected or dropped. -/
theorem length_applyRemoteBatchChecked (crypto : Crypto) (graph : StateGraph) (nodes : List SyncNode)
    (nowMs : Option Nat) :
    (applyRemoteBatchChecked crypto graph nodes nowMs).2.accepted.length +
      (applyRemoteBatchChecked crypto graph nodes nowMs).2.rejected.length ≤ nodes.length := by
  have screened := length_screenBatch crypto graph nowMs ∅ nodes
  have applied := length_applyBatch graph (batchSlots crypto graph nodes nowMs)
  have slots : (batchSlots crypto graph nodes nowMs).length ≤
      (screenBatch crypto graph nowMs ∅ nodes).1.length := by
    rw [batchSlots, length_zip]
    exact Nat.min_le_left _ _
  rw [applyRemoteBatchChecked_accepted, length_map]
  change (graph.applyBatch (batchSlots crypto graph nodes nowMs)).2.1.length +
    ((screenBatch crypto graph nowMs ∅ nodes).2 ++
      (graph.applyBatch (batchSlots crypto graph nodes nowMs)).2.2).length ≤ nodes.length
  rw [length_append]
  omega

/-- The checks before parents and policy report neither a missing parent nor a
duplicate. -/
theorem precheck_error (failed : precheck crypto localLamport nowMs node = .error error) :
    error.isMissingParent = false ∧ error.isDuplicateNode = false := by
  by_cases hashed : crypto.txHash node.transaction = node.id
  · by_cases ceiling : node.lamport ≤ saturatingAdd localLamport lamportSlack
    · have inTime : checkLamportCeiling localLamport node = .ok () :=
        checkLamportCeiling_ok_iff.mpr ceiling
      unfold precheck at failed
      rw [if_neg (not_not.mpr hashed), inTime] at failed
      cases nowMs with
      | none => cases failed
      | some now =>
        change checkWallSkew now node = .error error at failed
        unfold checkWallSkew at failed
        dsimp only at failed
        split at failed
        · cases failed
        · split at failed
          · cases failed
            exact ⟨rfl, rfl⟩
          · cases failed
    · rw [precheck_above hashed rfl (not_le.mp ceiling)] at failed
      cases failed
      exact ⟨rfl, rfl⟩
  · rw [precheck_unhashed hashed] at failed
    cases failed
    exact ⟨rfl, rfl⟩

variable {seen : Finset NodeId}

/-- A node that screening rejects is new and fails the checks. -/
theorem exists_of_screenBatch_rejected
    (rejected : (id, error) ∈ (screenBatch crypto graph nowMs seen nodes).2) :
    ∃ node ∈ nodes, node.id = id ∧ graph.nodes.contains id = false ∧
      precheck crypto graph.lamport nowMs node = .error error := by
  fun_induction screenBatch crypto graph nowMs seen nodes with
  | case1 seen => cases rejected
  | case4 seen head rest unseen screened fresh other failed ih =>
    rcases mem_cons.mp rejected with same | inRest
    · cases same
      exact ⟨head, .head _, rfl, by simpa using fresh, failed⟩
    · exact (ih inRest).imp fun _ => imp_left (.tail _)
  | _ =>
    rename_i ih
    exact (ih rejected).imp fun _ => imp_left (.tail _)

section
variable (nodup : (nodes.map SyncNode.id).Nodup)
include nodup

/-- With every id once, a node is stored, kept or rejected by screening. -/
theorem screenBatch_fate (member : node ∈ nodes) (unseen : node.id ∉ seen) :
    graph.nodes.contains node.id = true ∨ node ∈ (screenBatch crypto graph nowMs seen nodes).1 ∨
      ∃ error, (node.id, error) ∈ (screenBatch crypto graph nowMs seen nodes).2 := by
  induction nodes generalizing seen with
  | nil => cases member
  | cons head rest ih =>
    rw [map_cons, nodup_cons] at nodup
    rw [screenBatch]
    rcases mem_cons.mp member with rfl | inRest
    · rw [if_neg unseen]
      cases stored : graph.nodes.contains node.id with
      | true => exact .inl rfl
      | false =>
        cases precheck crypto graph.lamport nowMs node with
        | ok _ => exact .inr (.inl (by simp))
        | error other => exact .inr (.inr ⟨other, by simp⟩)
    · have differs : node.id ≠ head.id := by
        intro same
        exact nodup.1 (same ▸ mem_map_of_mem inRest)
      split
      · exact ih nodup.2 inRest unseen
      · have tail := @ih (insert head.id seen) nodup.2 inRest (by simp [differs, unseen])
        split
        · exact tail
        · cases precheck crypto graph.lamport nowMs head with
          | ok _ => exact tail.imp_right (.imp_left (mem_cons_of_mem _))
          | error other =>
            exact tail.imp_right (.imp_right (Exists.imp fun _ => mem_cons_of_mem _))

/-- With every id once, screening keeps what is new and passes the checks. -/
theorem mem_screenBatch_of_nodup (member : node ∈ nodes) (unseen : node.id ∉ seen)
    (fresh : graph.nodes.contains node.id = false)
    (passed : precheck crypto graph.lamport nowMs node = .ok ()) :
    node ∈ (screenBatch crypto graph nowMs seen nodes).1 := by
  rcases screenBatch_fate nodup member unseen with stored | kept | ⟨error, rejected⟩
  · cases fresh.symm.trans stored
  · exact kept
  · obtain ⟨other, inside, same, -, failed⟩ := exists_of_screenBatch_rejected rejected
    rw [inj_on_of_nodup_map nodup inside member same, passed] at failed
    cases failed

/-- With every id once and new, screening keeps what passes the checks. -/
theorem screenBatch_all (unseen : ∀ node ∈ nodes, node.id ∉ seen)
    (fresh : ∀ node ∈ nodes, graph.nodes.contains node.id = false)
    (passes : ∀ node ∈ nodes, precheck crypto graph.lamport nowMs node = .ok ()) :
    screenBatch crypto graph nowMs seen nodes = (nodes, []) := by
  induction nodes generalizing seen with
  | nil => rfl
  | cons head rest ih =>
    rw [map_cons, nodup_cons] at nodup
    have later : ∀ node ∈ rest, node.id ∉ insert head.id seen := by
      intro node member known
      rcases Finset.mem_insert.mp known with same | before
      · exact nodup.1 (same ▸ mem_map_of_mem member)
      · exact unseen node (mem_cons_of_mem _ member) before
    have tail := ih nodup.2 later (fun node member => fresh node (mem_cons_of_mem _ member))
      fun node member => passes node (mem_cons_of_mem _ member)
    simp [screenBatch, unseen head mem_cons_self, fresh head mem_cons_self,
      passes head mem_cons_self, tail]

end

theorem batchSlots_all (sound : crypto.BatchSound nodes) (nodup : (nodes.map SyncNode.id).Nodup)
    (fresh : ∀ node ∈ nodes, graph.nodes.contains node.id = false)
    (passes : ∀ node ∈ nodes, precheck crypto graph.lamport nowMs node = .ok () ∧
      signaturePasses crypto graph node = true) :
    batchSlots crypto graph nodes nowMs = nodes.map fun node => (node, true) := by
  rw [batchSlots_eq sound, screenedSlots, screenBatch_all nodup (fun _ _ => Finset.notMem_empty _)
    fresh fun node member => (passes node member).1]
  exact map_congr_left fun node member => by rw [(passes node member).2]

theorem applyRemoteVerifiedNoProjection_error
    (failed : graph.applyRemoteVerifiedNoProjection node = .error error) :
    error.isMissingParent = true ∧ (∃ parent ∈ node.parents, graph.nodes.contains parent = false) ∨
      error.isMissingParent = false ∧ (graph.Permitted node → graph.nodes.contains node.id = true) := by
  rcases parents_cases graph node with missing | parents
  · obtain ⟨parent, absent⟩ := checkParents_missing missing
    simp only [applyRemoteVerifiedNoProjection, absent, bind, Except.bind] at failed
    cases failed
    exact .inl ⟨rfl, missing⟩
  · refine .inr ⟨?_, fun permitted => ?_⟩
    · simp only [applyRemoteVerifiedNoProjection, checkParents_ok_iff.mpr parents, bind,
        Except.bind] at failed
      unfold checkPolicy insertNode at failed
      split at failed
      · rename_i other refused
        cases failed
        split at refused
        · cases refused
        · dsimp only at refused
          split at refused
          · cases refused
            rfl
          · cases refused
      · split at failed
        · rename_i other refused
          cases failed
          split at refused
          · cases refused
            rfl
          · cases refused
        · cases failed
    · by_contra fresh
      have accepted := applyRemoteVerifiedNoProjection_ok_iff.mpr
        ⟨⟨parents, permitted, by simpa using fresh⟩, rfl⟩
      cases failed.symm.trans accepted

theorem applyBatch_contains (known : graph.nodes.contains id = true) :
    (graph.applyBatch slots).1.nodes.contains id = true :=
  @applyBatch_invariant graph (fun after => after.nodes.contains id = true) slots
    (fun _ _ known => known) (fun _ other _ known _ => contains_put known other) known

/-- A graph between the start of a batch and its end. -/
structure Meanwhile (graph here after : StateGraph) : Prop where
  policy : here.policy = graph.policy
  grown : ∀ id, graph.nodes.contains id = true → here.nodes.contains id = true
  kept : ∀ id, here.nodes.contains id = true → after.nodes.contains id = true

theorem Meanwhile.start :
    Meanwhile graph (graph.markVerified id) ((graph.markVerified id).applyBatch slots).1 :=
  ⟨rfl, fun _ known => known, fun _ known => applyBatch_contains known⟩

theorem Meanwhile.marked {after : StateGraph}
    (between : Meanwhile (graph.markVerified id) here after) : Meanwhile graph here after :=
  ⟨between.policy, between.grown, between.kept⟩

theorem Meanwhile.stored {after : StateGraph}
    (between : Meanwhile ((graph.markVerified id).store node true) here after) :
    Meanwhile graph here after :=
  ⟨between.policy, fun id known => between.grown id (contains_put known node),
    between.kept⟩

/-- Every rejection is of a slot that came with a bad signature or was refused at its turn. -/
theorem exists_of_applyBatch_rejected (rejected : (id, error) ∈ (graph.applyBatch slots).2.2) :
    ∃ node verdict, (node, verdict) ∈ slots ∧ node.id = id ∧
      ((verdict = false ∧ error = .invalidSignature id) ∨
        (verdict = true ∧ ∃ here, Meanwhile graph here (graph.applyBatch slots).1 ∧
          here.applyRemoteVerifiedNoProjection node = .error error)) := by
  fun_induction applyBatch graph slots with
  | case1 graph => cases rejected
  | case2 graph head rest applied ih =>
    rcases mem_cons.mp rejected with same | inRest
    · cases same
      exact ⟨head, false, .head _, rfl, .inl ⟨rfl, rfl⟩⟩
    · obtain ⟨node, verdict, member, refused⟩ := ih inRest
      exact ⟨node, verdict, .tail _ member, refused⟩
  | case3 graph head rest inserted outcome applied ih =>
    obtain ⟨-, rfl⟩ := applyRemoteVerifiedNoProjection_ok_iff.mp outcome
    obtain ⟨node, verdict, member, same, refused⟩ := ih rejected
    refine ⟨node, verdict, .tail _ member, same, refused.imp_right ?_⟩
    rintro ⟨passes, here, between, failed⟩
    exact ⟨passes, here, between.stored, failed⟩
  | case4 graph head rest other outcome applied ih =>
    rcases mem_cons.mp rejected with same | inRest
    · cases same
      exact ⟨head, true, .head _, rfl, .inr ⟨rfl, _, .start, outcome⟩⟩
    · obtain ⟨node, verdict, member, same, refused⟩ := ih inRest
      refine ⟨node, verdict, .tail _ member, same, refused.imp_right ?_⟩
      rintro ⟨passes, here, between, failed⟩
      exact ⟨passes, here, between.marked, failed⟩

/-- A missing parent is reported for a node that lacked one at its turn. -/
theorem applyBatch_missing (rejected : (id, error) ∈ (graph.applyBatch slots).2.2)
    (missing : error.isMissingParent = true) :
    ∃ node, (node, true) ∈ slots ∧ node.id = id ∧
      ∃ parent ∈ node.parents, graph.nodes.contains parent = false := by
  obtain ⟨node, _, member, same, ⟨-, rfl⟩ | ⟨rfl, here, between, failed⟩⟩ :=
    exists_of_applyBatch_rejected rejected
  · cases missing
  · rcases applyRemoteVerifiedNoProjection_error failed with ⟨-, parent, edge, absent⟩ | ⟨other, -⟩
    · refine ⟨node, member, same, parent, edge, eq_false_of_ne_true fun known => ?_⟩
      cases (between.grown parent known).symm.trans absent
    · cases missing.symm.trans other

/-- A slot is stored, or rejected as it came or at its turn. -/
theorem applyBatch_slot {verdict : Bool} (member : (node, verdict) ∈ slots) :
    (graph.applyBatch slots).1.nodes.contains node.id = true ∨
      ∃ error, (node.id, error) ∈ (graph.applyBatch slots).2.2 ∧
        (verdict = true → ∃ here, Meanwhile graph here (graph.applyBatch slots).1 ∧
          here.applyRemoteVerifiedNoProjection node = .error error) := by
  fun_induction applyBatch graph slots with
  | case1 graph => cases member
  | case2 graph head rest applied ih =>
    rcases mem_cons.mp member with same | inRest
    · cases same
      exact .inr ⟨_, .head _, nofun⟩
    · exact (ih inRest).imp_right (Exists.imp fun _ => imp_left (.tail _))
  | case3 graph head rest inserted outcome applied ih =>
    obtain ⟨-, rfl⟩ := applyRemoteVerifiedNoProjection_ok_iff.mp outcome
    rcases mem_cons.mp member with same | inRest
    · cases same
      refine .inl (applyBatch_contains (contains_iff.mpr ?_))
      exact mem_map_of_mem (self_mem_put _ _)
    · refine (ih inRest).imp_right (Exists.imp fun _ => imp_right fun refused passes => ?_)
      exact (refused passes).imp fun _ => imp_left Meanwhile.stored
  | case4 graph head rest other outcome applied ih =>
    rcases mem_cons.mp member with same | inRest
    · cases same
      exact .inr ⟨other, .head _, fun _ => ⟨_, .start, outcome⟩⟩
    · refine (ih inRest).imp_right (Exists.imp fun _ => And.imp (.tail _) fun refused passes => ?_)
      exact (refused passes).imp fun _ => imp_left Meanwhile.marked

/-- A permitted node with a good signature ends up stored or without a parent. -/
theorem applyBatch_fate (member : (node, true) ∈ slots) (permitted : graph.Permitted node) :
    (graph.applyBatch slots).1.nodes.contains node.id = true ∨
      ∃ error, error.isMissingParent = true ∧ (node.id, error) ∈ (graph.applyBatch slots).2.2 := by
  rcases applyBatch_slot member with stored | ⟨error, rejected, refused⟩
  · exact .inl stored
  · obtain ⟨here, between, failed⟩ := refused rfl
    rcases applyRemoteVerifiedNoProjection_error failed with ⟨missing, -⟩ | ⟨-, known⟩
    · exact .inr ⟨error, missing, rejected⟩
    · refine .inl (between.kept _ (known ?_))
      unfold Permitted
      rwa [between.policy]

end

end StateGraph

/-- The passes of `import_nodes` and `ImportPack`. -/
def importPasses (crypto : Crypto) (nowMs : Option Nat) (graph : StateGraph)
    (pending : List SyncNode) : Import :=
  if pending.isEmpty then ⟨graph, [], [], []⟩
  else
    let outcome := applyRemoteBatchChecked crypto graph (passBatch pending) nowMs
    let still := stillPending pending outcome.2.rejected
    let rejected := outcome.2.rejected.filter fun entry => !entry.2.isMissingParent
    if still.length = pending.length then ⟨outcome.1, outcome.2.accepted, rejected, still⟩
    else
      let rest := importPasses crypto nowMs outcome.1 (still.map Prod.fst)
      ⟨rest.graph, outcome.2.accepted ++ rest.accepted, rejected ++ rest.rejected, rest.unresolved⟩
termination_by pending.length
decreasing_by
  have fates : outcome.2.accepted.length + outcome.2.rejected.length ≤ (passBatch pending).length :=
    length_applyRemoteBatchChecked crypto graph (passBatch pending) nowMs
  have taken : still.length ≤ outcome.2.rejected.length := length_stillPending _ _
  have once := length_passBatch pending
  rw [length_map]
  change still.length < pending.length
  omega

/-- `import_nodes` under the write lock of the graph. -/
def importNodes (crypto : Crypto) (nowMs : Nat) (graph : StateGraph) (nodes : List SyncNode) : Import :=
  importPasses crypto (some nowMs) graph nodes

/-- What `import_nodes` reports to its caller. -/
inductive ImportIssue where
  | rejected (error : SyncError)
  | missingParent (unresolved : Nat)

def Import.errors (result : Import) : List ImportIssue :=
  (result.rejected.filterMap fun entry =>
      if entry.2.isDuplicateNode then none else some (.rejected entry.2)) ++
    if result.unresolved.isEmpty then [] else [.missingParent result.unresolved.length]

/-- The `ImportPack` command of the host engine on the graph of its room. -/
def hostImportPack (crypto : Crypto) (graph : StateGraph) (nodes : List SyncNode) :
    StateGraph × BatchResult :=
  let result := importPasses crypto none graph nodes
  (result.graph, ⟨result.accepted,
    result.rejected ++ result.unresolved.map fun entry => (entry.1.id, entry.2)⟩)

/-- What every batch keeps, the passes keep. -/
theorem importPasses_invariant {crypto : Crypto} {nowMs : Option Nat} {graph : StateGraph}
    {accepted : List NodeId} {Inv : StateGraph → List NodeId → Prop}
    (batch : ∀ graph accepted nodes, Inv graph accepted →
      Inv (applyRemoteBatchChecked crypto graph nodes nowMs).1
        (accepted ++ (applyRemoteBatchChecked crypto graph nodes nowMs).2.accepted))
    (pending : List SyncNode) (start : Inv graph accepted) :
    Inv (importPasses crypto nowMs graph pending).graph
      (accepted ++ (importPasses crypto nowMs graph pending).accepted) := by
  fun_induction importPasses crypto nowMs graph pending generalizing accepted with
  | case1 graph pending empty => rwa [append_nil]
  | case2 graph pending nonempty outcome => exact batch graph accepted _ start
  | case3 graph pending nonempty outcome =>
    rename_i ih
    rw [← append_assoc]
    exact ih (batch graph accepted _ start)

/-- Clocks, content hash, signature and policy are in order, judged by the graph. -/
structure Cleared (crypto : Crypto) (nowMs : Option Nat) (graph : StateGraph) (node : SyncNode) :
    Prop where
  screened : Screened crypto graph nowMs node
  permitted : graph.Permitted node

/-- The last copy of its id in the list, and cleared. -/
structure Eligible (crypto : Crypto) (nowMs : Option Nat) (graph : StateGraph)
    (pending : List SyncNode) (node : SyncNode) : Prop where
  last : lastCopy pending node.id = some node
  cleared : Cleared crypto nowMs graph node

/-- Ids that are stored, or can be placed on stored ones with eligible nodes. -/
abbrev Placed (crypto : Crypto) (nowMs : Option Nat) (graph : StateGraph) (pending : List SyncNode) :
    NodeId → Prop :=
  Grounded SyncNode.id SyncNode.parents (fun id => graph.nodes.contains id = true)
    (Eligible crypto nowMs graph pending)

/-- The nodes that a pass leaves for the next one. -/
def leftOver (crypto : Crypto) (nowMs : Option Nat) (graph : StateGraph) (pending : List SyncNode) :
    List SyncNode :=
  (stillPending pending (applyRemoteBatchChecked crypto graph (passBatch pending)
    nowMs).2.rejected).map Prod.fst

section
variable {crypto : Crypto} {graph : StateGraph} {id : NodeId}

theorem Cleared.mono {after : StateGraph} (cleared : Cleared crypto nowMs graph node)
    (clock : graph.lamport ≤ after.lamport) (verified : graph.verifiedIds ⊆ after.verifiedIds)
    (policy : after.policy = graph.policy) : Cleared crypto nowMs after node := by
  obtain ⟨hashed, ceiling, wall⟩ := precheck_ok_iff.mp cleared.screened.prechecked
  refine ⟨⟨precheck_ok_iff.mpr ⟨hashed, ceiling.trans (saturatingAdd_mono clock _), wall⟩, ?_⟩, ?_⟩
  · have passes := checkSignature_ok_iff.mp cleared.screened.signed
    refine checkSignature_ok_iff.mpr ?_
    simp only [signaturePasses, Bool.or_eq_true, decide_eq_true_eq] at passes ⊢
    exact passes.imp_left (.imp_left fun known => verified known)
  · unfold Permitted
    rw [policy]
    exact cleared.permitted

theorem applyBatch_verifiedIds (graph : StateGraph) (slots : List (SyncNode × Bool)) :
    graph.verifiedIds ⊆ (graph.applyBatch slots).1.verifiedIds := by
  fun_induction applyBatch graph slots with
  | case1 graph => exact Finset.Subset.refl _
  | case2 => assumption
  | case3 graph head rest inserted outcome =>
    rename_i ih
    obtain ⟨-, rfl⟩ := applyRemoteVerifiedNoProjection_ok_iff.mp outcome
    exact (Finset.subset_insert _ _).trans ih
  | case4 graph head rest other outcome =>
    rename_i ih
    exact (Finset.subset_insert _ _).trans ih

/-- A batch only adds to the store, the clock and the verified ids. -/
theorem batch_grows (crypto : Crypto) (nowMs : Option Nat) (graph : StateGraph)
    (nodes : List SyncNode) :
    graph.lamport ≤ (applyRemoteBatchChecked crypto graph nodes nowMs).1.lamport ∧
      graph.verifiedIds ⊆ (applyRemoteBatchChecked crypto graph nodes nowMs).1.verifiedIds ∧
      (applyRemoteBatchChecked crypto graph nodes nowMs).1.policy = graph.policy ∧
      ∀ id, graph.nodes.contains id = true →
        (applyRemoteBatchChecked crypto graph nodes nowMs).1.nodes.contains id = true := by
  have clock : graph.lamport ≤
      (graph.applyBatch (batchSlots crypto graph nodes nowMs)).1.lamport :=
    applyBatch_invariant (motive := fun after => graph.lamport ≤ after.lamport)
      (fun _ _ le => le) (fun _ _ _ le _ => le.trans (le_max_left _ _)) (le_refl _)
  refine ⟨clock, applyBatch_verifiedIds graph _, (applyBatch_frame graph _).1, fun id known => ?_⟩
  rw [contains_iff] at known ⊢
  rw [applyRemoteBatchChecked_data, map_append]
  exact mem_append_left _ known

section
variable (sound : crypto.BatchSound pending)
include sound

/-- What a pass leaves over is new, passed its checks and lacked a parent. -/
theorem mem_leftOver (member : node ∈ leftOver crypto nowMs graph pending) :
    lastCopy pending node.id = some node ∧ Screened crypto graph nowMs node ∧
      graph.nodes.contains node.id = false ∧
      ∃ parent ∈ node.parents, graph.nodes.contains parent = false := by
  obtain ⟨⟨copy, error⟩, kept, rfl⟩ := mem_map.mp member
  obtain ⟨⟨id, other⟩, rejected, found⟩ := mem_filterMap.mp kept
  split at found
  · rename_i missing
    obtain ⟨one, last, same⟩ := Option.map_eq_some_iff.mp found
    cases same
    rcases mem_append.mp rejected with screened | applied
    · obtain ⟨copy, -, -, -, failed⟩ := exists_of_screenBatch_rejected screened
      cases missing.symm.trans (precheck_error failed).1
    · obtain ⟨slotted, inSlots, sameId, lacks⟩ := applyBatch_missing applied missing
      change (slotted, true) ∈ batchSlots crypto graph (passBatch pending) nowMs at inSlots
      rw [batchSlots_eq (sound.mono passBatch_subset)] at inSlots
      obtain ⟨entry, inScreen, pair⟩ := mem_map.mp inSlots
      obtain ⟨rfl, passes⟩ := Prod.mk.inj pair
      obtain ⟨inBatch, -, fresh, prechecked⟩ := mem_screenBatch inScreen
      have again := mem_passBatch.mp inBatch
      rw [sameId, last] at again
      cases again
      exact ⟨sameId ▸ last, ⟨prechecked, checkSignature_ok_iff.mpr passes⟩, fresh, lacks⟩
  · cases found

theorem leftOver_subset : leftOver crypto nowMs graph pending ⊆ pending :=
  fun _ member => (mem_of_lastCopy (mem_leftOver sound member).1).1

theorem lastCopy_leftOver (member : node ∈ leftOver crypto nowMs graph pending) :
    lastCopy (leftOver crypto nowMs graph pending) node.id = some node := by
  obtain ⟨copy, found⟩ := exists_lastCopy (mem_map_of_mem member)
  obtain ⟨inside, same⟩ := mem_of_lastCopy found
  have one := (mem_leftOver sound member).1
  have two := (mem_leftOver sound inside).1
  rw [same, one] at two
  rw [found, two]

/-- An eligible node is stored by the pass or left over. -/
theorem Eligible.stored_or_left (eligible : Eligible crypto nowMs graph pending node) :
    (applyRemoteBatchChecked crypto graph (passBatch pending) nowMs).1.nodes.contains node.id = true ∨
      node ∈ leftOver crypto nowMs graph pending := by
  obtain ⟨last, ⟨prechecked, signed⟩, permitted⟩ := eligible
  cases stored : graph.nodes.contains node.id with
  | true => exact .inl ((batch_grows crypto nowMs graph (passBatch pending)).2.2.2 _ stored)
  | false =>
    have screened : node ∈ (screenBatch crypto graph nowMs ∅ (passBatch pending)).1 :=
      mem_screenBatch_of_nodup (passBatch_nodup pending) (mem_passBatch.mpr last)
        (Finset.notMem_empty _) stored prechecked
    have slot : (node, true) ∈ batchSlots crypto graph (passBatch pending) nowMs := by
      rw [batchSlots_eq (sound.mono passBatch_subset)]
      exact mem_map.mpr ⟨node, screened, by rw [checkSignature_ok_iff.mp signed]⟩
    rcases applyBatch_fate slot permitted with known | ⟨error, missing, rejected⟩
    · exact .inl known
    · refine .inr (mem_map.mpr ⟨(node, error), mem_filterMap.mpr
        ⟨(node.id, error), mem_append_right _ rejected, ?_⟩, rfl⟩)
      simp [missing, last]

/-- Whatever a pass stores can be placed. -/
theorem placed_of_pass
    (stored : (applyRemoteBatchChecked crypto graph (passBatch pending) nowMs).1.nodes.contains id
      = true) : Placed crypto nowMs graph pending id := by
  have applied : ∀ id, (graph.applyBatch (batchSlots crypto graph (passBatch pending)
      nowMs)).1.nodes.contains id = true → Placed crypto nowMs graph pending id := by
    refine (applyBatch_invariant (motive := fun after => after.policy = graph.policy ∧
      ∀ id, after.nodes.contains id = true → Placed crypto nowMs graph pending id)
      (fun _ _ held => held) ?_ ⟨rfl, fun id known => .known known⟩).2
    rintro after node member ⟨policy, held⟩ admissible
    refine ⟨policy, fun id known => ?_⟩
    rw [batchSlots_eq (sound.mono passBatch_subset)] at member
    obtain ⟨entry, inScreen, pair⟩ := mem_map.mp member
    obtain ⟨rfl, passes⟩ := Prod.mk.inj pair
    obtain ⟨inBatch, -, -, prechecked⟩ := mem_screenBatch inScreen
    have permitted : graph.Permitted entry := by
      have allowed := admissible.permitted
      unfold Permitted at allowed ⊢
      rwa [policy] at allowed
    rw [contains_iff] at known
    obtain ⟨other, inStore, rfl⟩ := mem_map.mp known
    rcases @mem_store entry after.core true other inStore with before | rfl
    · exact held _ (contains_iff.mpr (mem_map_of_mem before))
    · exact .placed ⟨mem_passBatch.mp inBatch,
        ⟨prechecked, checkSignature_ok_iff.mpr passes⟩, permitted⟩
        fun parent edge => held parent (admissible.parents parent edge)
  exact applied id stored

end

theorem length_leftOver (crypto : Crypto) (nowMs : Option Nat) (graph : StateGraph)
    (pending : List SyncNode) :
    (batchAccepted crypto graph (passBatch pending) nowMs).length +
      (leftOver crypto nowMs graph pending).length ≤ pending.length := by
  have fates := length_applyRemoteBatchChecked crypto graph (passBatch pending) nowMs
  have taken := length_stillPending pending
    (applyRemoteBatchChecked crypto graph (passBatch pending) nowMs).2.rejected
  have once := length_passBatch pending
  rw [applyRemoteBatchChecked_accepted, length_map] at fates
  rw [leftOver, length_map]
  omega

/-- One pass leaves the ids that can be placed as they are. -/
theorem placed_leftOver (sound : crypto.BatchSound pending) :
    Placed crypto nowMs (applyRemoteBatchChecked crypto graph (passBatch pending) nowMs).1
        (leftOver crypto nowMs graph pending) id ↔ Placed crypto nowMs graph pending id := by
  obtain ⟨clock, verified, policy, stored⟩ := batch_grows crypto nowMs graph (passBatch pending)
  constructor
  · intro placed
    refine placed.mem_of_closed (fun id known => placed_of_pass sound known) ?_
    intro node eligible parents
    obtain ⟨last, screened, -⟩ := mem_leftOver sound (mem_of_lastCopy eligible.last).1
    have permitted : graph.Permitted node := by
      have allowed := eligible.cleared.permitted
      unfold Permitted at allowed ⊢
      rwa [policy] at allowed
    exact .placed ⟨last, screened, permitted⟩ parents
  · intro placed
    refine placed.mem_of_closed (fun id known => .known (stored id known)) ?_
    intro node eligible parents
    rcases eligible.stored_or_left sound with known | left
    · exact .known known
    · exact .placed ⟨lastCopy_leftOver sound left, eligible.cleared.mono clock verified policy⟩ parents

/-- A pass that leaves everything over stores nothing. -/
theorem contains_of_stalled
    (stalled : (leftOver crypto nowMs graph pending).length = pending.length) :
    (applyRemoteBatchChecked crypto graph (passBatch pending) nowMs).1.nodes.contains id =
      graph.nodes.contains id := by
  have nothing : batchAccepted crypto graph (passBatch pending) nowMs = [] := by
    have fates := length_leftOver crypto nowMs graph pending
    exact eq_nil_of_length_eq_zero (by omega)
  rw [Bool.eq_iff_iff, contains_iff, contains_iff,
    applyRemoteBatchChecked_data, nothing, append_nil]

/-- Nothing can be placed that such a pass did not store. -/
theorem placed_of_stalled (sound : crypto.BatchSound pending)
    (stalled : (leftOver crypto nowMs graph pending).length = pending.length)
    (placed : Placed crypto nowMs graph pending id) :
    (applyRemoteBatchChecked crypto graph (passBatch pending) nowMs).1.nodes.contains id = true := by
  refine placed.mem_of_closed
    (fun id known => (batch_grows crypto nowMs graph (passBatch pending)).2.2.2 id known) ?_
  intro node eligible parents
  rcases eligible.stored_or_left sound with known | left
  · exact known
  · obtain ⟨-, -, -, parent, edge, absent⟩ := mem_leftOver sound left
    have present := parents parent edge
    rw [contains_of_stalled stalled, absent] at present
    cases present

/-- The passes store exactly what can be placed, judged by the graph they start from. -/
theorem importPasses_contains_iff (sound : crypto.BatchSound pending) :
    (importPasses crypto nowMs graph pending).graph.nodes.contains id = true ↔
      Placed crypto nowMs graph pending id := by
  fun_induction importPasses crypto nowMs graph pending with
  | case1 graph pending empty =>
    refine ⟨fun known => .known known, fun placed => ?_⟩
    refine placed.mem_of_closed (fun _ known => known) fun node eligible _ => ?_
    have none := eligible.last
    rw [List.isEmpty_iff.mp empty] at none
    cases none
  | case2 graph pending nonempty outcome still rejected stalled =>
    exact ⟨placed_of_pass sound, placed_of_stalled sound (by rwa [leftOver, length_map])⟩
  | case3 graph pending nonempty outcome still rejected progress rest ih =>
    exact (ih (sound.mono (leftOver_subset sound))).trans (placed_leftOver sound)

end

end NodalMerge
