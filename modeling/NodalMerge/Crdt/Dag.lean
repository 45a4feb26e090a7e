import NodalMerge.Crdt.Admission
import NodalMerge.Library.LinkedLog

namespace NodalMerge

open LinkedLog List MemoryNodeStore
open StateGraph (core)

theorem mem_foldl_filter_ne {heads parents : List NodeId} {id : NodeId} :
    id ∈ parents.foldl (fun heads parent => heads.filter (fun head => head ≠ parent)) heads ↔
      id ∈ heads ∧ id ∉ parents := by
  induction parents generalizing heads with
  | nil => simp
  | cons parent rest ih =>
    rw [foldl_cons, ih]
    simp [and_assoc]

theorem foldl_filter_ne_nodup {heads : List NodeId} (nodup : heads.Nodup) (parents : List NodeId) :
    (parents.foldl (fun heads parent => heads.filter (fun head => head ≠ parent)) heads).Nodup := by
  induction parents generalizing heads with
  | nil => exact nodup
  | cons parent rest ih => exact ih (nodup.filter _)

namespace Frontier

theorem mem_advance {frontier : Frontier} {id : NodeId} :
    id ∈ (frontier.advance node).heads ↔
      id = node.id ∨ (id ∈ frontier.heads ∧ id ∉ node.parents) := by
  simp only [advance, mem_insertionSort]
  split
  · rename_i known
    rw [mem_foldl_filter_ne] at known ⊢
    constructor
    · exact .inr
    · rintro (rfl | kept)
      · exact known
      · exact kept
  · rw [mem_append, mem_foldl_filter_ne, mem_singleton, or_comm]

/-- Advancing keeps the heads sorted and free of duplicates. -/
theorem advance_sorted {frontier : Frontier} (sorted : frontier.heads.Pairwise (· < ·)) :
    (frontier.advance node).heads.Pairwise (· < ·) := by
  have nodup : frontier.heads.Nodup := sorted.imp fun less => less.ne
  have kept := foldl_filter_ne_nodup nodup node.parents
  have distinct : (frontier.advance node).heads.Nodup := by
    refine (perm_insertionSort _ _).nodup_iff.mpr ?_
    split
    · exact kept
    · rename_i absent
      rw [← concat_eq_append]
      exact kept.concat absent
  have ordered : (frontier.advance node).heads.Pairwise (· ≤ ·) :=
    pairwise_insertionSort (· ≤ ·) _
  exact (ordered.and distinct).imp fun ⟨le, ne⟩ => lt_of_le_of_ne le ne

end Frontier

namespace Core

/-- Store, leaves, frontier and clock are in step. -/
structure Dag (crypto : Crypto) (core : Core) : Prop where
  linked : Linked SyncNode.id SyncNode.parents core.nodes.data
  leaves : ∀ id, id ∈ core.leaves ↔ IsTip SyncNode.id SyncNode.parents core.nodes.data id
  heads : ∀ id, id ∈ core.frontier.heads ↔ id ∈ core.leaves
  sorted : core.frontier.heads.Pairwise (· < ·)
  clock : ∀ node ∈ core.nodes.data, node.lamport ≤ core.lamport
  bounded : core.lamport ≤ u64Max
  hashed : ∀ node ∈ core.nodes.data, crypto.txHash node.transaction = node.id

variable {core after : Core}

theorem Dag.empty : StateGraph.empty.core.Dag crypto where
  linked := .nil
  leaves := by simp [StateGraph.empty, core, MemoryNodeStore.empty, IsTip]
  heads := by simp [StateGraph.empty, core]
  sorted := .nil
  clock := by simp [StateGraph.empty, core, MemoryNodeStore.empty]
  bounded := Nat.zero_le _
  hashed := by simp [StateGraph.empty, core, MemoryNodeStore.empty]

theorem Dag.store {node : SyncNode} {canonical : Bool} (dag : core.Dag crypto)
    (parents : ∀ parent ∈ node.parents, core.nodes.contains parent = true)
    (fresh : core.nodes.contains node.id = false)
    (hashed : crypto.txHash node.transaction = node.id) (bounded : node.lamport ≤ u64Max) :
    (core.store node canonical).Dag crypto := by
  have stored : (core.nodes.put node).data = core.nodes.data ++ [node] :=
    put_fresh fresh
  have absent := contains_eq_false.mp fresh
  have known : ∀ parent ∈ node.parents, parent ∈ core.nodes.data.map SyncNode.id :=
    fun parent edge => contains_iff.mp (parents parent edge)
  constructor
  · rw [Core.store, stored]
    exact dag.linked.append absent known
  · intro id
    simp only [Core.store, stored, dag.linked.isTip_append absent known, Finset.mem_insert,
      Finset.mem_sdiff, mem_toFinset, dag.leaves]
  · intro id
    simp only [Core.store, Frontier.mem_advance, dag.heads, Finset.mem_insert, Finset.mem_sdiff,
      mem_toFinset]
  · exact Frontier.advance_sorted dag.sorted
  · intro other member
    simp only [Core.store, stored, mem_append, mem_singleton] at member ⊢
    rcases member with earlier | rfl
    · exact (dag.clock other earlier).trans (le_max_left ..)
    · exact le_max_right ..
  · exact max_le dag.bounded bounded
  · intro other member
    simp only [Core.store, stored, mem_append, mem_singleton] at member
    rcases member with earlier | rfl
    · exact dag.hashed other earlier
    · exact hashed

theorem Dag.step (dag : core.Dag crypto) (step : Step crypto core after) : after.Dag crypto := by
  cases step with
  | advance forward bounded =>
    exact ⟨dag.linked, dag.leaves, dag.heads, dag.sorted,
      fun node member => (dag.clock node member).trans forward, bounded, dag.hashed⟩
  | store parents fresh hashed bounded => exact dag.store parents fresh hashed bounded

/-- Nothing is ever removed from the store. -/
theorem Steps.stored (steps : Steps crypto core after) (member : node ∈ core.nodes.data) :
    node ∈ after.nodes.data := by
  induction steps with
  | refl => exact member
  | tail _ last ih =>
    cases last with
    | advance forward bounded => exact ih
    | store parents fresh hashed bounded =>
      rw [Core.store, put_fresh fresh]
      exact mem_append_left _ ih

theorem Steps.lamport_le (steps : Steps crypto core after) : core.lamport ≤ after.lamport := by
  induction steps with
  | refl => exact le_refl _
  | tail _ step ih =>
    cases step with
    | advance forward bounded => exact ih.trans forward
    | store parents fresh hashed bounded => exact ih.trans (Nat.le_max_left _ _)

theorem Dag.steps (dag : core.Dag crypto) (steps : Steps crypto core after) :
    after.Dag crypto := by
  induction steps with
  | refl => exact dag
  | tail _ last ih => exact ih.step last

end Core

namespace StateGraph

variable {graph after : StateGraph}

theorem applyRemoteChecked_steps (crypto : Crypto) (graph : StateGraph) (node : SyncNode)
    (nowMs : Option Nat) :
    Core.Steps crypto graph.core (applyRemoteChecked crypto graph node nowMs).1.core := by
  rcases applyRemoteChecked_cases crypto graph node nowMs with
    ⟨screened, admissible, same⟩ | ⟨ids, error, _, same⟩
  · rw [same]
    exact .single (.store admissible.parents admissible.fresh
      (precheck_ok_iff.mp screened.prechecked).1 (precheck_bounded screened.prechecked))
  · rw [same]
    exact .refl

theorem applyBatch_steps
    (prechecked : ∀ slot ∈ slots, crypto.txHash slot.1.transaction = slot.1.id ∧
      slot.1.lamport ≤ u64Max) : Core.Steps crypto graph.core (graph.applyBatch slots).1.core := by
  apply applyBatch_invariant (motive := fun after => Core.Steps crypto graph.core after.core)
  · intro after ids steps
    exact steps
  · intro after node slot steps admissible
    obtain ⟨hashed, bounded⟩ := prechecked _ slot
    exact steps.tail (.store admissible.parents admissible.fresh hashed bounded)
  · exact .refl

section

theorem reserve_forward (room : graph.lamport + 1 ≤ u64Max) :
    graph.lamport + 1 ≤ (graph.reserve ops).lamport := by
  simp only [reserve, saturatingAdd]
  omega

theorem localNode_parents_stored (dag : graph.core.Dag crypto) :
    ∀ parent ∈ (localNode crypto graph signingKey wallMs ops parents).parents,
      graph.nodes.contains parent = true := by
  intro parent edge
  rw [SyncNode.parents, localNode_transaction] at edge
  have leaf : parent ∈ graph.leaves := by
    rw [← parents.covers]
    exact mem_toFinset.mpr edge
  exact contains_iff.mpr ((dag.leaves parent).mp leaf).1

theorem reserve_steps (room : graph.lamport + 1 ≤ u64Max) :
    Core.Steps crypto graph.core (graph.reserve ops).core :=
  .single (.advance (le_trans (Nat.le_succ _) (reserve_forward room)) (saturatingAdd_le ..))

end

/-- Whatever the call, the core changes by elementary steps only. -/
theorem Call.run_steps {call : Call crypto graph} (dag : graph.core.Dag crypto)
    (ran : call.run = some after) : Core.Steps crypto graph.core after.core := by
  cases call with
  | applyLocal signingKey wallMs ops parents =>
    obtain ⟨outcome, wrote, rfl⟩ := Option.map_eq_some_iff.mp ran
    obtain ⟨room, ⟨_, rfl⟩ | ⟨fresh, rfl⟩⟩ := applyLocal_cases wrote
    · exact reserve_steps room
    · refine (reserve_steps room).tail (.store (localNode_parents_stored dag) fresh ?_ ?_)
      · rw [localNode_transaction, localNode_id]
      · rw [SyncNode.lamport, localNode_transaction]
        exact room
  | applyRemote node nowMs =>
    cases ran
    exact applyRemoteChecked_steps crypto graph node nowMs
  | applyRemoteBatch nodes nowMs =>
    cases ran
    apply applyBatch_steps
    intro slot member
    obtain ⟨_, _, _, passed⟩ := mem_screenBatch (of_mem_zip member).1
    exact ⟨(precheck_ok_iff.mp passed).1, precheck_bounded passed⟩
  | setPolicy policy =>
    cases ran
    exact .refl
  | setLocalSigning enabled =>
    cases ran
    exact .refl

theorem Reachable.dag (reached : Reachable crypto Allowed graph) : graph.core.Dag crypto := by
  induction reached with
  | start => exact .empty
  | call _ _ ran ih => exact ih.steps (Call.run_steps ih ran)

/-- Store, leaves, frontier, clock and all materialised views are as before. -/
structure Unchanged (before after : StateGraph) : Prop where
  nodes : after.nodes = before.nodes
  leaves : after.leaves = before.leaves
  frontier : after.frontier = before.frontier
  lamport : after.lamport = before.lamport
  stateCaches : after.stateCaches = before.stateCaches
  textProjections : after.textProjections = before.textProjections
  textProjectionMode : after.textProjectionMode = before.textProjectionMode

theorem applyRemoteChecked_rejected
    (rejected : (applyRemoteChecked crypto graph node nowMs).2 = .error error) :
    Unchanged graph (applyRemoteChecked crypto graph node nowMs).1 := by
  rcases applyRemoteChecked_cases crypto graph node nowMs with
    ⟨_, _, same⟩ | ⟨ids, _, _, same⟩
  · rw [same] at rejected
    cases rejected
  · rw [same]
    exact ⟨rfl, rfl, rfl, rfl, rfl, rfl, rfl⟩

theorem applyRemoteBatchChecked_rejected {nodes : List SyncNode}
    (rejected : (applyRemoteBatchChecked crypto graph nodes nowMs).2.accepted = []) :
    Unchanged graph (applyRemoteBatchChecked crypto graph nodes nowMs).1 := by
  have nothing : batchAccepted crypto graph nodes nowMs = [] := map_eq_nil_iff.mp rejected
  have core := applyRemoteBatchChecked_core crypto graph nodes nowMs
  have projections := applyRemoteBatchChecked_textProjections crypto graph nodes nowMs
  rw [nothing] at core projections
  exact ⟨congrArg Core.nodes core, congrArg Core.leaves core, congrArg Core.frontier core,
    congrArg Core.lamport core, congrArg Core.stateCaches core, projections,
    (applyBatch_frame graph (batchSlots crypto graph nodes nowMs)).2.2.1⟩

def transactions (graph : StateGraph) : Set Transaction :=
  { tx | ∃ node ∈ graph.nodes.data, node.transaction = tx }

/-- A local write has a larger clock than every stored node, so only a hash
collision could make it a duplicate. -/
theorem localNode_fresh (dag : graph.core.Dag crypto) (collisionFree : crypto.CollisionFree
      (insert (localTransaction crypto graph signingKey wallMs ops parents) graph.transactions)) :
    graph.nodes.contains (localNode crypto graph signingKey wallMs ops parents).id = false := by
  rw [contains_eq_false]
  intro stored
  obtain ⟨node, member, same⟩ := mem_map.mp stored
  have hashes : crypto.txHash node.transaction =
      crypto.txHash (localTransaction crypto graph signingKey wallMs ops parents) := by
    rw [dag.hashed node member, same, localNode_id]
  have equal := collisionFree (.inr ⟨node, member, rfl⟩) (.inl rfl) hashes
  have older : node.transaction.lamport ≤ graph.lamport := dag.clock node member
  rw [equal, localTransaction] at older
  exact Nat.not_succ_le_self _ older

theorem flatMap_val_injective :
    Function.Injective fun ids : List NodeId => ids.flatMap Subtype.val := by
  intro first second same
  induction first generalizing second with
  | nil =>
    cases second with
    | nil => rfl
    | cons head rest =>
      have lengths := congrArg List.length same
      simp [head.property] at lengths
      omega
  | cons id ids ih =>
    cases second with
    | nil =>
      have lengths := congrArg List.length same
      simp [id.property] at lengths
    | cons head rest =>
      obtain ⟨heads, tails⟩ := append_inj same (by rw [id.property, head.property])
      rw [Subtype.ext heads, ih tails]

/-- The stored nodes without their signatures, which no hash covers. -/
def nodeSet (graph : StateGraph) : Finset (NodeId × Transaction) :=
  (graph.nodes.data.map fun node => (node.id, node.transaction)).toFinset

theorem ids_subset_of_leaves {other : StateGraph} (dag : graph.core.Dag crypto)
    (otherDag : other.core.Dag crypto)
    (collisionFree : crypto.CollisionFree (graph.transactions ∪ other.transactions))
    (leaves : graph.leaves = other.leaves) : graph.nodeSet ⊆ other.nodeSet := by
  have same : ∀ one ∈ graph.nodes.data, ∀ two ∈ other.nodes.data, one.id = two.id →
      one.transaction = two.transaction := by
    intro one member two present ids
    refine collisionFree (.inl ⟨one, member, rfl⟩) (.inr ⟨two, present, rfl⟩) ?_
    rw [dag.hashed one member, otherDag.hashed two present, ids]
  have agree : Agree SyncNode.id SyncNode.parents graph.nodes.data other.nodes.data :=
    fun one member two present ids => congrArg Transaction.parents (same one member two present ids)
  have tips : ∀ tip, IsTip SyncNode.id SyncNode.parents graph.nodes.data tip →
      tip ∈ other.nodes.data.map SyncNode.id := by
    intro tip isTip
    have leaf : tip ∈ other.leaves := leaves ▸ (dag.leaves tip).mpr isTip
    exact ((otherDag.leaves tip).mp leaf).1
  intro entry member
  obtain ⟨node, stored, rfl⟩ := mem_map.mp (mem_toFinset.mp member)
  have known := dag.linked.subset_of_tips otherDag.linked agree tips node.id
    (mem_map.mpr ⟨node, stored, rfl⟩)
  obtain ⟨copy, present, ids⟩ := mem_map.mp known
  refine mem_toFinset.mpr (mem_map.mpr ⟨copy, present, ?_⟩)
  simp only [ids, same node stored copy present ids.symm]

/-- The DAG invariant of every reachable graph, what a rejected call leaves
alone, and what the Merkle root determines. -/
theorem reachable_dag_invariant (crypto : Crypto) (graph : StateGraph)
    (reached : Reachable crypto (fun _ _ => True) graph) :
    (∀ node ∈ graph.nodes.data, ∀ parent ∈ node.parents,
      graph.nodes.contains parent = true) ∧
    (∀ id, id ∈ graph.leaves ↔ graph.nodes.contains id = true ∧
      ∀ node ∈ graph.nodes.data, id ∉ node.parents) ∧
    graph.frontier.heads = graph.leaves.sort ∧
    (∀ node ∈ graph.nodes.data, node.transaction.lamport ≤ graph.lamport) ∧
    (∀ node nowMs error, (applyRemoteChecked crypto graph node nowMs).2 = .error error →
      Unchanged graph (applyRemoteChecked crypto graph node nowMs).1) ∧
    (∀ nodes nowMs, (applyRemoteBatchChecked crypto graph nodes nowMs).2.accepted = [] →
      Unchanged graph (applyRemoteBatchChecked crypto graph nodes nowMs).1) ∧
    (∀ signingKey wallMs ops parents after error,
      crypto.CollisionFree (insert (localTransaction crypto graph signingKey wallMs ops parents)
        graph.transactions) →
      applyLocal crypto graph signingKey wallMs ops parents ≠ some (after, .error error)) ∧
    (∀ other, Reachable crypto (fun _ _ => True) other →
      crypto.CollisionFree (graph.transactions ∪ other.transactions) →
      Set.InjOn crypto.blake3
        {graph.leaves.sort.flatMap Subtype.val, other.leaves.sort.flatMap Subtype.val} →
      merkleRoot crypto graph = merkleRoot crypto other → graph.nodeSet = other.nodeSet) := by
  have dag := reached.dag
  refine ⟨?_, ?_, ?_, dag.clock, ?_, ?_, ?_, ?_⟩
  · intro node member parent edge
    exact contains_iff.mpr (dag.linked.closed member edge)
  · intro id
    rw [contains_iff]
    exact dag.leaves id
  · have elements : graph.frontier.heads.toFinset = graph.leaves := by
      ext id
      rw [mem_toFinset]
      exact dag.heads id
    have nodup : graph.frontier.heads.Nodup := dag.sorted.imp fun less => less.ne
    rw [← elements]
    exact ((toFinset_sort (· ≤ ·) nodup).mpr (dag.sorted.imp fun less => less.le)).symm
  · exact fun node nowMs error => applyRemoteChecked_rejected
  · exact fun nodes nowMs => applyRemoteBatchChecked_rejected
  · intro signingKey wallMs ops parents after error collisionFree outcome
    obtain ⟨_, ⟨stored, _⟩ | ⟨_, committed⟩⟩ := applyLocal_cases outcome
    · rw [localNode_fresh dag collisionFree] at stored
      cases stored
    · cases committed
  · intro other otherReached collisionFree rootsFree roots
    have preimages := rootsFree (.inl rfl) (.inr rfl) roots
    have sorted := flatMap_val_injective preimages
    have leaves : graph.leaves = other.leaves := by
      simpa using congrArg toFinset sorted
    have swapped : crypto.CollisionFree (other.transactions ∪ graph.transactions) := by
      rwa [Set.union_comm]
    exact (ids_subset_of_leaves dag otherReached.dag collisionFree leaves).antisymm
      (ids_subset_of_leaves otherReached.dag dag swapped leaves.symm)

theorem sampleReader_reachable :
    Reachable Crypto.sample (fun _ _ => True) (empty.accept sampleNode) :=
  .receive .start trivial sampleNode_screened sampleNode_admissible

theorem sample_transactions (only : graph.nodes.data = [sampleNode]) :
    graph.transactions = {sampleNode.transaction} := by
  ext tx
  simp [transactions, only, eq_comm]

theorem sample_replicas_nodeSet :
    (empty.commitLocal sampleOps sampleNode).nodeSet = (empty.accept sampleNode).nodeSet := by
  have written : Reachable Crypto.sample (fun _ _ => True)
      (empty.commitLocal sampleOps sampleNode) :=
    .commit .start trivial (by decide) (by decide)
  refine (reachable_dag_invariant _ _ written).2.2.2.2.2.2.2 _ sampleReader_reachable ?_ ?_ rfl
  · rw [sample_transactions rfl, sample_transactions rfl, Set.union_self]
    exact Set.injOn_singleton ..
  · intro _ first _ second _
    rcases first with rfl | rfl <;> rcases second with rfl | rfl <;> rfl

end StateGraph

end NodalMerge
