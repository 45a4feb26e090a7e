import NodalMerge.Server.Import

/-! Blobs and lineage are left out. -/

namespace NodalMerge

open LinkedLog List StateGraph

/-- `INSERT OR IGNORE`: the first row of a node id stays. -/
def persistNode (rows : List SyncNode) (node : SyncNode) : List SyncNode :=
  if rows.any fun row => row.id = node.id then rows else rows ++ [node]

def persistNodes (rows : List SyncNode) (nodes : List SyncNode) : List SyncNode :=
  nodes.foldl persistNode rows

/-- The part of a room that outlives a lock: its graph and its persisted nodes. -/
structure DurableRoom where
  graph : StateGraph
  rows : List SyncNode

/-- The nodes that an import accepts, read back from the graph. -/
def importedNodes (crypto : Crypto) (nowMs : Nat) (graph : StateGraph) (nodes : List SyncNode) :
    List SyncNode :=
  let result := importNodes crypto nowMs graph nodes
  result.accepted.filterMap result.graph.nodes.get

namespace DurableRoom

def new : DurableRoom := ⟨.empty, []⟩

/-- `import_nodes`: the accepted nodes are persisted before the lock is released. -/
def importNodes (crypto : Crypto) (room : DurableRoom) (nowMs : Nat) (nodes : List SyncNode) :
    DurableRoom where
  graph := (NodalMerge.importNodes crypto nowMs room.graph nodes).graph
  rows := persistNodes room.rows (importedNodes crypto nowMs room.graph nodes)

/-- A history of imports, each with the wall clock it saw. -/
def importAll (crypto : Crypto) (room : DurableRoom) (calls : List (Nat × List SyncNode)) :
    DurableRoom :=
  calls.foldl (fun room call => room.importNodes crypto call.1 call.2) room

end DurableRoom

/-- The hydration that `get_or_create` starts for a room it creates: one batch
without a wall clock; rejected nodes are only counted. -/
def hydrate (crypto : Crypto) (graph : StateGraph) (rows : List SyncNode) : StateGraph × BatchResult :=
  if rows.isEmpty then (graph, ⟨[], []⟩) else applyRemoteBatch crypto graph rows

section
variable {crypto : Crypto}

/-- The passes append the accepted nodes to the store. -/
theorem importPasses_data (crypto : Crypto) (nowMs : Option Nat) (graph : StateGraph)
    (pending : List SyncNode) :
    ∃ added, (importPasses crypto nowMs graph pending).graph.nodes.data = graph.nodes.data ++ added ∧
      (importPasses crypto nowMs graph pending).accepted = added.map SyncNode.id := by
  let Appended (after : StateGraph) (accepted : List NodeId) : Prop :=
    ∃ added, after.nodes.data = graph.nodes.data ++ added ∧ accepted = added.map SyncNode.id
  have batch : ∀ before accepted nodes, Appended before accepted →
      Appended (applyRemoteBatchChecked crypto before nodes nowMs).1
        (accepted ++ (applyRemoteBatchChecked crypto before nodes nowMs).2.accepted) := by
    rintro before accepted nodes ⟨added, data, rfl⟩
    refine ⟨added ++ batchAccepted crypto before nodes nowMs, ?_, ?_⟩
    · rw [applyRemoteBatchChecked_data, data, append_assoc]
    · rw [applyRemoteBatchChecked_accepted, map_append]
  exact importPasses_invariant batch pending ⟨[], (append_nil _).symm, rfl⟩

theorem importPasses_reachable
    (allowed : ∀ graph nodes, Allowed graph (.applyRemoteBatch nodes nowMs))
    (pending : List SyncNode) (reached : Reachable crypto Allowed graph) :
    Reachable crypto Allowed (importPasses crypto nowMs graph pending).graph :=
  @importPasses_invariant crypto nowMs graph [] (fun after _ => Reachable crypto Allowed after)
    (fun before _ nodes held => held.remoteBatch nodes nowMs (allowed before nodes)) pending reached

theorem importPasses_policy (pending : List SyncNode) :
    (importPasses crypto nowMs graph pending).graph.policy = graph.policy :=
  @importPasses_invariant crypto nowMs graph [] (fun after _ => after.policy = graph.policy)
    (fun before _ nodes held => (batch_grows crypto nowMs before nodes).2.2.1.trans held) pending rfl

/-- The graph takes the added nodes and nothing else that a reader could see. -/
structure StateGraph.GrowsBy (crypto : Crypto) (before after : StateGraph) (added : List SyncNode) :
    Prop where
  reached : Reachable crypto (fun _ _ => True) before → Reachable crypto (fun _ _ => True) after
  data : Reachable crypto (fun _ _ => True) before →
    after.nodes.data = before.nodes.data ++ added
  policy : after.policy = before.policy

theorem importNodes_reachable (nowMs : Nat) (nodes : List SyncNode)
    (reached : Reachable crypto (fun _ _ => True) graph) :
    Reachable crypto (fun _ _ => True) (importNodes crypto nowMs graph nodes).graph :=
  importPasses_reachable (fun _ _ => trivial) nodes reached

theorem importNodes_data (nowMs : Nat) (nodes : List SyncNode)
    (reached : Reachable crypto (fun _ _ => True) graph) :
    (importNodes crypto nowMs graph nodes).graph.nodes.data =
      graph.nodes.data ++ importedNodes crypto nowMs graph nodes := by
  have nodup := (importNodes_reachable nowMs nodes reached).dag.linked.nodup
  obtain ⟨added, data, accepted⟩ := importPasses_data crypto (some nowMs) graph nodes
  have taken : importedNodes crypto nowMs graph nodes = added := by
    rw [importedNodes, importNodes, accepted, filterMap_map]
    refine (filterMap_congr fun node member => ?_).trans filterMap_some
    exact MemoryNodeStore.get_of_mem nodup (data ▸ mem_append_right _ member)
  rw [taken]
  exact data

theorem importNodes_grows (nowMs : Nat) (graph : StateGraph) (nodes : List SyncNode) :
    GrowsBy crypto graph (importNodes crypto nowMs graph nodes).graph
      (importedNodes crypto nowMs graph nodes) :=
  ⟨importNodes_reachable nowMs nodes, importNodes_data nowMs nodes, importPasses_policy nodes⟩

/-- New ids are appended, whatever the rows are. -/
theorem persistNodes_fresh {added : List SyncNode} (nodup : ((rows ++ added).map SyncNode.id).Nodup) :
    persistNodes rows added = rows ++ added := by
  induction added generalizing rows with
  | nil => exact (append_nil _).symm
  | cons head rest ih =>
    rw [append_cons] at nodup ⊢
    have fresh : (rows.any fun row => row.id = head.id) = false := by
      rw [append_assoc, map_append, nodup_append] at nodup
      rw [any_eq_false]
      intro row member same
      exact nodup.2.2 row.id (mem_map_of_mem member) head.id (by simp)
        (by simpa using same)
    have stored : persistNode rows head = rows ++ [head] := by
      simp [persistNode, fresh]
    rw [persistNodes, foldl_cons, stored]
    exact ih nodup

end

/-- The rows are the nodes of a reachable graph under the default policy. -/
structure DurableRoom.InStep (crypto : Crypto) (room : DurableRoom) : Prop where
  reached : Reachable crypto (fun _ _ => True) room.graph
  rows : room.rows = room.graph.nodes.data
  policy : room.graph.policy = .default

namespace DurableRoom

variable {room : DurableRoom}

theorem InStep.new : InStep crypto .new := ⟨.start, rfl, rfl⟩

theorem InStep.importNodes (inStep : room.InStep crypto) (nowMs : Nat) (nodes : List SyncNode) :
    (room.importNodes crypto nowMs nodes).InStep crypto := by
  have reached := importNodes_reachable nowMs nodes inStep.reached
  have data := importNodes_data nowMs nodes inStep.reached
  refine ⟨reached, ?_, (importPasses_policy nodes).trans inStep.policy⟩
  rw [DurableRoom.importNodes, inStep.rows, data]
  exact persistNodes_fresh (data ▸ reached.dag.linked.nodup)

theorem InStep.importAll (inStep : room.InStep crypto) (calls : List (Nat × List SyncNode)) :
    (room.importAll crypto calls).InStep crypto := by
  induction calls generalizing room with
  | nil => exact inStep
  | cons call rest ih => exact ih (inStep.importNodes call.1 call.2)

end DurableRoom

section
/-- Slots that passed their checks are all applied when parents come first. -/
theorem applyBatch_linked {graph : StateGraph} {nodes : List SyncNode}
    (linked : Linked SyncNode.id SyncNode.parents (graph.nodes.data ++ nodes))
    (permitted : ∀ node ∈ nodes, graph.Permitted node) :
    (graph.applyBatch (nodes.map fun node => (node, true))).2.1 = nodes := by
  induction nodes generalizing graph with
  | nil => rfl
  | cons head rest ih =>
    obtain ⟨fresh, known⟩ := linked.entry
    have admissible : graph.Admissible head :=
      ⟨fun parent edge => MemoryNodeStore.contains_iff.mpr (known parent edge),
        permitted head (mem_cons_self), MemoryNodeStore.contains_eq_false.mpr fresh⟩
    rw [map_cons]
    rcases applyBatch_cons graph (head, true) (rest.map fun node => (node, true)) with
      ⟨-, -, -, accepted⟩ | ⟨refused, -⟩
    · have stored : ((graph.markVerified head.id).store head true).nodes.data =
          graph.nodes.data ++ [head] := MemoryNodeStore.put_fresh admissible.fresh
      rw [accepted, ih]
      · rw [stored, append_assoc]
        exact linked
      · exact fun node member => permitted node (mem_cons_of_mem _ member)
    · exact (refused rfl admissible).elim

theorem ceiling_empty : saturatingAdd empty.lamport lamportSlack = lamportSlack := by
  simp [saturatingAdd, empty, lamportSlack, u64Max]

/-- A node that an empty graph takes once its parents are there. -/
structure Rehydrates (crypto : Crypto) (node : SyncNode) : Prop where
  ceiling : node.lamport ≤ lamportSlack
  genuine : node.Genuine crypto

theorem Rehydrates.screened (hashed : crypto.txHash node.transaction = node.id)
    (good : Rehydrates crypto node) :
    precheck crypto empty.lamport none node = .ok () ∧ signaturePasses crypto empty node = true := by
  refine ⟨precheck_ok_iff.mpr ⟨hashed, good.ceiling.trans_eq ceiling_empty.symm, by simp⟩, ?_⟩
  rw [signaturePasses, Bool.or_assoc, Bool.or_eq_true, Bool.or_eq_true]
  exact .inr good.genuine

theorem Rehydrates.of_screened (prechecked : precheck crypto empty.lamport none node = .ok ())
    (passes : signaturePasses crypto empty node = true) : Rehydrates crypto node := by
  refine ⟨(precheck_ok_iff.mp prechecked).2.1.trans_eq ceiling_empty, ?_⟩
  simpa [signaturePasses, empty, SyncNode.Genuine] using passes

end

/-- A room created anew takes every row and shows what the dropped one showed. -/
structure HydratesFaithfully (crypto : Crypto) (room : DurableRoom) : Prop where
  accepts : ∀ node ∈ room.rows, node.id ∈ (hydrate crypto .empty room.rows).2.accepted
  nodes : ∀ node, node ∈ (hydrate crypto .empty room.rows).1.nodes.data ↔
    node ∈ room.graph.nodes.data
  root : merkleRoot crypto (hydrate crypto .empty room.rows).1 = merkleRoot crypto room.graph
  resolve : ∀ key, (hydrate crypto .empty room.rows).1.resolve key = room.graph.resolve key

section
/-- Two graphs with the same store show the same leaves and map values. -/
theorem same_of_data (reached : Reachable crypto Allowed graph)
    (otherReached : Reachable crypto Allowed other) (data : graph.nodes.data = other.nodes.data) :
    merkleRoot crypto graph = merkleRoot crypto other ∧
      ∀ key, graph.resolve key = other.resolve key := by
  have leaves : graph.leaves = other.leaves := by
    ext id
    refine (reached.dag.leaves id).trans (Iff.trans ?_ (otherReached.dag.leaves id).symm)
    exact iff_of_eq (congrArg (IsTip SyncNode.id SyncNode.parents · id) data)
  refine ⟨by rw [merkleRoot, merkleRoot, leaves], fun key => ?_⟩
  rw [reached.resolve_eq, otherReached.resolve_eq, data]

end

section
/-- What the hydration of a graph adds was loaded. -/
theorem hydrate_grows (graph : StateGraph) (loaded : List SyncNode) :
    GrowsBy crypto graph (hydrate crypto graph loaded).1
      (batchAccepted crypto graph loaded none) := by
  cases loaded with
  | nil => exact ⟨id, fun _ => (append_nil _).symm, rfl⟩
  | cons head rest =>
    refine ⟨fun reached => reached.remoteBatch _ none trivial, fun _ => ?_, ?_⟩
    · exact applyRemoteBatchChecked_data crypto graph (head :: rest) none
    · exact (batch_grows crypto none graph (head :: rest)).2.2.1

theorem hydrate_accepted (graph : StateGraph) (loaded : List SyncNode) :
    (hydrate crypto graph loaded).2.accepted =
      (batchAccepted crypto graph loaded none).map SyncNode.id := by
  cases loaded with
  | nil => rfl
  | cons head rest => exact applyRemoteBatchChecked_accepted crypto graph (head :: rest) none

end

/-- After any history of imports, hydration is faithful exactly while every
persisted node is within the slack of an empty clock and carries a signature that
stands on its own. -/
theorem hydration_faithful_iff (crypto : Crypto) (calls : List (Nat × List SyncNode))
    (sound : crypto.BatchSound (DurableRoom.new.importAll crypto calls).rows) :
    HydratesFaithfully crypto (DurableRoom.new.importAll crypto calls) ↔
      ∀ node ∈ (DurableRoom.new.importAll crypto calls).rows, Rehydrates crypto node := by
  have inStep : (DurableRoom.new.importAll crypto calls).InStep crypto :=
    DurableRoom.InStep.new.importAll calls
  generalize DurableRoom.new.importAll crypto calls = room at inStep sound ⊢
  have linked : Linked SyncNode.id SyncNode.parents room.rows :=
    inStep.rows ▸ inStep.reached.dag.linked
  have hashed : ∀ node ∈ room.rows, crypto.txHash node.transaction = node.id :=
    fun node member => inStep.reached.dag.hashed node (inStep.rows ▸ member)
  have grows : GrowsBy crypto .empty (hydrate crypto .empty room.rows).1
      (batchAccepted crypto .empty room.rows none) := hydrate_grows .empty room.rows
  have data : (hydrate crypto .empty room.rows).1.nodes.data =
      batchAccepted crypto .empty room.rows none := grows.data .start
  have accepted : (hydrate crypto .empty room.rows).2.accepted =
      (batchAccepted crypto .empty room.rows none).map SyncNode.id := hydrate_accepted .empty room.rows
  constructor
  · intro faithful node member
    have taken := faithful.accepts node member
    rw [accepted] at taken
    obtain ⟨copy, inBatch, same⟩ := mem_map.mp taken
    obtain ⟨inRows, -, prechecked, -, slot⟩ := mem_batchAccepted inBatch
    obtain rfl := inj_on_of_nodup_map linked.nodup inRows member same
    exact .of_screened prechecked (mem_batchSlots sound slot)
  · intro good
    have all : batchAccepted crypto .empty room.rows none = room.rows := by
      rw [batchAccepted, batchSlots_all sound linked.nodup (fun _ _ => rfl) fun node member =>
        (good node member).screened (hashed node member)]
      exact applyBatch_linked linked fun node _ => .inr fun op _ => rfl
    rw [all] at data accepted
    obtain ⟨root, resolve⟩ := same_of_data (grows.reached .start) inStep.reached
      (data.trans inStep.rows)
    refine ⟨fun node member => ?_, fun node => ?_, root, resolve⟩
    · rw [accepted]
      exact mem_map_of_mem member
    · rw [data, inStep.rows]

theorem written_and_answered_room_hydrates :
    HydratesFaithfully Crypto.sample
      (DurableRoom.new.importAll Crypto.sample [(0, [sampleNode]), (0, [replyNode])]) := by
  refine (hydration_faithful_iff Crypto.sample _ (Crypto.sample_batchSound _)).mpr ?_
  have rows : (DurableRoom.new.importAll Crypto.sample
      [(0, [sampleNode]), (0, [replyNode])]).rows = [sampleNode, replyNode] := by
    decide +kernel
  rw [rows]
  intro node member
  rcases mem_pair.mp member with rfl | rfl
  · exact ⟨by decide, by decide⟩
  · exact ⟨by decide, by decide⟩

/-- Two imports, each within the slack of the clock it met. -/
theorem late_write_lost_by_hydration :
    farNode ∈ (DurableRoom.new.importAll Crypto.sample [(0, [nearNode]), (0, [farNode])]).rows ∧
      ¬ HydratesFaithfully Crypto.sample
        (DurableRoom.new.importAll Crypto.sample [(0, [nearNode]), (0, [farNode])]) := by
  have rows : (DurableRoom.new.importAll Crypto.sample [(0, [nearNode]), (0, [farNode])]).rows =
      [nearNode, farNode] := by
    decide +kernel
  rw [rows]
  refine ⟨by simp, fun faithful => ?_⟩
  have taken := faithful.accepts farNode (by simp [rows])
  rw [rows] at taken
  exact absurd taken (by decide)

end NodalMerge
