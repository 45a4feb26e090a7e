import NodalMerge.Crdt.Admission
import NodalMerge.Crdt.Views

namespace NodalMerge

open Bool Finset LastWriter List MemoryNodeStore

/-- Last-writer-wins over a list of nodes, the first of equal priorities ahead. -/
def lwwResolve (nodes : List SyncNode) (key : String) : Option (List U8) :=
  (winner MapWinner.priority (nodes.flatMap (mapWrites key))).bind MapWinner.value

namespace StateGraph

/-- The node is not a local one, or was received back. -/
def isCanonical (locals echoed : Finset NodeId) (node : SyncNode) : Bool :=
  !decide (node.id ∈ locals) || decide (node.id ∈ echoed)

/-- Stored nodes, except local ones that were never received back. -/
def canonicalNodes (graph : StateGraph) (echoed : Finset NodeId) : List SyncNode :=
  graph.nodes.data.filter (isCanonical graph.localNodeIds echoed)

section
variable {graph : StateGraph}

/-- The nodes a call hands to the remote ingest. -/
def Call.delivered : Call crypto graph → List SyncNode
  | .applyRemote node _ => [node]
  | .applyRemoteBatch nodes _ => nodes
  | _ => []

/-- The node is a stored local one. -/
def isLocal (graph : StateGraph) (node : SyncNode) : Bool :=
  decide (node ∈ graph.nodes.data) && decide (node.id ∈ graph.localNodeIds)

/-- Ids of the local nodes that the call hands back. -/
def Call.echoes (call : Call crypto graph) : Finset NodeId :=
  ((call.delivered.filter graph.isLocal).map SyncNode.id).toFinset

end

/-- Runs that also record which local nodes were received back. -/
inductive EchoRun (crypto : Crypto) (Allowed : ∀ graph : StateGraph, Call crypto graph → Prop) :
    StateGraph → Finset NodeId → Prop where
  | start : EchoRun crypto Allowed .empty ∅
  | call {graph : StateGraph} {echoed : Finset NodeId} {after : StateGraph}
      {call : Call crypto graph} (run : EchoRun crypto Allowed graph echoed)
      (allowed : Allowed graph call) (ran : call.run = some after) :
      EchoRun crypto Allowed after (echoed ∪ call.echoes)

variable {graph : StateGraph}

theorem EchoRun.remote (run : EchoRun crypto Allowed graph echoed) (node : SyncNode)
    (nowMs : Option Nat) (allowed : Allowed graph (.applyRemote node nowMs)) :
    EchoRun crypto Allowed (applyRemoteChecked crypto graph node nowMs).1
      (echoed ∪ (Call.applyRemote node nowMs : Call crypto graph).echoes) :=
  .call run allowed rfl

/-- Every map write of the node already loses against a canonical one. -/
def Superseded (graph : StateGraph) (node : SyncNode) : Prop :=
  ∀ op : MapOp, .map op ∈ node.transaction.ops →
    ∃ current, graph.stateCaches.mapCanonical.lookup op.key = some current ∧
      node.transaction.priority < current.priority

def Call.EchoesSuperseded {crypto : Crypto} (graph : StateGraph) (call : Call crypto graph) :
    Prop :=
  ∀ node ∈ call.delivered, graph.isLocal node = true → graph.Superseded node

/-- The canonical winners are those of a scan over the canonical nodes. -/
structure CanonicalView (graph : StateGraph) (echoed : Finset NodeId) : Prop where
  view : ∀ key, graph.stateCaches.mapCanonical.lookup key =
    winner MapWinner.priority ((graph.canonicalNodes echoed).flatMap (mapWrites key))
  nodup : (graph.nodes.data.map SyncNode.id).Nodup
  locals : ∀ id ∈ graph.localNodeIds, graph.nodes.contains id = true
  echoes : ∀ id ∈ echoed, graph.nodes.contains id = true

namespace CanonicalView

theorem empty : CanonicalView .empty ∅ where
  view _ := rfl
  nodup := .nil
  locals := by simp [StateGraph.empty]
  echoes := by simp

section
variable (view : CanonicalView graph echoed)
include view

theorem store (fresh : graph.nodes.contains node.id = false) :
    CanonicalView (graph.store node true) echoed := by
  have remote : node.id ∉ graph.localNodeIds := by
    intro known
    rw [view.locals _ known] at fresh
    cases fresh
  have nodes : (graph.store node true).canonicalNodes echoed =
      graph.canonicalNodes echoed ++ [node] := by
    change (graph.nodes.put node).data.filter (isCanonical graph.localNodeIds echoed) = _
    rw [put_fresh fresh, filter_append]
    congr 1
    simp [isCanonical, remote]
  refine ⟨?_, put_nodup view.nodup fresh,
    fun id known => contains_put (view.locals id known) node,
    fun id known => contains_put (view.echoes id known) node⟩
  intro key
  rw [nodes, flatMap_append, winner_append, ← view.view key, flatMap_singleton]
  exact graph.stateCaches.updateStateCaches_mapCanonical node key

/-- A local write is stored but stays out of the canonical scan. -/
theorem commit (ops : List Op) (fresh : graph.nodes.contains node.id = false) :
    CanonicalView (graph.commitLocal ops node) echoed := by
  have absent := contains_eq_false.mp fresh
  have unechoed : node.id ∉ echoed := by
    intro known
    rw [view.echoes _ known] at fresh
    cases fresh
  have nodes : (graph.commitLocal ops node).canonicalNodes echoed =
      graph.canonicalNodes echoed := by
    have others : ∀ other ∈ graph.nodes.data,
        isCanonical (insert node.id graph.localNodeIds) echoed other =
          isCanonical graph.localNodeIds echoed other := by
      intro other member
      have different : other.id ≠ node.id :=
        fun same => absent (mem_map.mpr ⟨other, member, same⟩)
      simp [isCanonical, different]
    change (graph.nodes.put node).data.filter
      (isCanonical (insert node.id graph.localNodeIds) echoed) = _
    rw [put_fresh fresh, filter_append, filter_congr others]
    simp [isCanonical, unechoed, canonicalNodes]
  refine ⟨?_, put_nodup view.nodup fresh, ?_,
    fun id known => contains_put (view.echoes id known) node⟩
  · intro key
    rw [nodes, ← view.view key]
    exact congrArg (·.lookup key)
      (graph.stateCaches.updateStateCaches_mapCanonical_local node)
  · intro id known
    rcases mem_insert.mp known with rfl | earlier
    · exact contains_iff.mpr
        (mem_map.mpr ⟨node, graph.nodes.self_mem_put node, rfl⟩)
    · exact contains_put (view.locals id earlier) node

/-- Counting superseded local nodes in leaves the winners as they are. -/
theorem echo (superseded : ∀ node ∈ graph.nodes.data, node.id ∈ extra → graph.Superseded node)
    (known : ∀ id ∈ extra, graph.nodes.contains id = true) :
    CanonicalView graph (echoed ∪ extra) := by
  refine ⟨?_, view.nodup, view.locals, ?_⟩
  · intro key
    have wider : ∀ node, isCanonical graph.localNodeIds echoed node = true →
        isCanonical graph.localNodeIds (echoed ∪ extra) node = true := by
      intro node before
      simp only [isCanonical, or_eq_true, decide_eq_true_eq, mem_union] at before ⊢
      exact before.imp_right .inl
    have late : ∀ node ∈ graph.nodes.data,
        isCanonical graph.localNodeIds echoed node = false →
        isCanonical graph.localNodeIds (echoed ∪ extra) node = true →
        ∀ write ∈ mapWrites key node, ∃ current,
          graph.stateCaches.mapCanonical.lookup key = some current ∧
            write.priority < current.priority := by
      intro node member before after write written
      have inExtra : node.id ∈ extra := by
        simp only [isCanonical, or_eq_false_iff, not_eq_false', decide_eq_true_eq,
          decide_eq_false_iff_not] at before
        simpa [isCanonical, before.1, before.2] using after
      obtain ⟨op, inOps, rfl⟩ := mapWrites_op written
      rw [mapWrites_priority written]
      exact superseded node member inExtra op inOps
    cases found : graph.stateCaches.mapCanonical.lookup key with
    | none =>
      symm
      rw [winner_eq_none_iff, flatMap_eq_nil_iff]
      have nothing := winner_eq_none_iff.mp ((view.view key).symm.trans found)
      intro node member
      obtain ⟨stored, after⟩ := mem_filter.mp member
      cases before : isCanonical graph.localNodeIds echoed node with
      | true => exact flatMap_eq_nil_iff.mp nothing node (mem_filter.mpr ⟨stored, before⟩)
      | false =>
        apply eq_nil_iff_forall_not_mem.mpr
        intro write written
        obtain ⟨current, present, _⟩ := late node stored before after write written
        rw [found] at present
        cases present
    | some current =>
      symm
      have before := (view.view key).symm.trans found
      refine winner_filter_lower [] wider before ?_
      intro node stored before after write written
      obtain ⟨other, present, lower⟩ := late node stored before after write written
      rw [found] at present
      cases present
      exact lower
  · intro id member
    rcases mem_union.mp member with earlier | new
    · exact view.echoes id earlier
    · exact known id new

end

end CanonicalView

theorem echoes_known {call : Call crypto graph} {id : NodeId} (member : id ∈ call.echoes) :
    ∃ node ∈ call.delivered, graph.isLocal node = true ∧ node ∈ graph.nodes.data ∧ node.id = id := by
  obtain ⟨node, inEchoes, same⟩ := mem_map.mp (mem_toFinset.mp member)
  obtain ⟨delivered, isLocal⟩ := mem_filter.mp inEchoes
  have stored := isLocal
  simp only [StateGraph.isLocal, and_eq_true, decide_eq_true_eq] at stored
  exact ⟨node, delivered, isLocal, stored.1, same⟩

/-- Echoes of superseded nodes are counted without moving a winner. -/
theorem CanonicalView.echoed {echoed : Finset NodeId}
    {call : Call crypto graph} (view : CanonicalView graph echoed)
    (superseded : call.EchoesSuperseded) : CanonicalView graph (echoed ∪ call.echoes) := by
  apply view.echo
  · intro node member inEchoes
    obtain ⟨copy, delivered, isLocal, stored, same⟩ := echoes_known inEchoes
    obtain rfl : copy = node := inj_on_of_nodup_map view.nodup stored member same
    exact superseded copy delivered isLocal
  · intro id inEchoes
    obtain ⟨node, _, _, stored, same⟩ := echoes_known inEchoes
    exact contains_iff.mpr (mem_map.mpr ⟨node, stored, same⟩)

theorem CanonicalView.run {after : StateGraph} {echoed : Finset NodeId} {call : Call crypto graph}
    (view : CanonicalView graph echoed) (ran : call.run = some after) :
    CanonicalView after echoed := by
  cases call with
  | applyLocal signingKey wallMs ops parents =>
    obtain ⟨outcome, wrote, rfl⟩ := Option.map_eq_some_iff.mp ran
    obtain ⟨_, ⟨_, rfl⟩ | ⟨fresh, rfl⟩⟩ := applyLocal_cases wrote
    · exact ⟨view.view, view.nodup, view.locals, view.echoes⟩
    · exact view.commit ops fresh
  | applyRemote node nowMs =>
    cases ran
    rcases applyRemoteChecked_cases crypto graph node nowMs with
      ⟨_, admissible, same⟩ | ⟨ids, _, _, same⟩
    · have admitted := view.store admissible.fresh
      rw [same]
      exact ⟨admitted.view, admitted.nodup, admitted.locals, admitted.echoes⟩
    · rw [same]
      exact ⟨view.view, view.nodup, view.locals, view.echoes⟩
  | applyRemoteBatch nodes nowMs =>
    cases ran
    have applied : CanonicalView (graph.applyBatch (batchSlots crypto graph nodes nowMs)).1 echoed := by
      apply applyBatch_invariant (motive := fun after => CanonicalView after echoed)
      · intro graph ids view
        exact ⟨view.view, view.nodup, view.locals, view.echoes⟩
      · intro graph node _ view admissible
        exact view.store admissible.fresh
      · exact view
    exact ⟨applied.view, applied.nodup, applied.locals, applied.echoes⟩
  | setPolicy policy =>
    cases ran
    exact ⟨view.view, view.nodup, view.locals, view.echoes⟩
  | setLocalSigning enabled =>
    cases ran
    exact ⟨view.view, view.nodup, view.locals, view.echoes⟩

/-- As long as every echoed write is already superseded by a canonical one, the
canonical view is the last-writer-wins resolution over the stored nodes except
the local ones that were never received back. -/
theorem resolveCanonical_counts_echoes (crypto : Crypto) (graph : StateGraph)
    (echoed : Finset NodeId)
    (run : EchoRun crypto (fun _ call => call.EchoesSuperseded) graph echoed) :
    ∀ key, graph.resolveCanonical key = lwwResolve (graph.canonicalNodes echoed) key := by
  have view : CanonicalView graph echoed := by
    induction run with
    | start => exact .empty
    | call _ superseded ran ih => exact (ih.echoed superseded).run ran
  intro key
  rw [resolveCanonical, view.view key]
  rfl

/-- A later write of another author under the same key. -/
def rivalNode : SyncNode :=
  .new Crypto.sample ⟨.padTo 32 [2], 2, 0, [.map (.set "k" [9])], [sampleNode.id]⟩

/-- The first write, at the graph of its author. -/
def sampleWritten : StateGraph := empty.commitLocal sampleOps sampleNode

def sampleWrite : Call Crypto.sample .empty :=
  .applyLocal (Crypto.sampleKey 1) 0 sampleOps noLeaves

theorem sampleWrite_run : sampleWrite.run = some sampleWritten :=
  Call.run_commit (by decide) (by decide)

def sampleRivaled : StateGraph := (applyRemote Crypto.sample sampleWritten rivalNode).1

theorem sampleNode_superseded : sampleRivaled.Superseded sampleNode := by
  intro op member
  obtain rfl : op = .set "k" [7] := by simpa [sampleNode, localNode, empty, sampleOps,
    SyncNode.newSigned, localTransaction] using member
  exact ⟨⟨2, .padTo 32 [2], some [9], false⟩, by decide, by decide⟩

theorem superseded_echo_counted :
    ∃ graph echoed, EchoRun Crypto.sample (fun _ call => call.EchoesSuperseded) graph echoed ∧
      sampleNode.id ∈ echoed ∧
      graph.resolveCanonical "k" = lwwResolve (graph.canonicalNodes echoed) "k" := by
  have written : EchoRun Crypto.sample (fun _ call => call.EchoesSuperseded) sampleWritten
      (∅ ∪ sampleWrite.echoes) :=
    .call .start (fun node delivered => by simp [sampleWrite, Call.delivered] at delivered)
      sampleWrite_run
  have rivaled := written.remote rivalNode none fun node delivered isLocal => by
    obtain rfl : node = rivalNode := by simpa [Call.delivered] using delivered
    exact absurd isLocal (by decide)
  have run := rivaled.remote sampleNode none fun node delivered _ => by
    obtain rfl : node = sampleNode := by simpa [Call.delivered] using delivered
    exact sampleNode_superseded
  exact ⟨_, _, run, by decide, resolveCanonical_counts_echoes _ _ _ run "k"⟩

/-- A local write that comes back is turned away as a duplicate and never
enters the canonical view. -/
theorem echo_not_canonical :
    ∃ graph echoed, EchoRun Crypto.sample (fun _ _ => True) graph echoed ∧
      sampleNode.id ∈ echoed ∧ graph.resolveCanonical "k" = none ∧
      lwwResolve (graph.canonicalNodes echoed) "k" = some [7] := by
  have written : EchoRun Crypto.sample (fun _ _ => True) sampleWritten (∅ ∪ sampleWrite.echoes) :=
    .call .start trivial sampleWrite_run
  exact ⟨_, _, written.remote sampleNode none trivial, by decide, by decide, by decide⟩

end StateGraph

end NodalMerge
