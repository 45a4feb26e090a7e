import NodalMerge.Server.Room

namespace NodalMerge

open List Machine StateGraph

/-- A room with the calls of `set_policy` that have extended the timeline and not yet
reached the graph. -/
structure TimedRoom where
  graph : StateGraph
  policyTimeline : List PolicyTimelineEntry
  pending : List Policy

inductive TimedAction where
  /-- The first section of `set_policy`. -/
  | extendTimeline (policy : Policy)
  /-- The second section of one of the calls in progress. -/
  | installPolicy (call : Nat)
  | importNodes (nowMs : Nat) (nodes : List SyncNode)

namespace TimedRoom

def new : TimedRoom := ⟨.empty, [⟨0, .default⟩], []⟩

def currentPolicyTimeline (room : TimedRoom) : List PolicyTimelineEntry := room.policyTimeline

def perform (crypto : Crypto) (room : TimedRoom) : TimedAction → Option TimedRoom
  | .extendTimeline policy => some { room with
      policyTimeline := room.policyTimeline ++ [⟨nextCutover room.policyTimeline, policy⟩]
      pending := room.pending ++ [policy] }
  | .installPolicy call => (room.pending[call]?).map fun policy => { room with
      graph := room.graph.setPolicy policy
      pending := room.pending.eraseIdx call }
  | .importNodes nowMs nodes =>
    some { room with graph := (NodalMerge.importNodes crypto nowMs room.graph nodes).graph }

end TimedRoom

section
variable {graph : StateGraph}

theorem WithinCeiling.append_all {added : List SyncNode} (within : WithinCeiling order)
    (ceiling : ∀ node ∈ added, node.lamport ≤ saturatingAdd (maxLamport order) lamportSlack) :
    WithinCeiling (order ++ added) := by
  induction added using reverseRecOn with
  | nil => rwa [append_nil]
  | append_singleton front node ih =>
    rw [← append_assoc]
    apply (ih fun other inside => ceiling other (mem_append_left _ inside)).append
    refine (ceiling node (by simp)).trans (saturatingAdd_mono ?_ lamportSlack)
    rw [maxLamport_append]
    exact le_max_left _ _

/-- The clock is that of the latest node, and every node came within the slack. -/
structure Clocked (graph : StateGraph) : Prop where
  clock : graph.lamport = maxLamport graph.nodes.data
  within : WithinCeiling graph.nodes.data

theorem Clocked.batch (clocked : Clocked graph) (nodes : List SyncNode) :
    Clocked (applyRemoteBatchChecked crypto graph nodes nowMs).1 := by
  have clock : (graph.applyBatch (batchSlots crypto graph nodes nowMs)).1.lamport =
      maxLamport (graph.applyBatch (batchSlots crypto graph nodes nowMs)).1.nodes.data := by
    apply applyBatch_invariant (motive := fun after => after.lamport = maxLamport after.nodes.data)
    · exact fun _ _ same => same
    · intro after node _ same admissible
      have stored : (after.store node true).nodes.data = after.nodes.data ++ [node] :=
        MemoryNodeStore.put_fresh admissible.fresh
      rw [stored, maxLamport_append, maxLamport_singleton, ← same]
      rfl
    · exact clocked.clock
  refine ⟨clock, ?_⟩
  rw [applyRemoteBatchChecked_data]
  apply clocked.within.append_all
  intro node inside
  obtain ⟨-, -, prechecked, -⟩ := mem_batchAccepted inside
  rw [← clocked.clock]
  exact (precheck_ok_iff.mp prechecked).2.1

theorem Clocked.importNodes (clocked : Clocked graph) (nowMs : Nat) (nodes : List SyncNode) :
    Clocked (NodalMerge.importNodes crypto nowMs graph nodes).graph :=
  @importPasses_invariant crypto (some nowMs) graph [] (fun after _ => Clocked after)
    (fun _ _ nodes clocked => clocked.batch nodes) nodes clocked

end

namespace TimedRoom

variable {room next : TimedRoom}

structure Sound (crypto : Crypto) (room : TimedRoom) : Prop where
  reached : Reachable crypto (fun _ _ => True) room.graph
  clocked : Clocked room.graph

theorem Sound.step (stepped : room.perform crypto action = some next)
    (sound : room.Sound crypto) : next.Sound crypto := by
  cases action with
  | extendTimeline policy =>
    cases stepped
    exact ⟨sound.reached, sound.clocked⟩
  | installPolicy call =>
    obtain ⟨policy, -, rfl⟩ := Option.map_eq_some_iff.mp stepped
    have reached : Reachable crypto (fun _ _ => True) (room.graph.setPolicy policy) :=
      .call sound.reached trivial (rfl : (Call.setPolicy policy).run = some _)
    exact ⟨reached, sound.clocked.clock, sound.clocked.within⟩
  | importNodes nowMs nodes =>
    cases stepped
    exact ⟨importNodes_reachable nowMs nodes sound.reached, sound.clocked.importNodes nowMs nodes⟩

theorem Sound.new : Sound crypto .new := ⟨.start, rfl, withinCeiling_of_le (by decide)⟩

theorem sound_of_run (ran : exec (perform crypto) .new actions = some room) : room.Sound crypto :=
  exec_invariant (fun _ _ _ => Sound.step) .new ran

/-- The timeline replays the accepted nodes to the map of the room. -/
def Explains (crypto : Crypto) (room : TimedRoom) : Prop :=
  ∃ replayed, replayWithPolicyTimeline crypto room.graph.nodes.data room.currentPolicyTimeline =
      .ok replayed ∧
    replayed.hash = canonicalHash crypto (room.graph.entries fun key => key != e2eeKey)

/-- The accepted nodes replay to the map of the room whenever they replay. -/
theorem Sound.explains_iff (sound : room.Sound crypto) :
    room.Explains crypto ↔ ∀ node ∈ room.graph.nodes.data,
      Replayed crypto room.policyTimeline node ∧ node.Genuine crypto := by
  have linked := sound.reached.dag.linked
  have replays := @replayRun_iff crypto room.policyTimeline _ linked
  constructor
  · intro ⟨replayed, ok, _⟩
    obtain ⟨last, ran, -⟩ := replay_ok_iff.mp ok
    exact (replays.mp ⟨last, ran⟩).1
  · intro passes
    obtain ⟨last, ran⟩ := replays.mpr ⟨passes, sound.clocked.within⟩
    have same : last.entries (fun key => key != e2eeKey) =
        room.graph.entries fun key => key != e2eeKey := by
      refine entries_eq_iff.mpr fun key => ?_
      have data : last.nodes.data = room.graph.nodes.data := ran.data_eq linked
      rw [shown, shown, ran.intake.1.reached.resolve_eq, sound.reached.resolve_eq, data]
    exact ⟨_, replay_ok_iff.mpr ⟨last, ran, rfl⟩, congrArg (canonicalHash crypto) same⟩

end TimedRoom

/-- The timeline of a room explains its history exactly when every accepted node has a
good signature of its own and is permitted by the policy that the timeline has for its
clock. -/
theorem timeline_explains_history_iff (crypto : Crypto) (actions : List TimedAction)
    (room : TimedRoom) (ran : exec (TimedRoom.perform crypto) .new actions = some room) :
    room.Explains crypto ↔ ∀ node ∈ room.graph.nodes.data, node.Genuine crypto ∧
      (StateGraph.empty.setPolicy (timelinePolicy room.policyTimeline node)).Permitted node := by
  have sound := TimedRoom.sound_of_run ran
  rw [sound.explains_iff]
  refine forall₂_congr fun node inside => ⟨fun passes => ⟨passes.2, passes.1.permitted⟩, ?_⟩
  intro passes
  exact ⟨⟨sound.reached.dag.hashed node inside, passes.2⟩, passes.1⟩

def oneWrite : List TimedAction := [.importNodes 0 [sampleNode]]

/-- The room that has imported the node. -/
def writtenRoom : TimedRoom :=
  { TimedRoom.new with
    graph := (applyRemoteBatchChecked Crypto.sample .empty [sampleNode] (some 0)).1 }

theorem writtenRoom_data : writtenRoom.graph.nodes.data = [sampleNode] := by decide

theorem exec_oneWrite : exec (TimedRoom.perform .sample) .new oneWrite = some writtenRoom := by
  have once : stillPending [sampleNode] (applyRemoteBatchChecked Crypto.sample TimedRoom.new.graph
      (passBatch [sampleNode]) (some 0)).2.rejected = [] := by
    decide
  rw [oneWrite, exec_singleton, TimedRoom.perform, NodalMerge.importNodes, importPasses,
    if_neg (by decide), if_neg (by rw [once]; decide), once, map_nil, importPasses,
    if_pos isEmpty_nil]
  rfl

def settingPolicy (policy : Policy) : List TimedAction :=
  [.extendTimeline policy, .installPolicy 0]

/-- Nobody but the author of the write may write its key. -/
def authorOnly : Policy := ⟨[⟨"k", [sampleNode.transaction.author], [], []⟩], .denyAll⟩

theorem one_write_is_explained :
    ∃ room, exec (TimedRoom.perform .sample) .new (oneWrite ++ settingPolicy authorOnly) =
        some room ∧ room.graph.nodes.data = [sampleNode] ∧ room.Explains .sample := by
  have ran : exec (TimedRoom.perform .sample) .new (oneWrite ++ settingPolicy authorOnly) =
      some _ := exec_append_iff.mpr ⟨writtenRoom, exec_oneWrite, rfl⟩
  refine ⟨_, ran, writtenRoom_data,
    (timeline_explains_history_iff .sample _ _ ran).mpr fun node inside => ?_⟩
  rw [show node = sampleNode from mem_singleton.mp inside]
  exact ⟨by decide, .inr (by decide)⟩

/-- The first policy after the default one takes effect at clock 1, which is the clock
of a node already accepted. -/
theorem later_policy_rejects_accepted_node :
    ∃ room, exec (TimedRoom.perform .sample) .new (oneWrite ++ settingPolicy .denyAll) =
        some room ∧ room.graph.nodes.data = [sampleNode] ∧ ¬ room.Explains .sample := by
  have ran : exec (TimedRoom.perform .sample) .new (oneWrite ++ settingPolicy .denyAll) =
      some _ := exec_append_iff.mpr ⟨writtenRoom, exec_oneWrite, rfl⟩
  refine ⟨_, ran, writtenRoom_data, fun explains => ?_⟩
  have passes := (TimedRoom.sound_of_run ran).explains_iff.mp explains sampleNode
    (writtenRoom_data ▸ mem_singleton_self _)
  obtain snapshot | permitted := passes.1.permitted
  · exact absurd snapshot (by decide)
  · exact absurd permitted (by decide)

end NodalMerge
