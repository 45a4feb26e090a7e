import NodalMerge.Server.Room

namespace NodalMerge

open LinkedLog List Machine MemoryNodeStore StateGraph

/-- The frontier that a snapshot node records. -/
def recordedFrontier (crypto : Crypto) (postcard : Postcard) (snapshot : SyncNode) : List NodeId :=
  match verifySnapshot crypto postcard snapshot with
  | .ok content => content.frontier
  | .error _ => []

section
variable {crypto : Crypto} {graph : StateGraph} {id : NodeId}

section
variable (signs : crypto.SignVerifies)
include signs

theorem mem_recordedFrontier (reached : Reachable crypto (fun _ _ => True) graph) :
    id ∈ recordedFrontier crypto postcard (graph.snapshotNode crypto postcard serverKey none []) ↔
      IsTip SyncNode.id SyncNode.parents graph.nodes.data id := by
  rw [recordedFrontier, verifySnapshot_snapshotNode signs]
  apply (mem_insertionSort _).trans
  exact (reached.dag.heads id).trans (reached.dag.leaves id)

/-- Below the recorded frontier lies exactly what the graph held. -/
theorem below_recordedFrontier_iff (reached : Reachable crypto (fun _ _ => True) graph)
    (known : ∀ node ∈ graph.nodes.data, node ∈ history)
    (hashed : ∀ node ∈ history, crypto.txHash node.transaction = node.id)
    (collisionFree : crypto.CollisionFree { tx | ∃ node ∈ history, node.transaction = tx }) :
    (∃ head ∈ recordedFrontier crypto postcard (graph.snapshotNode crypto postcard serverKey none []),
        Reaches SyncNode.id SyncNode.parents history head id) ↔
      graph.nodes.contains id = true := by
  rw [contains_iff]
  constructor
  · rintro ⟨head, isHead, path⟩
    have agree : Agree SyncNode.id SyncNode.parents history graph.nodes.data := by
      intro one inHistory two stored same
      refine congrArg Transaction.parents (collisionFree ⟨one, inHistory, rfl⟩
        ⟨two, known two stored, rfl⟩ ?_)
      rw [hashed one inHistory, hashed two (known two stored), same]
    exact path.mem_of_agree agree reached.dag.linked
      ((mem_recordedFrontier signs reached).mp isHead).1
  · intro stored
    obtain ⟨tip, isTip, path⟩ := reached.dag.linked.reached_from_tip stored
    exact ⟨tip, (mem_recordedFrontier signs reached).mpr isTip, path.mono known⟩

end

end

namespace RoomState

/-- At an install, an accepted node is still stored or lies below the frontier of
the snapshot. This holds exactly when the graph that the compaction read had every
node accepted up to the install: none came in between, and none had been dropped
by an earlier compaction. -/
theorem install_keeps_accepted_iff (crypto : Crypto) (signs : crypto.SignVerifies)
    (postcard : Postcard) (serverKey : crypto.SigningKey) (rows : List SyncNode)
    (actions : List RoomAction) (state after : RoomState) (task : Nat) (read rebuilt : StateGraph)
    (snapshot : SyncNode)
    (ran : exec (perform crypto postcard serverKey) (hydrated crypto rows) actions = some state)
    (prepared : state.tasks task = .compacting read snapshot rebuilt)
    (installs : state.perform crypto postcard serverKey (.compactInstall task) = some after)
    (collisionFree : crypto.CollisionFree { tx | ∃ node ∈ state.history, node.transaction = tx }) :
    (∀ node ∈ state.accepted, after.graph.nodes.contains node.id = true ∨
        ∃ head ∈ recordedFrontier crypto postcard snapshot,
          Reaches SyncNode.id SyncNode.parents state.history head node.id) ↔
      ∀ node ∈ state.accepted, read.nodes.contains node.id = true ∨ node.id = snapshot.id := by
  have sound := sound_of_run ran
  have held := sound.phases task
  rw [prepared] at held
  obtain ⟨reached, known, rfl, rfl, -⟩ := held
  have graph : after.graph = empty.accept (read.snapshotNode crypto postcard serverKey none []) := by
    rw [perform_compactInstall prepared] at installs
    rw [← Option.some.inj installs]
    rfl
  refine forall_congr' fun node => forall_congr' fun _ => ?_
  rw [below_recordedFrontier_iff signs reached known sound.hashed collisionFree, or_comm, graph]
  refine or_congr_right ?_
  rw [contains_iff]
  exact mem_singleton

/-- What a compaction holds between its two sections. -/
def prepared : Phase → Option (StateGraph × SyncNode × StateGraph)
  | .compacting read snapshot rebuilt => some (read, snapshot, rebuilt)
  | _ => none

theorem eq_compacting {read : StateGraph} (made : prepared phase = some (read, snapshot, rebuilt)) :
    phase = .compacting read snapshot rebuilt := by
  cases phase <;> cases made
  rfl

theorem compaction_after_import_keeps : ∃ state after read snapshot rebuilt,
    exec (perform Crypto.sample Postcard.sample (Crypto.sampleKey 1)) (hydrated Crypto.sample [])
        ([.importNodes 0 [sampleNode]] ++ [.compactRead 0 guest]) = some state ∧
      state.tasks 0 = .compacting read snapshot rebuilt ∧
      state.perform Crypto.sample Postcard.sample (Crypto.sampleKey 1) (.compactInstall 0) =
        some after ∧
      state.accepted = [sampleNode] ∧
      ∀ node ∈ state.accepted, after.graph.nodes.contains node.id = true ∨
        ∃ head ∈ recordedFrontier Crypto.sample Postcard.sample snapshot,
          Reaches SyncNode.id SyncNode.parents state.history head node.id := by
  have checked : ((exec (perform Crypto.sample Postcard.sample (Crypto.sampleKey 1))
      (hydrated Crypto.sample []) ([.importNodes 0 [sampleNode]] ++ [.compactRead 0 guest])).any
        fun state => decide (state.accepted = [sampleNode] ∧ state.history = [sampleNode]) &&
          (prepared (state.tasks 0)).any fun made => made.1.nodes.contains sampleNode.id) = true := by
    decide +kernel
  obtain ⟨state, ran, shown⟩ := (Option.any_eq_true _ _).mp checked
  obtain ⟨lists, held⟩ := (Bool.and_eq_true_iff ..).mp shown
  obtain ⟨accepted, history⟩ := of_decide_eq_true lists
  obtain ⟨⟨read, snapshot, rebuilt⟩, made, held⟩ := (Option.any_eq_true _ _).mp held
  have phase := eq_compacting made
  refine ⟨state, _, read, snapshot, rebuilt, ran, phase, perform_compactInstall phase, accepted,
    (install_keeps_accepted_iff Crypto.sample Crypto.sample_signVerifies Postcard.sample
      (Crypto.sampleKey 1) [] _ _ _ 0 _ _ _ ran phase (perform_compactInstall phase) ?_).mpr ?_⟩
  · rintro first ⟨one, inOne, rfl⟩ second ⟨two, inTwo, rfl⟩ -
    rw [history] at inOne inTwo
    rw [mem_singleton.mp inOne, mem_singleton.mp inTwo]
  · intro node member
    rw [accepted] at member
    rw [mem_singleton.mp member]
    exact .inl held

/-- A write that is accepted while a compaction is under way. -/
theorem write_lost_by_compaction : ∃ state after read snapshot rebuilt,
    exec (perform Crypto.sample Postcard.sample (Crypto.sampleKey 1)) (hydrated Crypto.sample [])
        ([.compactRead 0 guest] ++ [.importNodes 0 [sampleNode]]) = some state ∧
      state.tasks 0 = .compacting read snapshot rebuilt ∧
      state.perform Crypto.sample Postcard.sample (Crypto.sampleKey 1) (.compactInstall 0) =
        some after ∧
      sampleNode ∈ state.accepted ∧ after.graph.nodes.contains sampleNode.id = false ∧
      recordedFrontier Crypto.sample Postcard.sample snapshot = [] := by
  have checked : ((exec (perform Crypto.sample Postcard.sample (Crypto.sampleKey 1))
      (hydrated Crypto.sample []) ([.compactRead 0 guest] ++ [.importNodes 0 [sampleNode]])).any
        fun state => decide (sampleNode ∈ state.accepted) &&
          (prepared (state.tasks 0)).any fun made => decide
            (made.2.2.nodes.contains sampleNode.id = false ∧
              recordedFrontier Crypto.sample Postcard.sample made.2.1 = [])) = true := by
    decide +kernel
  obtain ⟨state, ran, shown⟩ := (Option.any_eq_true _ _).mp checked
  obtain ⟨accepted, held⟩ := (Bool.and_eq_true_iff ..).mp shown
  obtain ⟨⟨read, snapshot, rebuilt⟩, made, held⟩ := (Option.any_eq_true _ _).mp held
  have phase := eq_compacting made
  exact ⟨state, _, read, snapshot, rebuilt, ran, phase, perform_compactInstall phase,
    of_decide_eq_true accepted, of_decide_eq_true held⟩

end RoomState

end NodalMerge
