import NodalMerge.Library.Machine
import NodalMerge.Server.Hydration
import NodalMerge.Server.Session

/-! Every task that takes a lock on the graph, one critical section at a time. Broadcasts,
metrics and the parsing of messages are left out. -/

namespace NodalMerge

open LinkedLog List Machine MemoryNodeStore StateGraph

/-- Where a task stands between two critical sections. -/
inductive Phase where
  | idle
  /-- The tick function has made its writes. -/
  | ticking (ops : List Op)
  /-- The tick node is committed and not yet persisted. -/
  | ticked (id : NodeId)
  /-- `compact-room` has a rebuilt graph to install; `read` is a history
  variable, the graph that the snapshot was made from. -/
  | compacting (read : StateGraph) (snapshot : SyncNode) (rebuilt : StateGraph)
  /-- `set-policy` has entered the policy in the timeline. -/
  | settingPolicy (policy : Policy)
  /-- The graph has the policy and the answer is still to be sent. -/
  | policyWritten (policy : Policy)
  /-- Hydration has loaded the rows. -/
  | hydrating (loaded : List SyncNode)
  /-- The snapshot sweeper has made a snapshot. -/
  | sweeping (snapshot : SyncNode)
  /-- The sweeper's snapshot is in the graph and not yet persisted. -/
  | swept (snapshot : SyncNode)

structure RoomState extends DurableRoom where
  policyTimeline : List PolicyTimelineEntry
  tasks : Nat → Phase
  /-- History variable: nodes taken from packs, ticks, rows and the sweeper. -/
  accepted : List SyncNode
  /-- History variable: audit nodes of promotions. -/
  audits : List SyncNode
  /-- History variable: snapshots installed by `compact-room`. -/
  installed : List SyncNode

/-- One critical section of one task. `parents` is the order in which the leaves
happen to be iterated. -/
inductive RoomAction where
  | importNodes (nowMs : Nat) (nodes : List SyncNode)
  | tickRead (task : Nat) (intentPrefix : String)
      (tickFn : List (String × List U8) → List (String × List U8))
  | tickCommit (task : Nat) (parents : List NodeId)
  | tickPersist (task : Nat)
  | promotionCommit (session : PeerSession) (auditKey : String) (value : List U8)
      (parents : List NodeId)
  | compactRead (task : Nat) (session : PeerSession)
  | compactInstall (task : Nat)
  | policyTimeline (task : Nat) (session : PeerSession) (policy : Policy)
  | policyWrite (task : Nat)
  | policyAnswer (task : Nat)
  | hydrateLoad (task : Nat)
  | hydrateApply (task : Nat)
  | sweepRead (task : Nat) (base : Option NodeId)
  | sweepApply (task : Nat)
  | sweepPersist (task : Nat)

/-- A list as the iteration order of a set, if it is one. -/
def Enumeration.ofList? {α : Type} [DecidableEq α] (elements : Finset α) (list : List α) :
    Option (Enumeration elements) :=
  if fits : list.Nodup ∧ list.toFinset = elements then some ⟨list, fits.1, fits.2⟩ else none

/-- The cutover of the next entry of a policy timeline. -/
def nextCutover (timeline : List PolicyTimelineEntry) : Nat :=
  (timeline.getLast?.map fun entry => saturatingAdd entry.effectiveLamport 1).getD 0

section
variable (crypto : Crypto) (postcard : Postcard) (serverKey : crypto.SigningKey)

/-- `apply_local` under the key of the server, with the node it committed. -/
def commitServer (graph : StateGraph) (ops : List Op) (parents : List NodeId) :
    Option (StateGraph × Option SyncNode) :=
  (Enumeration.ofList? graph.leaves parents).bind fun order =>
    (graph.applyLocal crypto serverKey 0 ops order).map fun applied =>
      (applied.1, applied.2.toOption.bind applied.1.nodes.get)

/-- What `compact-room` does before it takes the write lock; `none` is a panic. -/
def prepareCompaction (graph : StateGraph) : Option (Except SyncError (SyncNode × StateGraph)) :=
  (graph.compact crypto postcard serverKey).map fun snapshot => do
    let _ ← verifySnapshot crypto postcard snapshot
    let rebuilt ← rebuildFromSnapshot crypto postcard snapshot []
    return (snapshot, rebuilt)

namespace RoomState

/-- A room that has taken its rows from the store. -/
def hydrated (rows : List SyncNode) : RoomState where
  graph := (hydrate crypto .empty rows).1
  rows := rows
  policyTimeline := [⟨0, .default⟩]
  tasks _ := .idle
  accepted := (hydrate crypto .empty rows).1.nodes.data
  audits := []
  installed := []

def setTask (state : RoomState) (task : Nat) (phase : Phase) : RoomState :=
  { state with tasks := Function.update state.tasks task phase }

/-- Every node that was ever put into the graph. -/
def history (state : RoomState) : List SyncNode :=
  state.accepted ++ (state.audits ++ state.installed)

/-- One critical section; `none` when the task is elsewhere or the call panics. -/
def perform (state : RoomState) : RoomAction → Option RoomState
  | .importNodes nowMs nodes =>
    some { state with
      toDurableRoom := state.toDurableRoom.importNodes crypto nowMs nodes
      accepted := state.accepted ++ importedNodes crypto nowMs state.graph nodes }
  | .tickRead task intentPrefix tickFn =>
    match state.tasks task with
    | .idle =>
      let intents := state.graph.entries fun key => intentPrefix.toList.isPrefixOf key.toList
      let writes := tickFn intents
      if writes.isEmpty then some state
      else some (state.setTask task (.ticking (writes.map fun write => .map (.set write.1 write.2))))
    | _ => none
  | .tickCommit task parents =>
    match state.tasks task with
    | .ticking ops =>
      (commitServer crypto serverKey state.graph ops parents).map fun outcome =>
        match outcome.2 with
        | some node => { state with
            graph := outcome.1, accepted := state.accepted ++ [node] }.setTask task (.ticked node.id)
        | none => { state with graph := outcome.1 }.setTask task .idle
    | _ => none
  | .tickPersist task =>
    match state.tasks task with
    | .ticked id =>
      some ({ state with
        rows := persistNodes state.rows (state.graph.nodes.get id).toList }.setTask task .idle)
    | _ => none
  | .promotionCommit session auditKey value parents =>
    match evaluateControlPlaneAuthorization session "topology.apply-promotion" with
    | .error _ => some state
    | .ok () =>
      (commitServer crypto serverKey state.graph [.map (.set auditKey value)] parents).map
        fun outcome => { state with graph := outcome.1, audits := state.audits ++ outcome.2.toList }
  | .compactRead task _ =>
    match state.tasks task with
    | .idle =>
      (prepareCompaction crypto postcard serverKey state.graph).map fun prepared =>
        match prepared with
        | .ok (snapshot, rebuilt) => state.setTask task (.compacting state.graph snapshot rebuilt)
        | .error _ => state
    | _ => none
  | .compactInstall task =>
    match state.tasks task with
    | .compacting _ snapshot rebuilt =>
      some ({ state with
        graph := rebuilt, installed := state.installed ++ [snapshot] }.setTask task .idle)
    | _ => none
  | .policyTimeline task session policy =>
    match state.tasks task with
    | .idle =>
      if isControlPlaneAllowed session "policy.admin" then
        let entry : PolicyTimelineEntry := ⟨nextCutover state.policyTimeline, policy⟩
        some ({ state with
          policyTimeline := state.policyTimeline ++ [entry] }.setTask task (.settingPolicy policy))
      else some state
    | _ => none
  | .policyWrite task =>
    match state.tasks task with
    | .settingPolicy policy =>
      some ({ state with graph := state.graph.setPolicy policy }.setTask task (.policyWritten policy))
    | _ => none
  | .policyAnswer task =>
    match state.tasks task with
    | .policyWritten _ => some (state.setTask task .idle)
    | _ => none
  | .hydrateLoad task =>
    match state.tasks task with
    | .idle => some (state.setTask task (.hydrating state.rows))
    | _ => none
  | .hydrateApply task =>
    match state.tasks task with
    | .hydrating loaded =>
      some ({ state with
        graph := (hydrate crypto state.graph loaded).1
        accepted := state.accepted ++
          batchAccepted crypto state.graph loaded none }.setTask task .idle)
    | _ => none
  | .sweepRead task base =>
    match state.tasks task with
    | .idle =>
      (state.graph.compactWith crypto postcard serverKey base []).map fun snapshot =>
        state.setTask task (.sweeping snapshot)
    | _ => none
  | .sweepApply task =>
    match state.tasks task with
    | .sweeping snapshot =>
      let applied := applyRemote crypto state.graph snapshot
      match applied.2 with
      | .ok () => some ({ state with
          graph := applied.1, accepted := state.accepted ++ [snapshot] }.setTask task (.swept snapshot))
      | .error _ => some ({ state with graph := applied.1 }.setTask task .idle)
    | _ => none
  | .sweepPersist task =>
    match state.tasks task with
    | .swept snapshot =>
      some ({ state with rows := persistNode state.rows snapshot }.setTask task .idle)
    | _ => none

end RoomState

end

/-- The node that a task has put into the graph and still has to persist. -/
def Phase.unsaved : Phase → Option NodeId
  | .ticked id => some id
  | .swept snapshot => some snapshot.id
  | _ => none

/-- The policy that an action is about to write into the graph. -/
def RoomAction.writesPolicy (state : RoomState) : RoomAction → Option Policy
  | .policyWrite task =>
    match state.tasks task with
    | .settingPolicy policy => some policy
    | _ => none
  | .compactInstall task =>
    match state.tasks task with
    | .compacting _ _ _ => some .default
    | _ => none
  | _ => none

/-- The nodes that an action is about to hand to the store. -/
def RoomAction.saves (crypto : Crypto) (state : RoomState) : RoomAction → List SyncNode
  | .importNodes nowMs nodes => importedNodes crypto nowMs state.graph nodes
  | .tickPersist task =>
    match state.tasks task with
    | .ticked id => (state.graph.nodes.get id).toList
    | _ => []
  | .sweepPersist task =>
    match state.tasks task with
    | .swept snapshot => [snapshot]
    | _ => []
  | _ => []

section
variable (crypto : Crypto) (postcard : Postcard) (serverKey : crypto.SigningKey)

/-- What a task brings along when it only looks at the room. -/
def Phase.MadeFrom (state : RoomState) : Phase → Prop
  | .idle | .ticking _ | .settingPolicy _ => True
  | .compacting read snapshot rebuilt => read = state.graph ∧
      prepareCompaction crypto postcard serverKey state.graph = some (.ok (snapshot, rebuilt))
  | .hydrating loaded => loaded = state.rows
  | .sweeping snapshot =>
    ∃ base, snapshot = state.graph.snapshotNode crypto postcard serverKey base []
  | _ => False

/-- The critical sections by what they change. -/
inductive RoomState.Step (state : RoomState) : RoomAction → RoomState → Prop where
  | stayed (quiet : action.writesPolicy state = none) (silent : action.saves crypto state = []) :
      Step state action state
  | looked (quiet : action.writesPolicy state = none) (silent : action.saves crypto state = [])
      (free : (state.tasks task).unsaved = none)
      (made : Phase.MadeFrom crypto postcard serverKey state phase) :
      Step state action ({ state with policyTimeline := timeline }.setTask task phase)
  | imported :
      Step state (.importNodes nowMs pack) { state with
        toDurableRoom := state.toDurableRoom.importNodes crypto nowMs pack
        accepted := state.accepted ++ importedNodes crypto nowMs state.graph pack }
  | tickCommitted (phase : state.tasks task = .ticking ops)
      (grows : GrowsBy crypto state.graph graph [node]) :
      Step state (.tickCommit task parents) ({ state with
        graph := graph, accepted := state.accepted ++ [node] }.setTask task (.ticked node.id))
  | tickFailed (phase : state.tasks task = .ticking ops)
      (grows : GrowsBy crypto state.graph graph []) :
      Step state (.tickCommit task parents) ({ state with graph := graph }.setTask task .idle)
  | tickSaved (phase : state.tasks task = .ticked tick) :
      Step state (.tickPersist task) ({ state with
        rows := persistNodes state.rows (state.graph.nodes.get tick).toList }.setTask task .idle)
  | audited {added : List SyncNode} (grows : GrowsBy crypto state.graph graph added) :
      Step state (.promotionCommit session auditKey value parents) { state with
        graph := graph, audits := state.audits ++ added }
  | installed (phase : state.tasks task = .compacting source snapshot rebuilt) :
      Step state (.compactInstall task) ({ state with
        graph := rebuilt, installed := state.installed ++ [snapshot] }.setTask task .idle)
  | policySet (phase : state.tasks task = .settingPolicy wanted) :
      Step state (.policyWrite task) ({ state with
        graph := state.graph.setPolicy wanted }.setTask task (.policyWritten wanted))
  | rowsApplied {added : List SyncNode} (phase : state.tasks task = .hydrating loaded)
      (grows : GrowsBy crypto state.graph graph added) (known : ∀ node ∈ added, node ∈ loaded) :
      Step state (.hydrateApply task) ({ state with
        graph := graph, accepted := state.accepted ++ added }.setTask task .idle)
  | sweepApplied (phase : state.tasks task = .sweeping snapshot)
      (grows : GrowsBy crypto state.graph graph [snapshot]) :
      Step state (.sweepApply task) ({ state with
        graph := graph, accepted := state.accepted ++ [snapshot] }.setTask task (.swept snapshot))
  | sweepFailed (phase : state.tasks task = .sweeping snapshot)
      (grows : GrowsBy crypto state.graph graph []) :
      Step state (.sweepApply task) ({ state with graph := graph }.setTask task .idle)
  | sweepSaved (phase : state.tasks task = .swept snapshot) :
      Step state (.sweepPersist task) ({ state with
        rows := persistNodes state.rows [snapshot] }.setTask task .idle)

end

section
variable {state next : RoomState} {graph : StateGraph} {parents : List NodeId}

theorem MemoryNodeStore.get_put_fresh {store : MemoryNodeStore}
    (fresh : store.contains node.id = false) : (store.put node).get node.id = some node := by
  have absent : store.data.find? (fun other => other.id = node.id) = none := by
    rw [List.find?_eq_none]
    intro other member same
    exact contains_eq_false.mp fresh (mem_map.mpr ⟨other, member, by simpa using same⟩)
  rw [MemoryNodeStore.get, put_fresh fresh, List.find?_append, absent]
  simp

/-- A commit of the server adds its node, or only moves the clock. -/
theorem commitServer_grows
    (committed : commitServer crypto serverKey graph ops parents = some outcome) :
    GrowsBy crypto graph outcome.1 outcome.2.toList := by
  obtain ⟨order, -, committed⟩ := Option.bind_eq_some_iff.mp committed
  obtain ⟨applied, wrote, rfl⟩ := Option.map_eq_some_iff.mp committed
  have ran : (Call.applyLocal serverKey 0 ops order).run = some applied.1 := by
    rw [Call.run, wrote]
    rfl
  have reached : Reachable crypto (fun _ _ => True) graph →
      Reachable crypto (fun _ _ => True) applied.1 := fun reached => .call reached trivial ran
  obtain ⟨-, ⟨-, rfl⟩ | ⟨fresh, rfl⟩⟩ := applyLocal_cases wrote
  · exact ⟨reached, fun _ => (append_nil _).symm, rfl⟩
  · have found := get_put_fresh fresh
    have data := put_fresh fresh
    refine ⟨reached, fun _ => ?_, rfl⟩
    change (graph.nodes.put _).data = graph.nodes.data ++ Option.toList ((graph.nodes.put _).get _)
    rw [found, data]
    rfl

theorem applyRemote_grows (node : SyncNode) : GrowsBy crypto graph
    (applyRemote crypto graph node).1
    ((applyRemote crypto graph node).2.toOption.elim [] fun _ => [node]) := by
  have reached (reached : Reachable crypto (fun _ _ => True) graph) :=
    reached.remote node none trivial
  rcases applyRemoteChecked_cases crypto graph node none with
    ⟨-, admissible, same⟩ | ⟨ids, error, -, same⟩
  · rw [same] at reached
    rw [applyRemote, same]
    exact ⟨reached, fun _ => put_fresh admissible.fresh, rfl⟩
  · rw [same] at reached
    rw [applyRemote, same]
    exact ⟨reached, fun _ => (append_nil _).symm, rfl⟩

theorem perform_step (stepped : state.perform crypto postcard serverKey action = some next) :
    RoomState.Step crypto postcard serverKey state action next := by
  cases action <;> simp only [RoomState.perform] at stepped
  case importNodes nowMs pack =>
    cases stepped
    exact .imported
  case tickRead task intentPrefix tickFn =>
    split at stepped
    · rename_i phase
      split at stepped <;> cases stepped
      · exact .stayed rfl rfl
      · exact .looked rfl rfl (by rw [phase]; rfl) trivial
    · cases stepped
  case tickCommit task parents =>
    split at stepped
    · rename_i ops phase
      obtain ⟨⟨graph, outcome⟩, committed, rfl⟩ := Option.map_eq_some_iff.mp stepped
      have grows := commitServer_grows committed
      cases outcome with
      | none => exact .tickFailed phase grows
      | some node => exact .tickCommitted phase grows
    · cases stepped
  case tickPersist task =>
    split at stepped
    · rename_i phase
      cases stepped
      exact .tickSaved phase
    · cases stepped
  case promotionCommit session auditKey value parents =>
    split at stepped
    · cases stepped
      exact .stayed rfl rfl
    · obtain ⟨⟨graph, outcome⟩, committed, rfl⟩ := Option.map_eq_some_iff.mp stepped
      exact .audited (commitServer_grows committed)
  case compactRead task session =>
    split at stepped
    · rename_i phase
      obtain ⟨prepared, made, rfl⟩ := Option.map_eq_some_iff.mp stepped
      cases prepared with
      | error error => exact .stayed rfl rfl
      | ok pair => exact .looked rfl rfl (by rw [phase]; rfl) ⟨rfl, made⟩
    · cases stepped
  case compactInstall task =>
    split at stepped
    · rename_i phase
      cases stepped
      exact .installed phase
    · cases stepped
  case policyTimeline task session policy =>
    split at stepped
    · rename_i phase
      split at stepped <;> cases stepped
      · exact .looked rfl rfl (by rw [phase]; rfl) trivial
      · exact .stayed rfl rfl
    · cases stepped
  case policyWrite task =>
    split at stepped
    · rename_i phase
      cases stepped
      exact .policySet phase
    · cases stepped
  case policyAnswer task =>
    split at stepped
    · rename_i phase
      cases stepped
      exact .looked rfl rfl (by rw [phase]; rfl) trivial
    · cases stepped
  case hydrateLoad task =>
    split at stepped
    · rename_i phase
      cases stepped
      exact .looked rfl rfl (by rw [phase]; rfl) rfl
    · cases stepped
  case hydrateApply task =>
    split at stepped
    · rename_i loaded phase
      cases stepped
      exact .rowsApplied phase (hydrate_grows state.graph loaded)
        fun node accepted => (mem_batchAccepted accepted).1
    · cases stepped
  case sweepRead task base =>
    split at stepped
    · rename_i phase
      obtain ⟨snapshot, made, rfl⟩ := Option.map_eq_some_iff.mp stepped
      exact .looked rfl rfl (by rw [phase]; rfl) ⟨base, (compactWith_eq_some_iff.mp made).2⟩
    · cases stepped
  case sweepApply task =>
    split at stepped
    · rename_i snapshot phase
      have grows : GrowsBy crypto state.graph _ _ := applyRemote_grows snapshot
      split at stepped <;> cases stepped
      · rename_i applied
        rw [applied] at grows
        exact .sweepApplied phase grows
      · rename_i error failed
        rw [failed] at grows
        exact .sweepFailed phase grows
    · cases stepped
  case sweepPersist task =>
    split at stepped
    · rename_i phase
      cases stepped
      exact .sweepSaved phase
    · cases stepped

def hasRow (rows : List SyncNode) (id : NodeId) : Prop := id ∈ rows.map SyncNode.id

theorem hasRow_persistNodes {id : NodeId} :
    hasRow (persistNodes rows saved) id ↔ hasRow rows id ∨ hasRow saved id := by
  have one (rows : List SyncNode) (node : SyncNode) :
      hasRow (persistNode rows node) id ↔ hasRow rows id ∨ node.id = id := by
    unfold persistNode
    split
    · rename_i known
      refine ⟨.inl, Or.rec (fun row => row) ?_⟩
      rintro rfl
      obtain ⟨row, member, same⟩ := any_eq_true.mp known
      exact mem_map.mpr ⟨row, member, by simpa using same⟩
    · simp [hasRow, eq_comm]
  induction saved generalizing rows with
  | nil => simp [persistNodes, hasRow]
  | cons head rest ih =>
    refine (@ih (persistNode rows head)).trans ?_
    rw [one, or_assoc]
    simp only [hasRow, map_cons, mem_cons, eq_comm]

/-- What a prepared compaction consists of. -/
theorem prepareCompaction_ok
    (prepared : prepareCompaction crypto postcard serverKey graph = some (.ok (snapshot, rebuilt))) :
    snapshot = graph.snapshotNode crypto postcard serverKey none [] ∧
      rebuilt = empty.accept snapshot ∧ Reachable crypto (fun _ _ => True) rebuilt := by
  obtain ⟨made, compacted, prepared⟩ := Option.map_eq_some_iff.mp prepared
  obtain ⟨content, -, prepared⟩ := bind_eq_ok.mp prepared
  obtain ⟨installed, rebuilds, prepared⟩ := bind_eq_ok.mp prepared
  obtain ⟨rfl, rfl⟩ := Prod.mk.inj (Except.ok.inj prepared)
  obtain ⟨-, vetted, admissible, still, runs⟩ := rebuildFromSnapshot_ok_iff.mp rebuilds
  have same : installed = empty.accept made := by
    cases runs with
    | finished => rfl
    | stalled nonempty trace stuck => exact absurd rfl nonempty
    | again trace shorter tail => simp at shorter
  refine ⟨(compact_eq_some_iff.mp compacted).2, same, ?_⟩
  rw [same]
  exact .receive .start trivial (screened_iff.mpr vetted) admissible

end

section
variable (crypto : Crypto) (postcard : Postcard) (serverKey : crypto.SigningKey)

/-- What a task holds fits the history of the room. -/
def Phase.Sound (state : RoomState) : Phase → Prop
  | .compacting read snapshot rebuilt => Reachable crypto (fun _ _ => True) read ∧
      (∀ node ∈ read.nodes.data, node ∈ state.history) ∧
      snapshot = read.snapshotNode crypto postcard serverKey none [] ∧
      rebuilt = empty.accept snapshot ∧ Reachable crypto (fun _ _ => True) rebuilt
  | .hydrating loaded => ∀ node ∈ loaded, hasRow state.rows node.id
  | .sweeping snapshot | .swept snapshot => snapshot.parents = []
  | _ => True

structure RoomState.Sound (state : RoomState) : Prop where
  reached : Reachable crypto (fun _ _ => True) state.graph
  known : ∀ node ∈ state.graph.nodes.data, node ∈ state.history
  hashed : ∀ node ∈ state.history, crypto.txHash node.transaction = node.id
  phases : ∀ task, (state.tasks task).Sound crypto postcard serverKey state

end

section
variable {crypto : Crypto} {serverKey : crypto.SigningKey} {state next : RoomState} {phase : Phase}

theorem Phase.Sound.mono (sound : phase.Sound crypto postcard serverKey state)
    (history : ∀ node ∈ state.history, node ∈ next.history)
    (rows : ∀ id, hasRow state.rows id → hasRow next.rows id) :
    phase.Sound crypto postcard serverKey next := by
  cases phase with
  | compacting read snapshot rebuilt =>
    obtain ⟨reached, known, rest⟩ := sound
    exact ⟨reached, fun node member => history node (known node member), rest⟩
  | hydrating loaded => exact fun node member => rows node.id (sound node member)
  | _ => exact sound

theorem Phase.MadeFrom.sound (made : phase.MadeFrom crypto postcard serverKey state)
    (sound : state.Sound crypto postcard serverKey) :
    phase.Sound crypto postcard serverKey state := by
  cases phase with
  | compacting read snapshot rebuilt =>
    obtain ⟨rfl, prepared⟩ := made
    exact ⟨sound.reached, sound.known, prepareCompaction_ok prepared⟩
  | hydrating loaded =>
    obtain rfl := made
    exact fun node member => mem_map_of_mem member
  | sweeping snapshot =>
    obtain ⟨base, rfl⟩ := made
    rfl
  | swept snapshot => exact made.elim
  | _ => trivial

namespace RoomState

theorem setTask_tasks (state : RoomState) (task : Nat) (phase : Phase) (other : Nat) :
    (other = task ∧ (state.setTask task phase).tasks other = phase) ∨
      (other ≠ task ∧ (state.setTask task phase).tasks other = state.tasks other) := by
  by_cases same : other = task
  · exact .inl ⟨same, by rw [same]; exact Function.update_self ..⟩
  · exact .inr ⟨same, Function.update_of_ne same ..⟩

section
variable (step : Step crypto postcard serverKey state action next)
include step

/-- The graph grows by nodes that enter the history, its policy is set, or a
compaction replaces it. -/
theorem Step.effect :
    (∃ added, action.writesPolicy state = none ∧ GrowsBy crypto state.graph next.graph added ∧
        ∀ node, node ∈ next.history ↔ node ∈ state.history ∨ node ∈ added) ∨
      (∃ policy, action.writesPolicy state = some policy ∧
        next.graph = state.graph.setPolicy policy ∧ next.history = state.history) ∨
      ∃ task read snapshot rebuilt, state.tasks task = .compacting read snapshot rebuilt ∧
        action.writesPolicy state = some .default ∧ next.graph = rebuilt ∧
        ∀ node, node ∈ next.history ↔ node ∈ state.history ∨ node = snapshot := by
  have same : GrowsBy crypto state.graph state.graph [] :=
    ⟨id, fun _ => (append_nil _).symm, rfl⟩
  have entered {added : List SyncNode} (node : SyncNode) :
      node ∈ state.accepted ++ added ++ (state.audits ++ state.installed) ↔
        node ∈ state.history ∨ node ∈ added := by
    simp only [history, mem_append]
    tauto
  cases step with
  | stayed quiet silent => exact .inl ⟨[], quiet, same, by simp⟩
  | looked quiet silent free made => exact .inl ⟨[], quiet, same, by simp [history, setTask]⟩
  | imported =>
    exact .inl ⟨_, rfl, importNodes_grows _ _ _, entered⟩
  | tickCommitted phase grows =>
    exact .inl ⟨_, rfl, grows, entered⟩
  | tickFailed phase grows => exact .inl ⟨_, rfl, grows, by simp [history, setTask]⟩
  | tickSaved phase => exact .inl ⟨[], rfl, same, by simp [history, setTask]⟩
  | audited grows =>
    refine .inl ⟨_, rfl, grows, fun node => ?_⟩
    simp only [history, mem_append]
    tauto
  | @installed task read snapshot rebuilt phase =>
    refine .inr (.inr ⟨task, read, snapshot, rebuilt, phase, ?_, rfl, ?_⟩)
    · simp [RoomAction.writesPolicy, phase]
    · simp [history, setTask, or_assoc]
  | @policySet task wanted phase =>
    exact .inr (.inl ⟨wanted, by simp [RoomAction.writesPolicy, phase], rfl, rfl⟩)
  | rowsApplied phase grows known =>
    exact .inl ⟨_, rfl, grows, entered⟩
  | sweepApplied phase grows =>
    exact .inl ⟨_, rfl, grows, entered⟩
  | sweepFailed phase grows => exact .inl ⟨_, rfl, grows, by simp [history, setTask]⟩
  | sweepSaved phase => exact .inl ⟨[], rfl, same, by simp [history, setTask]⟩

theorem Step.rows : next.rows = persistNodes state.rows (action.saves crypto state) := by
  cases step with
  | stayed quiet silent => rw [silent]; rfl
  | looked quiet silent free made => rw [silent]; rfl
  | tickSaved phase => simp [RoomAction.saves, phase, setTask]
  | sweepSaved phase => simp [RoomAction.saves, phase, setTask]
  | _ => rfl

/-- What a task takes up fits the history before the step. -/
theorem Step.phase_sound (sound : state.Sound crypto postcard serverKey) (other : Nat) :
    (next.tasks other).Sound crypto postcard serverKey state := by
  have updated (start : RoomState) (same : start.tasks = state.tasks) (task : Nat) (phase : Phase)
      (fits : phase.Sound crypto postcard serverKey state) :
      ((start.setTask task phase).tasks other).Sound crypto postcard serverKey state := by
    rcases start.setTask_tasks task phase other with ⟨-, here⟩ | ⟨-, elsewhere⟩
    · rw [here]
      exact fits
    · rw [elsewhere, same]
      exact sound.phases other
  cases step with
  | stayed quiet silent => exact sound.phases other
  | looked quiet silent free made => exact updated _ rfl _ _ (made.sound sound)
  | imported => exact sound.phases other
  | audited grows => exact sound.phases other
  | @sweepApplied task snapshot graph phase grows =>
    have root := sound.phases task
    rw [phase] at root
    exact updated _ rfl _ _ root
  | _ => exact updated _ rfl _ _ trivial

end

theorem Sound.step (sound : state.Sound crypto postcard serverKey)
    (step : Step crypto postcard serverKey state action next) :
    next.Sound crypto postcard serverKey := by
  have rows : ∀ id, hasRow state.rows id → hasRow next.rows id := by
    intro id row
    rw [step.rows]
    exact hasRow_persistNodes.mpr (.inl row)
  have phases (history : ∀ node ∈ state.history, node ∈ next.history) (task : Nat) :=
    (step.phase_sound sound task).mono history rows
  rcases step.effect with ⟨added, -, grows, history⟩ | ⟨policy, -, graph, history⟩ |
    ⟨task, read, snapshot, rebuilt, phase, -, graph, history⟩
  · have reached := grows.reached sound.reached
    have data := grows.data sound.reached
    refine ⟨reached, fun node member => ?_, fun node member => ?_,
      phases fun node member => (history node).mpr (.inl member)⟩
    · rw [data, mem_append] at member
      exact (history node).mpr (member.imp_left (sound.known node))
    · rcases (history node).mp member with before | new
      · exact sound.hashed node before
      · exact reached.dag.hashed node (data ▸ mem_append_right _ new)
  · refine ⟨?_, ?_, ?_, phases (by simp [history])⟩
    · rw [graph]
      exact .call sound.reached trivial (rfl : (Call.setPolicy policy).run = some _)
    · rw [graph, history]
      exact sound.known
    · rw [history]
      exact sound.hashed
  · have held := sound.phases task
    rw [phase] at held
    obtain ⟨-, -, made, rebuilds, reached⟩ := held
    refine ⟨graph ▸ reached, fun node member => ?_, fun node member => ?_,
      phases fun node member => (history node).mpr (.inl member)⟩
    · rw [graph, rebuilds] at member
      exact (history node).mpr (.inr (mem_singleton.mp member))
    · rcases (history node).mp member with before | rfl
      · exact sound.hashed node before
      · rw [made]
        rfl

theorem Sound.hydrated (rows : List SyncNode) :
    (hydrated crypto rows).Sound crypto postcard serverKey := by
  have reached : Reachable crypto (fun _ _ => True) (hydrate crypto .empty rows).1 :=
    (hydrate_grows .empty rows).reached .start
  refine ⟨reached, fun node member => ?_, fun node member => ?_, fun task => trivial⟩
  · exact mem_append_left _ member
  · have stored : node ∈ (hydrate crypto .empty rows).1.nodes.data := by
      simpa [history, RoomState.hydrated] using member
    exact reached.dag.hashed node stored

/-- Every state of a run is sound. -/
theorem sound_of_run
    (ran : exec (perform crypto postcard serverKey) (hydrated crypto rows) actions = some state) :
    state.Sound crypto postcard serverKey :=
  exec_invariant (fun _ _ _ stepped sound => Sound.step sound (perform_step stepped))
    (Sound.hydrated rows) ran

theorem perform_compactInstall {read : StateGraph}
    (phase : state.tasks task = .compacting read snapshot rebuilt) :
    state.perform crypto postcard serverKey (.compactInstall task) =
      some ({ state with
        graph := rebuilt, installed := state.installed ++ [snapshot] }.setTask task .idle) := by
  simp only [perform, phase]

/-- A session without any capability. -/
def guest : PeerSession := ⟨"guest", false, none⟩

end RoomState

end

end NodalMerge
