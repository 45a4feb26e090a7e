import NodalMerge.Server.Room

namespace NodalMerge

open LinkedLog List Machine MemoryNodeStore Option StateGraph

/-- Every row stands behind the rows of its parents. -/
def ParentsFirst (rows : List SyncNode) : Prop :=
  ∀ front row back, rows = front ++ row :: back → ∀ parent ∈ row.parents, hasRow front parent

/-- The nodes that get a row have the rows of their parents before them. -/
def SavesInOrder : List SyncNode → List SyncNode → Prop
  | _, [] => True
  | rows, node :: rest =>
    (¬ hasRow rows node.id → ∀ parent ∈ node.parents, hasRow rows parent) ∧
      SavesInOrder (persistNode rows node) rest

theorem persistNodes_grow : rows <+: persistNodes rows saved := by
  induction saved generalizing rows with
  | nil => exact prefix_rfl
  | cons head rest ih =>
    refine IsPrefix.trans ?_ ih
    unfold persistNode
    split
    · exact prefix_rfl
    · exact prefix_append ..

theorem parentsFirst_persistNodes_iff :
    ParentsFirst (persistNodes rows saved) ↔ ParentsFirst rows ∧ SavesInOrder rows saved := by
  induction saved generalizing rows with
  | nil => exact (and_iff_left trivial).symm
  | cons head rest ih =>
    refine (@ih (persistNode rows head)).trans ?_
    rw [SavesInOrder, ← and_assoc]
    refine and_congr_left fun _ => ?_
    by_cases known : hasRow rows head.id
    · rw [persistNode, if_pos (by simpa [hasRow] using known)]
      simp [known]
    · rw [persistNode, if_neg (by simpa [hasRow] using known)]
      exact forall_split_concat_iff.trans (and_congr_right fun _ => by simp [known])

namespace RoomState

/-- An audit node, an installed snapshot, or a node that its task has yet to save. -/
def Outstanding (state : RoomState) (id : NodeId) : Prop :=
  (∃ node ∈ state.audits ++ state.installed, node.id = id) ∨
    ∃ task, (state.tasks task).unsaved = some id

/-- Outstanding, and meanwhile stored without a row. -/
def OffRecord (state : RoomState) (id : NodeId) : Prop :=
  state.Outstanding id ∧ state.graph.nodes.contains id = true ∧ ¬ hasRow state.rows id

/-- Only outstanding nodes are stored without a row. -/
def Recorded (state : RoomState) : Prop :=
  ∀ node ∈ state.graph.nodes.data, hasRow state.rows node.id ∨ state.Outstanding node.id

section
variable {state next : RoomState} {action : RoomAction} {id : NodeId}

theorem offRecord_iff (recorded : state.Recorded) (stored : state.graph.nodes.contains id = true) :
    state.OffRecord id ↔ ¬ hasRow state.rows id := by
  refine ⟨fun off => off.2.2, fun absent => ⟨?_, stored, absent⟩⟩
  obtain ⟨node, member, rfl⟩ := mem_map.mp (contains_iff.mp stored)
  exact (recorded node member).resolve_left absent

/-- A task that moves on gives up no more than the node it had yet to save. -/
theorem Outstanding.setTask {start : RoomState} (outstanding : state.Outstanding id)
    (tasks : start.tasks = state.tasks)
    (kept : ∀ node ∈ state.audits ++ state.installed, node ∈ start.audits ++ start.installed)
    (task : Nat) (phase : Phase) :
    (start.setTask task phase).Outstanding id ∨ (state.tasks task).unsaved = some id := by
  rcases outstanding with ⟨node, member, same⟩ | ⟨other, unsaved⟩
  · exact .inl (.inl ⟨node, kept node member, same⟩)
  · rcases start.setTask_tasks task phase other with ⟨rfl, -⟩ | ⟨-, elsewhere⟩
    · exact .inr unsaved
    · refine .inl (.inr ⟨other, ?_⟩)
      rw [elsewhere, tasks]
      exact unsaved

theorem outstanding_here (start : RoomState) (task : Nat) (unsaved : phase.unsaved = some id) :
    (start.setTask task phase).Outstanding id :=
  .inr ⟨task, (congrArg Phase.unsaved (Function.update_self ..)).trans unsaved⟩

/-- A stored node stays outstanding until it has a row. -/
theorem Step.keeps_outstanding (step : Step crypto postcard serverKey state action next)
    (sound : state.Sound crypto postcard serverKey)
    (stored : state.graph.nodes.contains id = true) (outstanding : state.Outstanding id) :
    hasRow next.rows id ∨ next.Outstanding id := by
  have moved {start : RoomState} {task : Nat} {phase : Phase} (tasks : start.tasks = state.tasks)
      (kept : ∀ node ∈ state.audits ++ state.installed, node ∈ start.audits ++ start.installed)
      (free : (state.tasks task).unsaved = none) : (start.setTask task phase).Outstanding id :=
    (outstanding.setTask tasks kept task phase).resolve_right (by simp [free])
  cases step with
  | stayed quiet silent => exact .inr outstanding
  | looked quiet silent free made => exact .inr (moved rfl (fun _ held => held) free)
  | imported => exact .inr outstanding
  | audited grows =>
    refine .inr (outstanding.imp_left ?_)
    rintro ⟨audit, held, same⟩
    exact ⟨audit, by simp only [mem_append] at held ⊢; tauto, same⟩
  | installed phase =>
    refine .inr (moved rfl (fun audit held => ?_) (by rw [phase]; rfl))
    simp only [mem_append] at held ⊢
    tauto
  | @tickSaved task tick phase =>
    refine (outstanding.setTask rfl (fun _ held => held) task .idle).symm.imp_left fun unsaved => ?_
    rw [phase] at unsaved
    cases unsaved
    obtain ⟨node, member, rfl⟩ := mem_map.mp (contains_iff.mp stored)
    have found : state.graph.nodes.get node.id = some node :=
      get_of_mem sound.reached.dag.linked.nodup member
    exact hasRow_persistNodes.mpr (.inr (by simp [hasRow, found]))
  | @sweepSaved task snapshot phase =>
    refine (outstanding.setTask rfl (fun _ held => held) task .idle).symm.imp_left fun unsaved => ?_
    rw [phase] at unsaved
    cases unsaved
    exact hasRow_persistNodes.mpr (.inr (by simp [hasRow]))
  | tickCommitted phase grows => exact .inr (moved rfl (fun _ held => held) (by rw [phase]; rfl))
  | tickFailed phase grows => exact .inr (moved rfl (fun _ held => held) (by rw [phase]; rfl))
  | policySet phase => exact .inr (moved rfl (fun _ held => held) (by rw [phase]; rfl))
  | rowsApplied phase grows known =>
    exact .inr (moved rfl (fun _ held => held) (by rw [phase]; rfl))
  | sweepApplied phase grows => exact .inr (moved rfl (fun _ held => held) (by rw [phase]; rfl))
  | sweepFailed phase grows => exact .inr (moved rfl (fun _ held => held) (by rw [phase]; rfl))

/-- What a step puts into the graph has a row or is outstanding. -/
theorem Step.enters (step : Step crypto postcard serverKey state action next)
    (sound : state.Sound crypto postcard serverKey) (member : node ∈ next.graph.nodes.data) :
    node ∈ state.graph.nodes.data ∨ hasRow next.rows node.id ∨ next.Outstanding node.id := by
  have split {graph : StateGraph} {added : List SyncNode}
      (grows : GrowsBy crypto state.graph graph added) (member : node ∈ graph.nodes.data) :
      node ∈ state.graph.nodes.data ∨ node ∈ added := by
    rw [grows.data sound.reached] at member
    exact mem_append.mp member
  cases step with
  | @imported nowMs pack =>
    refine (split (importNodes_grows nowMs state.graph pack) member).imp_right fun new => .inl ?_
    exact hasRow_persistNodes.mpr (.inr (mem_map_of_mem new))
  | tickCommitted phase grows =>
    refine (split grows member).imp_right fun new => .inr ?_
    rw [mem_singleton.mp new]
    exact outstanding_here _ _ rfl
  | tickFailed phase grows => exact .inl ((split grows member).resolve_right not_mem_nil)
  | audited grows =>
    exact (split grows member).imp_right fun new => .inr (.inl ⟨node, by simp [new], rfl⟩)
  | @installed task read snapshot rebuilt phase =>
    have held := sound.phases task
    rw [phase] at held
    obtain ⟨-, -, -, rfl, -⟩ := held
    refine .inr (.inr (.inl ⟨snapshot, by simp [setTask], ?_⟩))
    rw [mem_singleton.mp member]
  | @rowsApplied task loaded graph added phase grows known =>
    have loads := sound.phases task
    rw [phase] at loads
    exact (split grows member).imp_right fun new => .inl (loads node (known node new))
  | sweepApplied phase grows =>
    refine (split grows member).imp_right fun new => .inr ?_
    rw [mem_singleton.mp new]
    exact outstanding_here _ _ rfl
  | sweepFailed phase grows => exact .inl ((split grows member).resolve_right not_mem_nil)
  | _ => exact .inl member

theorem Recorded.step (recorded : state.Recorded) (sound : state.Sound crypto postcard serverKey)
    (step : Step crypto postcard serverKey state action next) : next.Recorded := by
  intro node member
  rcases step.enters sound member with old | new
  · rcases recorded node old with row | outstanding
    · rw [step.rows]
      exact .inl (hasRow_persistNodes.mpr (.inl row))
    · have stored := contains_iff.mpr (mem_map_of_mem old)
      exact step.keeps_outstanding sound stored outstanding
  · exact new

/-- Rows come in order as long as no node is saved over a parent off the record. -/
theorem savesInOrder_iff (recorded : state.Recorded) {saved done : List SyncNode}
    (below : ∀ front node back, saved = front ++ node :: back → ¬ hasRow (done ++ front) node.id ∧
      ∀ parent ∈ node.parents,
        state.graph.nodes.contains parent = true ∧ ¬ hasRow (done ++ front) parent ∨
        state.graph.nodes.contains parent = false ∧ hasRow (done ++ front) parent) :
    SavesInOrder (persistNodes state.rows done) saved ↔
      ∀ node ∈ saved, ¬ hasRow state.rows node.id →
        ∀ parent ∈ node.parents, ¬ state.OffRecord parent := by
  induction saved generalizing done with
  | nil => simp [SavesInOrder]
  | cons head rest ih =>
    obtain ⟨fresh, known⟩ := below [] head rest rfl
    rw [append_nil] at fresh known
    have later : persistNode (persistNodes state.rows done) head =
        persistNodes state.rows (done ++ [head]) := by
      rw [persistNodes, persistNodes, foldl_concat]
    have rest := @ih (done ++ [head]) fun front node back split => by
      simpa using below (head :: front) node back (by rw [split]; rfl)
    rw [SavesInOrder, later, rest, forall_mem_cons]
    refine and_congr_left fun _ => ?_
    rw [hasRow_persistNodes, or_iff_left fresh]
    refine imp_congr_right fun _ => forall₂_congr fun parent edge => ?_
    rw [hasRow_persistNodes]
    rcases known parent edge with ⟨stored, elsewhere⟩ | ⟨absent, present⟩
    · rw [or_iff_left elsewhere, offRecord_iff recorded stored, not_not]
    · refine iff_of_true (.inr present) fun off => ?_
      exact absurd off.2.1 (by simp [absent])

/-- The parents of a node that is about to be saved are stored, or saved before it. -/
theorem saves_below (sound : state.Sound crypto postcard serverKey)
    (split : action.saves crypto state = front ++ node :: back) :
    ¬ hasRow front node.id ∧ ∀ parent ∈ node.parents,
      state.graph.nodes.contains parent = true ∧ ¬ hasRow front parent ∨
        state.graph.nodes.contains parent = false ∧ hasRow front parent := by
  have alone {only : Option SyncNode} (split : only.toList = front ++ node :: back) :
      front = [] ∧ only = some node := by
    cases only <;> cases front <;> simp_all
  unfold RoomAction.saves at split
  split at split
  · rename_i nowMs pack
    have linked : Linked SyncNode.id SyncNode.parents
        (importNodes crypto nowMs state.graph pack).graph.nodes.data :=
      (importNodes_reachable nowMs pack sound.reached).dag.linked
    rw [importNodes_data nowMs pack sound.reached, split, ← append_assoc] at linked
    obtain ⟨fresh, known⟩ := linked.entry
    have nodup := linked.front.nodup
    rw [map_append, nodup_append] at nodup
    rw [map_append, mem_append, not_or] at fresh
    refine ⟨fresh.2, fun parent edge => ?_⟩
    have either := known parent edge
    rw [map_append, mem_append] at either
    rcases either with stored | earlier
    · exact .inl ⟨contains_iff.mpr stored,
        fun also => nodup.2.2 parent stored parent also rfl⟩
    · exact .inr ⟨contains_eq_false.mpr
        fun also => nodup.2.2 parent also parent earlier rfl, earlier⟩
  · split at split
    · obtain ⟨rfl, found⟩ := alone split
      refine ⟨by simp [hasRow], fun parent edge => .inl ⟨?_, by simp [hasRow]⟩⟩
      exact contains_iff.mpr
        (sound.reached.dag.linked.closed (mem_of_find?_eq_some found) edge)
    · simp at split
  · split at split
    · rename_i task _ snapshot phase
      obtain ⟨rfl, same⟩ := @alone (some snapshot) split
      obtain rfl := Option.some.inj same
      have root := sound.phases task
      rw [phase] at root
      refine ⟨by simp [hasRow], fun parent edge => ?_⟩
      rw [show snapshot.parents = [] from root] at edge
      cases edge
    · simp at split
  · simp at split

/-- Every stored node has a row, and rows stand behind those of their parents. -/
structure ParentClosed (state : RoomState) : Prop where
  persisted : ∀ node ∈ state.graph.nodes.data, hasRow state.rows node.id
  ordered : ParentsFirst state.rows

variable (crypto) in
/-- The action gives no row to a child of a node that is off the record. -/
def SavesOnRecord (state : RoomState) (action : RoomAction) : Prop :=
  ∀ node ∈ action.saves crypto state, ¬ hasRow state.rows node.id →
    ∀ parent ∈ node.parents, ¬ state.OffRecord parent

theorem recorded_hydrated (rows : List SyncNode) : (hydrated crypto rows).Recorded := by
  intro node member
  have data : (hydrated crypto rows).graph.nodes.data = _ :=
    (hydrate_grows (.empty : StateGraph) rows).data
      (.start : Reachable crypto (fun _ _ => True) .empty)
  rw [data] at member
  exact .inl (mem_map_of_mem (mem_batchAccepted member).1)

theorem rows_of_run
    (ran : exec (perform crypto postcard serverKey) (hydrated crypto rows) actions = some state) :
    state.Recorded ∧ (ParentsFirst state.rows ↔ ParentsFirst rows ∧
      Along (perform crypto postcard serverKey) (SavesOnRecord crypto) (hydrated crypto rows)
        actions) := by
  refine exec_history (motive := fun actions state => state.Recorded ∧ (ParentsFirst state.rows ↔
    ParentsFirst rows ∧ Along (perform crypto postcard serverKey) (SavesOnRecord crypto)
      (hydrated crypto rows) actions)) ?_ ⟨recorded_hydrated rows, ?_⟩ ran
  · rintro front middle action next before stepped ⟨recorded, ordered⟩
    have sound := sound_of_run before
    have step := perform_step stepped
    refine ⟨recorded.step sound step, ?_⟩
    rw [step.rows, parentsFirst_persistNodes_iff, ordered, along_concat_iff before, and_assoc]
    refine and_congr_right fun _ => and_congr_right fun _ => ?_
    exact @savesInOrder_iff _ recorded _ [] fun front node back split => saves_below sound split
  · exact (and_iff_left trivial).symm

/-- Whatever its tasks do, in whatever order, a room has a well-formed graph, its rows are only
ever added to, and a node without a row is an audit node, an installed snapshot, or one that its
task has yet to save. -/
theorem room_stays_sound (crypto : Crypto) (postcard : Postcard) (serverKey : crypto.SigningKey)
    (rows : List SyncNode) (actions : List RoomAction) :
    Always (perform crypto postcard serverKey)
        (fun state => state.graph.core.Dag crypto ∧ state.Recorded) (hydrated crypto rows) actions ∧
      Throughout (perform crypto postcard serverKey) (fun before after => before.rows <+: after.rows)
        (hydrated crypto rows) actions := by
  constructor
  · exact always_of_exec fun _ _ ran => ⟨(sound_of_run ran).reached.dag, (rows_of_run ran).1⟩
  · refine throughout_of_step (fun _ => prefix_rfl) .trans fun {state action next} stepped => ?_
    rw [(perform_step stepped).rows]
    exact persistNodes_grow

/-- At rest, a room is persisted parent-closed exactly when it began so, no audit
node or snapshot of `compact-room` is stored without a row, and nothing was saved
over a parent that was off the record. -/
theorem parentClosed_iff (crypto : Crypto) (postcard : Postcard) (serverKey : crypto.SigningKey)
    (rows : List SyncNode) (actions : List RoomAction) (state : RoomState)
    (ran : exec (perform crypto postcard serverKey) (hydrated crypto rows) actions = some state)
    (idle : ∀ task, state.tasks task = .idle) :
    state.ParentClosed ↔ ParentsFirst rows ∧
      Along (perform crypto postcard serverKey) (SavesOnRecord crypto) (hydrated crypto rows)
        actions ∧
      ∀ node ∈ state.audits ++ state.installed, ¬ state.OffRecord node.id := by
  obtain ⟨recorded, ordered⟩ := rows_of_run ran
  have persisted : (∀ node ∈ state.graph.nodes.data, hasRow state.rows node.id) ↔
      ∀ node ∈ state.audits ++ state.installed, ¬ state.OffRecord node.id := by
    constructor
    · intro persisted audit held off
      obtain ⟨node, member, same⟩ := mem_map.mp (contains_iff.mp off.2.1)
      exact off.2.2 (same ▸ persisted node member)
    · intro clear node member
      refine (recorded node member).elim (fun row => row) fun outstanding => ?_
      have stored := contains_iff.mpr (mem_map_of_mem member)
      rcases outstanding with ⟨audit, held, same⟩ | ⟨task, unsaved⟩
      · have on := clear audit held
        rw [same, offRecord_iff recorded stored, not_not] at on
        exact on
      · rw [idle task] at unsaved
        cases unsaved
  rw [← and_assoc, ← ordered, ← persisted]
  exact ⟨fun closed => ⟨closed.ordered, closed.persisted⟩, fun both => ⟨both.2, both.1⟩⟩

/-- The pack has the reply before the node it answers. -/
def replyPack : List SyncNode := [replyNode, sampleNode]

theorem import_parentClosed : ∃ state,
    exec (perform Crypto.sample Postcard.sample (Crypto.sampleKey 1)) (hydrated Crypto.sample [])
        [.importNodes 0 replyPack] = some state ∧
      (∀ task, state.tasks task = .idle) ∧ state.rows = [sampleNode, replyNode] ∧
      state.ParentClosed := by
  obtain ⟨state, ran, accepted, history, rows, idle⟩ : ∃ state,
      exec (perform Crypto.sample Postcard.sample (Crypto.sampleKey 1)) (hydrated Crypto.sample [])
        [.importNodes 0 replyPack] = some state ∧ state.accepted = [sampleNode, replyNode] ∧
        state.history = state.accepted ∧ state.rows = [sampleNode, replyNode] ∧
        ∀ task, state.tasks task = .idle :=
    ⟨_, rfl, by decide +kernel, by decide +kernel, by decide +kernel, fun _ => rfl⟩
  have none : state.audits ++ state.installed = [] := by
    rw [RoomState.history] at history
    simpa using history
  refine ⟨state, ran, idle, rows, (parentClosed_iff Crypto.sample Postcard.sample
    (Crypto.sampleKey 1) [] _ state ran idle).mpr ⟨?_, ⟨?_, fun _ _ => trivial⟩, ?_⟩⟩
  · intro front row back split
    simp at split
  · rintro node - - parent - ⟨-, stored, -⟩
    cases stored
  · rw [none]
    simp

/-- The snapshot of a finished `compact-room` is in no row. -/
theorem compaction_not_parentClosed : ∃ state snapshot,
    exec (perform Crypto.sample Postcard.sample (Crypto.sampleKey 1)) (hydrated Crypto.sample [])
        [.compactRead 0 guest, .compactInstall 0] = some state ∧
      (∀ task, state.tasks task = .idle) ∧ state.graph.nodes.data = [snapshot] ∧
      state.rows = [] ∧ ¬ state.ParentClosed := by
  have checked : ((prepareCompaction Crypto.sample Postcard.sample (Crypto.sampleKey 1)
      (hydrated Crypto.sample []).graph).any fun prepared => prepared.toOption.any fun made =>
        made.2.nodes.data = [made.1]) = true := by
    decide +kernel
  obtain ⟨⟨error⟩ | ⟨snapshot, rebuilt⟩, made, shown⟩ := (any_eq_true _ _).mp checked
  · cases shown
  have data : rebuilt.nodes.data = [snapshot] := of_decide_eq_true shown
  refine ⟨{ hydrated Crypto.sample [] with graph := rebuilt, installed := [snapshot] }, snapshot,
    ?_, fun _ => rfl, data, rfl, fun closed => ?_⟩
  · have idle : (hydrated Crypto.sample []).tasks 0 = .idle := rfl
    have settled : Function.update (hydrated Crypto.sample []).tasks 0 .idle =
      (hydrated Crypto.sample []).tasks := Function.update_eq_self ..
    simp only [exec, perform, idle, made, map_some, bind_some, setTask,
      Function.update_self, Function.update_idem, settled]
    rfl
  · exact not_mem_nil (closed.persisted _ (by rw [data]; exact mem_singleton_self _))

end

end RoomState

end NodalMerge
