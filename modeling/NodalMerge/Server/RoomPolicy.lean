import NodalMerge.Server.Room

namespace NodalMerge

open List Machine Option StateGraph

namespace RoomState

section
variable {state next : RoomState} {action : RoomAction}

theorem Step.policy (step : Step crypto postcard serverKey state action next)
    (sound : state.Sound crypto postcard serverKey) :
    next.graph.policy = (action.writesPolicy state).getD state.graph.policy := by
  rcases step.effect with ⟨added, quiet, grows, -⟩ | ⟨policy, writes, graph, -⟩ |
    ⟨task, read, snapshot, rebuilt, phase, writes, graph, -⟩
  · rw [quiet]
    exact grows.policy
  · rw [writes, graph]
    rfl
  · have held := sound.phases task
    rw [phase] at held
    obtain ⟨-, -, -, rebuilds, -⟩ := held
    rw [writes, graph, rebuilds]
    rfl

variable (crypto postcard serverKey) in
/-- The policies written into the graph along a run. -/
def policyWrites (state : RoomState) (actions : List RoomAction) : List Policy :=
  outputs (perform crypto postcard serverKey) (fun state action => (action.writesPolicy state).toList)
    state actions

/-- The graph enforces what was written last. -/
theorem policy_of_run
    (ran : exec (perform crypto postcard serverKey) (hydrated crypto rows) actions = some state) :
    state.graph.policy =
      ((policyWrites crypto postcard serverKey (hydrated crypto rows) actions).getLast?).getD
        .default := by
  refine exec_history (motive := fun actions state => state.graph.policy =
    ((policyWrites crypto postcard serverKey (hydrated crypto rows) actions).getLast?).getD .default)
    ?_ ?_ ran
  · intro front middle action next before stepped held
    rw [policyWrites, outputs_concat before, ← policyWrites,
      (perform_step stepped).policy (sound_of_run before)]
    cases action.writesPolicy middle with
    | none => simpa using held
    | some policy => simp
  · exact (hydrate_grows .empty rows).policy

theorem Step.policyWritten {policy : Policy}
    (step : Step crypto postcard serverKey state action next)
    (written : next.tasks task = .policyWritten policy) :
    state.tasks task = .policyWritten policy ∨ action.writesPolicy state ≠ none := by
  have elsewhere (start : RoomState) (same : start.tasks = state.tasks) (other : Nat) (phase : Phase)
      (different : phase ≠ .policyWritten policy)
      (written : (start.setTask other phase).tasks task = .policyWritten policy) :
      state.tasks task = .policyWritten policy := by
    rcases start.setTask_tasks other phase task with ⟨-, here⟩ | ⟨-, there⟩
    · exact absurd (here.symm.trans written) different
    · rw [← same, ← there]
      exact written
  cases step with
  | stayed quiet silent => exact .inl written
  | imported => exact .inl written
  | audited grows => exact .inl written
  | @looked action other phase timeline quiet silent free made =>
    refine .inl (elsewhere { state with policyTimeline := timeline } rfl _ _ ?_ written)
    rintro rfl
    exact made
  | policySet phase => exact .inr (by simp [RoomAction.writesPolicy, phase])
  | _ => exact .inl (elsewhere _ rfl _ _ (by simp) written)

/-- An answer is on its way only after a write. -/
theorem policyWrites_of_written {policy : Policy}
    (ran : exec (perform crypto postcard serverKey) (hydrated crypto rows) actions = some state)
    (written : state.tasks task = .policyWritten policy) :
    policyWrites crypto postcard serverKey (hydrated crypto rows) actions ≠ [] := by
  refine exec_history (motive := fun actions state => state.tasks task = .policyWritten policy →
    policyWrites crypto postcard serverKey (hydrated crypto rows) actions ≠ []) ?_ ?_ ran written
  · intro front middle action next before stepped held written
    rw [policyWrites, outputs_concat before, ← policyWrites]
    rcases (perform_step stepped).policyWritten written with earlier | now
    · simp [held earlier]
    · obtain ⟨policy, writes⟩ := ne_none_iff_exists'.mp now
      simp [writes]
  · intro written
    cases written

theorem writesPolicy_other (sets : ∀ task, action ≠ .policyWrite task)
    (installs : ∀ task, action ≠ .compactInstall task) : action.writesPolicy state = none := by
  cases action with
  | policyWrite task => exact absurd rfl (sets task)
  | compactInstall task => exact absurd rfl (installs task)
  | _ => rfl

/-- Without a `set-policy`, only installs write, and they write the default. -/
theorem policyWrites_quiet (ran : exec (perform crypto postcard serverKey) middle back = some state)
    (quiet : ∀ action ∈ back, ∀ task, action ≠ .policyWrite task) :
    (∀ policy ∈ policyWrites crypto postcard serverKey middle back, policy = .default) ∧
      (policyWrites crypto postcard serverKey middle back = [] ↔
        ∀ task, RoomAction.compactInstall task ∉ back) := by
  induction back generalizing middle with
  | nil => simp [policyWrites, outputs]
  | cons action rest ih =>
    obtain ⟨next, stepped, later⟩ := bind_eq_some_iff.mp ran
    obtain ⟨defaults, none⟩ := ih later fun action member => quiet action (mem_cons_of_mem _ member)
    have split : policyWrites crypto postcard serverKey middle (action :: rest) =
        (action.writesPolicy middle).toList ++ policyWrites crypto postcard serverKey next rest := by
      simp [policyWrites, outputs, stepped]
    rw [split]
    by_cases install : ∃ task, action = .compactInstall task
    · obtain ⟨task, rfl⟩ := install
      simp only [perform] at stepped
      split at stepped
      swap
      · cases stepped
      rename_i phase
      rw [show (RoomAction.compactInstall task).writesPolicy middle = some .default by
        simp [RoomAction.writesPolicy, phase]]
      refine ⟨by simpa using defaults, iff_of_false (by simp) fun absent => ?_⟩
      exact absent task mem_cons_self
    · have installs : ∀ task, action ≠ .compactInstall task := fun task same => install ⟨task, same⟩
      rw [writesPolicy_other (quiet action mem_cons_self) installs]
      refine ⟨defaults, none.trans (forall_congr' fun task => not_congr ?_)⟩
      rw [mem_cons, or_iff_right (installs task).symm]

/-- Between the answer to a `set-policy` and the next one, the policy stays in
force exactly when no compaction is installed, or the policy is the default one;
and the write of that request was the last one before its answer. -/
theorem policy_in_force_iff (crypto : Crypto) (postcard : Postcard) (serverKey : crypto.SigningKey)
    (rows : List SyncNode) (front back : List RoomAction) (task : Nat) (policy : Policy)
    (before middle state : RoomState)
    (ran : exec (perform crypto postcard serverKey) (hydrated crypto rows) front = some before)
    (written : before.tasks task = .policyWritten policy)
    (answered : before.perform crypto postcard serverKey (.policyAnswer task) = some middle)
    (later : exec (perform crypto postcard serverKey) middle back = some state)
    (quiet : ∀ action ∈ back, ∀ task, action ≠ .policyWrite task) :
    state.graph.policy = policy ↔
      ((∃ other, .compactInstall other ∈ back) → policy = .default) ∧
        ((∀ other, .compactInstall other ∉ back) →
          (policyWrites crypto postcard serverKey (hydrated crypto rows) front).getLast? =
            some policy) := by
  have whole : exec (perform crypto postcard serverKey) (hydrated crypto rows)
      (front ++ .policyAnswer task :: back) = some state :=
    exec_append_iff.mpr ⟨before, ran, by rw [exec, answered]; exact later⟩
  have wrote := policyWrites_of_written ran written
  obtain ⟨defaults, none⟩ := policyWrites_quiet later quiet
  have writes : policyWrites crypto postcard serverKey (hydrated crypto rows)
        (front ++ .policyAnswer task :: back) =
      policyWrites crypto postcard serverKey (hydrated crypto rows) front ++
        policyWrites crypto postcard serverKey middle back := by
    rw [policyWrites, outputs_append ran, outputs, answered]
    rfl
  rw [policy_of_run whole, writes]
  by_cases installs : ∃ other, RoomAction.compactInstall other ∈ back
  · have nonempty : policyWrites crypto postcard serverKey middle back ≠ [] := fun absent =>
      installs.elim fun other member => none.mp absent other member
    have last := defaults _ (getLast_mem nonempty)
    rw [List.getLast?_append_of_ne_nil _ nonempty, List.getLast?_eq_some_getLast nonempty, last]
    exact ⟨fun same => ⟨fun _ => same.symm, fun absent => absurd installs (by simpa using absent)⟩,
      fun holds => (holds.1 installs).symm⟩
  · have absent : ∀ other, RoomAction.compactInstall other ∉ back := by simpa using installs
    rw [none.mpr absent, append_nil, List.getLast?_eq_some_getLast wrote]
    refine ⟨fun same => ⟨fun found => absurd found installs, fun _ => congrArg some same⟩, ?_⟩
    exact fun holds => Option.some.inj (holds.2 absent)

end

/-- A session that may set policies. -/
def policyAdmin : PeerSession := ⟨"admin", false, some ⟨100, ["policy.admin"]⟩⟩

def denyAll : Policy := ⟨[], .denyAll⟩

/-- A `set-policy` request up to its answer. -/
def settingDenyAll : List RoomAction :=
  [.policyTimeline 0 policyAdmin denyAll, .policyWrite 0]

/-- The import that follows the answer is refused. -/
theorem answered_policy_in_force : ∃ state,
    exec (perform Crypto.sample Postcard.sample (Crypto.sampleKey 1)) (hydrated Crypto.sample [])
        (settingDenyAll ++ .policyAnswer 0 :: [.importNodes 0 [sampleNode]]) = some state ∧
      state.graph.nodes.data = [] ∧ state.graph.policy = denyAll :=
  ⟨_, rfl, by decide +kernel, (policy_in_force_iff Crypto.sample Postcard.sample
    (Crypto.sampleKey 1) [] settingDenyAll [.importNodes 0 [sampleNode]] 0 denyAll _ _ _ rfl rfl
    rfl rfl (by simp)).mpr ⟨by simp, fun _ => rfl⟩⟩

/-- A `compact-room` request needs no capability and takes the policy away. -/
theorem compaction_resets_policy : ∃ state,
    exec (perform Crypto.sample Postcard.sample (Crypto.sampleKey 1)) (hydrated Crypto.sample [])
        (settingDenyAll ++ [.policyAnswer 0] ++ [.compactRead 1 guest, .compactInstall 1]) = some state ∧
      guest.caps = ∅ ∧ guest.isServerPeer = false ∧ state.graph.policy ≠ denyAll := by
  have checked : ((exec (perform Crypto.sample Postcard.sample (Crypto.sampleKey 1))
      (hydrated Crypto.sample [])
      (settingDenyAll ++ [.policyAnswer 0] ++ [.compactRead 1 guest, .compactInstall 1])).any
        fun state => state.graph.policy.fallback = .allowAll) = true := by
    decide +kernel
  obtain ⟨state, ran, shown⟩ := (any_eq_true _ _).mp checked
  refine ⟨state, ran, rfl, rfl, fun same => ?_⟩
  cases (of_decide_eq_true shown).symm.trans (congrArg Policy.fallback same)

end RoomState

end NodalMerge
