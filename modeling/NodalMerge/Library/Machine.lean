import Mathlib.Data.List.Basic
import Mathlib.Tactic

/-! Runs of a machine whose actions are partial steps. -/

namespace Machine

open List Option

variable {State Action : Type} (step : State → Action → Option State)

/-- Take the actions one after the other. -/
def exec (state : State) : List Action → Option State
  | [] => some state
  | action :: rest => (step state action).bind fun next => exec next rest

/-- Every action that is taken is good in the state it is taken in. -/
def Along (good : State → Action → Prop) (state : State) : List Action → Prop
  | [] => True
  | action :: rest => good state action ∧ ∀ next, step state action = some next → Along good next rest

/-- The relation holds between any two points of the run. -/
def Throughout (Rel : State → State → Prop) (state : State) (actions : List Action) : Prop :=
  ∀ front middle back before after, actions = front ++ middle ++ back →
    exec step state front = some before → exec step before middle = some after → Rel before after

/-- The property holds at every point of the run. -/
def Always (P : State → Prop) (state : State) : List Action → Prop
  | [] => P state
  | action :: rest => P state ∧ ∀ next, step state action = some next → Always P next rest

/-- What the actions taken give out. -/
def outputs {Output : Type} (emit : State → Action → List Output) (state : State) :
    List Action → List Output
  | [] => []
  | action :: rest =>
    emit state action ++ (step state action).elim [] fun next => outputs emit next rest

variable {step} {state final : State} {front back actions : List Action} {action : Action}

theorem exec_append : exec step state (front ++ back) =
    (exec step state front).bind fun middle => exec step middle back := by
  induction front generalizing state with
  | nil => rfl
  | cons head rest ih =>
    simp only [cons_append, exec, bind_assoc]
    exact congrArg (Option.bind (step state head)) (funext fun next => ih)

theorem exec_append_iff : exec step state (front ++ back) = some final ↔
    ∃ middle, exec step state front = some middle ∧ exec step middle back = some final := by
  rw [exec_append, bind_eq_some_iff]

theorem exec_singleton : exec step state [action] = step state action := by
  simp [exec]

theorem exec_concat_iff : exec step state (front ++ [action]) = some final ↔
    ∃ middle, exec step state front = some middle ∧ step middle action = some final := by
  simp only [exec_append_iff, exec_singleton]

variable {motive : List Action → State → Prop} {Inv : State → Prop} {good : State → Action → Prop}
  {middle : State} {Rel : State → State → Prop}

theorem along_of_forall
    (all : ∀ action ∈ actions, ∀ state, good state action) : Along step good state actions := by
  induction actions generalizing state with
  | nil => trivial
  | cons head rest ih =>
    refine ⟨all head mem_cons_self state, fun next _ => ih fun action later => ?_⟩
    exact all action (mem_cons_of_mem _ later)

section
variable (kept : ∀ middle action next, step middle action = some next → Inv middle → Inv next)
include kept

theorem along_congr
    (same : ∀ {middle action}, Inv middle → (good middle action ↔ other middle action))
    (start : Inv state) : Along step good state actions ↔ Along step other state actions := by
  induction actions generalizing state with
  | nil => exact Iff.rfl
  | cons action rest ih =>
    apply and_congr (same start)
    apply forall₂_congr
    intro next stepped
    exact ih (kept _ _ _ stepped start)

/-- A run goes through exactly when its steps are good, if those are the enabled ones. -/
theorem exec_isSome_iff_along
    (enabled : ∀ {middle action}, Inv middle → ((step middle action).isSome ↔ good middle action))
    (start : Inv state) : (exec step state actions).isSome ↔ Along step good state actions := by
  induction actions generalizing state with
  | nil => exact iff_of_true rfl trivial
  | cons action rest ih =>
    rw [exec, Along, ← enabled start]
    cases taken : step state action with
    | none => simp
    | some next =>
      rw [bind_some, ih (kept _ _ _ taken start)]
      simp

end

theorem along_concat_iff
    (ran : exec step state front = some middle) :
    Along step good state (front ++ [action]) ↔ Along step good state front ∧ good middle action := by
  induction front generalizing state with
  | nil =>
    cases ran
    simp [Along]
  | cons head rest ih =>
    obtain ⟨next, stepped, later⟩ := bind_eq_some_iff.mp ran
    simp only [cons_append, Along, and_assoc]
    refine and_congr_right fun _ => ⟨fun along => ?_, fun both other same => ?_⟩
    · obtain ⟨before, last⟩ := (ih later).mp (along next stepped)
      refine ⟨fun other same => ?_, last⟩
      rwa [← Option.some.inj (stepped.symm.trans same)]
    · obtain rfl := Option.some.inj (stepped.symm.trans same)
      exact (ih later).mpr ⟨both.1 next same, both.2⟩

/-- What holds of the actions taken so far, when they are good, and of the state they
lead to. -/
theorem exec_history_along
    (kept : ∀ front middle action next, exec step state front = some middle →
      good middle action → step middle action = some next → motive front middle →
      motive (front ++ [action]) next)
    (start : motive [] state) (along : Along step good state actions)
    (ran : exec step state actions = some final) : motive actions final := by
  induction actions using reverseRecOn generalizing final with
  | nil =>
    rw [← Option.some.inj ran]
    exact start
  | append_singleton front action ih =>
    obtain ⟨middle, before, last⟩ := exec_concat_iff.mp ran
    obtain ⟨along, isGood⟩ := (along_concat_iff before).mp along
    exact kept front middle action final before isGood last (ih along before)

/-- What holds of the actions taken so far and of the state they lead to. -/
theorem exec_history
    (kept : ∀ front middle action next, exec step state front = some middle →
      step middle action = some next → motive front middle → motive (front ++ [action]) next)
    (start : motive [] state) (ran : exec step state actions = some final) : motive actions final :=
  exec_history_along (fun front middle action next before _ => kept front middle action next before)
    start (along_of_forall fun _ _ _ => trivial) ran

/-- The invariant rule. -/
theorem exec_invariant
    (kept : ∀ middle action next, step middle action = some next → Inv middle → Inv next)
    (start : Inv state) (ran : exec step state actions = some final) : Inv final :=
  exec_history (fun _ middle action next _ => kept middle action next) start ran

theorem Throughout.shorter
    (holds : Throughout step Rel state (front ++ [action])) : Throughout step Rel state front := by
  rintro one other back before after rfl
  exact holds one other (back ++ [action]) before after (append_assoc ..)

theorem throughout_nil (self : Rel state state) :
    Throughout step Rel state [] := by
  intro front middle back before after split first second
  obtain ⟨rfl, rfl, rfl⟩ : front = [] ∧ middle = [] ∧ back = [] := by simpa using split.symm
  cases first
  cases second
  exact self

theorem Throughout.concat
    (holds : Throughout step Rel state front) (self : Rel final final)
    (trans : ∀ {one other last}, Rel one other → Rel other last → Rel one last)
    (before : exec step state front = some middle) (stepped : step middle action = some final)
    (last : Rel middle final) : Throughout step Rel state (front ++ [action]) := by
  intro one other back first second split ranFirst ranSecond
  -- The last action is behind the stretch, ends it, or comes before it.
  obtain rfl | ⟨rest, end_, rfl⟩ := eq_nil_or_concat' back
  · rw [append_nil] at split
    obtain rfl | ⟨stretch, end_, rfl⟩ := eq_nil_or_concat' other
    · cases ranSecond
      rw [append_nil] at split
      rw [← split, exec_concat_iff.mpr ⟨middle, before, stepped⟩] at ranFirst
      cases ranFirst
      exact self
    · rw [← append_assoc] at split
      obtain ⟨rfl, same⟩ := append_inj' split rfl
      obtain rfl := singleton_inj.mp same
      obtain ⟨reached, ranStretch, lastStep⟩ := exec_concat_iff.mp ranSecond
      have joined := exec_append_iff.mpr ⟨first, ranFirst, ranStretch⟩
      obtain rfl := Option.some.inj (before.symm.trans joined)
      obtain rfl := Option.some.inj (stepped.symm.trans lastStep)
      exact trans (holds one stretch [] first middle (by simp) ranFirst ranStretch) last
  · rw [← append_assoc] at split
    obtain ⟨rfl, -⟩ := append_inj' split rfl
    exact holds one other rest first second rfl ranFirst ranSecond

/-- A transitive relation that the good steps keep, and no others, holds throughout a
run exactly when its steps are good. -/
theorem throughout_iff_along {Ok : State → Prop} (refl : ∀ state, Ok state → Rel state state)
    (trans : ∀ {one other last}, Rel one other → Rel other last → Rel one last)
    (ok : ∀ {one other}, Rel one other → Ok other)
    (keeps : ∀ {middle action next}, Ok middle → step middle action = some next →
      (Rel middle next ↔ good middle action))
    (start : Ok state) (ran : exec step state actions = some final) :
    Throughout step Rel state actions ↔ Along step good state actions := by
  induction actions using reverseRecOn generalizing final with
  | nil => exact ⟨fun _ => trivial, fun _ => throughout_nil (refl state start)⟩
  | append_singleton front action ih =>
    obtain ⟨middle, before, stepped⟩ := exec_concat_iff.mp ran
    rw [along_concat_iff before, ← ih before]
    have sound (holds : Throughout step Rel state front) : Ok middle :=
      ok (holds front [] [] middle middle (by simp) before rfl)
    constructor
    · intro holds
      have last := holds front [action] [] middle final (by simp) before
        (exec_singleton.trans stepped)
      exact ⟨holds.shorter, (keeps (sound holds.shorter) stepped).mp last⟩
    · intro ⟨holds, isGood⟩
      have last := (keeps (sound holds) stepped).mpr isGood
      exact holds.concat (refl _ (ok last)) trans before stepped last

theorem Always.head (always : Always step P state actions) : P state := by
  cases actions with
  | nil => exact always
  | cons => exact always.1

/-- A property that the good steps keep, and no others, holds at every point of a run
exactly when its steps are good. -/
theorem always_iff_along
    (kept : ∀ middle action next, step middle action = some next → Inv middle → Inv next)
    (keeps : ∀ {middle action next}, Inv middle → P middle → step middle action = some next →
      (P next ↔ good middle action)) (inv : Inv state) (holds : P state)
    (ran : exec step state actions = some final) :
    Always step P state actions ↔ Along step good state actions := by
  induction actions generalizing state with
  | nil => exact ⟨fun _ => trivial, fun _ => holds⟩
  | cons action rest ih =>
    obtain ⟨next, stepped, later⟩ := bind_eq_some_iff.mp ran
    have invNext := kept state action next stepped inv
    constructor
    · rintro ⟨-, always⟩
      have holdsNext := (always next stepped).head
      refine ⟨(keeps inv holds stepped).mp holdsNext, fun other same => ?_⟩
      obtain rfl := Option.some.inj (stepped.symm.trans same)
      exact (ih invNext holdsNext later).mp (always next stepped)
    · rintro ⟨isGood, along⟩
      refine ⟨holds, fun other same => ?_⟩
      obtain rfl := Option.some.inj (stepped.symm.trans same)
      exact (ih invNext ((keeps inv holds stepped).mpr isGood) later).mpr (along next stepped)

/-- A property of the end of every run holds at every point of a run. -/
theorem always_of_exec (ends : ∀ front final, exec step state front = some final → P final) :
    Always step P state actions := by
  induction actions generalizing state with
  | nil => exact ends [] state rfl
  | cons action rest ih =>
    refine ⟨ends [] state rfl, fun next stepped => ih fun front final ran => ?_⟩
    exact ends (action :: front) final (bind_eq_some_iff.mpr ⟨next, stepped, ran⟩)

/-- A relation that every step keeps holds between any two points of a run. -/
theorem throughout_of_step (refl : ∀ state, Rel state state)
    (trans : ∀ {one other last}, Rel one other → Rel other last → Rel one last)
    (kept : ∀ {middle action next}, step middle action = some next → Rel middle next) :
    Throughout step Rel state actions := by
  intro front middle back before after _ _ ran
  exact exec_invariant (fun _ _ _ stepped held => trans held (kept stepped)) (refl before) ran

theorem outputs_append {Output : Type} {emit : State → Action → List Output}
    (ran : exec step state front = some middle) :
    outputs step emit state (front ++ back) =
      outputs step emit state front ++ outputs step emit middle back := by
  induction front generalizing state with
  | nil =>
    cases ran
    rfl
  | cons head rest ih =>
    obtain ⟨next, stepped, later⟩ := bind_eq_some_iff.mp ran
    simp only [cons_append, outputs, stepped, elim_some, ih later, append_assoc]

theorem outputs_concat {Output : Type} {emit : State → Action → List Output}
    (ran : exec step state front = some middle) :
    outputs step emit state (front ++ [action]) =
      outputs step emit state front ++ emit middle action := by
  rw [outputs_append ran, outputs]
  cases step middle action <;> simp [outputs]

end Machine
