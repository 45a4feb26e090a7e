import Mathlib.Data.List.Basic
import Mathlib.Tactic

namespace Retry

open Function List

inductive Outcome (State Error : Type) where
  | done (next : State)
  | later (next : State)
  | failed (next : State) (error : Error)

def Outcome.state {State Error : Type} : Outcome State Error → State
  | .done next => next
  | .later next => next
  | .failed next _ => next

/-- The item is done or has to wait, in state `next`. -/
def Outcome.Proceeds {State Error : Type} (outcome : Outcome State Error) (next : State) : Prop :=
  outcome = .done next ∨ outcome = .later next

variable {State Item Error : Type} (step : State → Item → Outcome State Error)

/-- One pass over the items, with those that have to wait. A failure stops it. -/
def pass (state : State) : List Item → Except (State × Error) (State × List Item)
  | [] => .ok (state, [])
  | item :: rest =>
    match step state item with
    | .done next => pass next rest
    | .later next => (pass next rest).map fun result => (result.1, item :: result.2)
    | .failed next error => .error (next, error)

/-- What a pass that does not fail does. -/
inductive Trace : State → List Item → State → List Item → Prop where
  | nil {state : State} : Trace state [] state []
  | done {state next last : State} {item : Item} {rest still : List Item}
      (stepped : step state item = .done next) (tail : Trace next rest last still) :
      Trace state (item :: rest) last still
  | later {state next last : State} {item : Item} {rest still : List Item}
      (stepped : step state item = .later next) (tail : Trace next rest last still) :
      Trace state (item :: rest) last (item :: still)

variable {step} {state last : State} {items still : List Item}

theorem trace_cons_iff :
    Trace step state (item :: rest) last still ↔
      (∃ next, step state item = .done next ∧ Trace step next rest last still) ∨
        ∃ next back, step state item = .later next ∧ Trace step next rest last back ∧
          item :: back = still := by
  constructor
  · intro trace
    cases trace with
    | done stepped tail => exact .inl ⟨_, stepped, tail⟩
    | later stepped tail => exact .inr ⟨_, _, stepped, tail, rfl⟩
  · rintro (⟨next, stepped, tail⟩ | ⟨next, back, stepped, tail, rfl⟩)
    · exact .done stepped tail
    · exact .later stepped tail

theorem pass_ok_iff : pass step state items = .ok (last, still) ↔ Trace step state items last still := by
  fun_induction pass step state items generalizing still with
  | case1 state =>
    constructor
    · rintro ⟨⟩
      exact .nil
    · rintro ⟨⟩
      rfl
  | case2 state item rest next stepped ih => simp [ih, trace_cons_iff, stepped]
  | case3 state item rest next stepped ih =>
    cases passed : pass step next rest <;>
      simp [trace_cons_iff, stepped, ← ih, passed, Except.map, Prod.ext_iff]
  | case4 state item rest next error stepped => simp [trace_cons_iff, stepped]

theorem Trace.sublist (trace : Trace step state items last still) : still.Sublist items := by
  induction trace with
  | nil => exact .slnil
  | done stepped tail ih => exact ih.cons _
  | later stepped tail ih => exact ih.cons_cons _

variable (step) in
/-- Pass after pass, until nothing is left or no item of a pass was ready. -/
def run (state : State) (pending : List Item) : Except (State × Error) (State × List Item) :=
  if pending.isEmpty then .ok (state, [])
  else
    match _passed : pass step state pending with
    | .error failure => .error failure
    | .ok (last, still) =>
      if still.length = pending.length then .ok (last, still) else run last still
termination_by pending.length
decreasing_by
  have shorter := (pass_ok_iff.mp _passed).sublist.length_le
  omega

/-- What the passes do when none of them fails. -/
inductive Runs (step : State → Item → Outcome State Error) :
    State → List Item → State → List Item → Prop where
  | finished {state : State} : Runs step state [] state []
  | stalled {state last : State} {pending still : List Item} (nonempty : pending ≠ [])
      (trace : Trace step state pending last still) (stuck : still.length = pending.length) :
      Runs step state pending last still
  | again {state next last : State} {pending still rest : List Item}
      (trace : Trace step state pending next still) (shorter : still.length < pending.length)
      (tail : Runs step next still last rest) : Runs step state pending last rest

theorem run_nil : run step state [] = .ok (state, []) := by
  rw [run]
  rfl

theorem run_error {failure : State × Error} (nonempty : items ≠ [])
    (passed : pass step state items = .error failure) : run step state items = .error failure := by
  rw [run, if_neg (by simpa using nonempty)]
  split
  · rename_i other found
    rw [found] at passed
    exact passed
  · rename_i found
    cases found.symm.trans passed

theorem run_ok (nonempty : items ≠ []) (trace : Trace step state items last still) :
    run step state items =
      if still.length = items.length then .ok (last, still) else run step last still := by
  rw [run, if_neg (by simpa using nonempty)]
  split
  · rename_i found
    cases found.symm.trans (pass_ok_iff.mpr trace)
  · rename_i found
    obtain ⟨rfl, rfl⟩ := Prod.mk.inj (Except.ok.inj (found.symm.trans (pass_ok_iff.mpr trace)))
    rfl

theorem run_ok_iff : run step state items = .ok (last, still) ↔ Runs step state items last still := by
  constructor
  · intro ran
    fun_induction run step state items with
    | case1 state pending empty =>
      cases ran
      rw [List.isEmpty_iff.mp empty]
      exact .finished
    | case2 state pending _ failure passed => cases ran
    | case3 state pending nonempty next rest passed stuck =>
      cases ran
      exact .stalled (by simpa using nonempty) (pass_ok_iff.mp passed) stuck
    | case4 state pending _ next rest passed progress ih =>
      have trace := pass_ok_iff.mp passed
      exact .again trace (Nat.lt_of_le_of_ne trace.sublist.length_le progress) (ih ran)
  · intro runs
    induction runs with
    | finished => exact run_nil
    | stalled nonempty trace stuck => rw [run_ok nonempty trace, if_pos stuck]
    | @again state next last pending still rest trace shorter tail ih =>
      have nonempty : pending ≠ [] := by
        rintro rfl
        exact Nat.not_lt_zero _ shorter
      rw [run_ok nonempty trace, if_neg (Nat.ne_of_lt shorter), ih]

theorem Outcome.Proceeds.unique {outcome : Outcome State Error} {next : State}
    (first : outcome.Proceeds next) (second : outcome.Proceeds other) : next = other := by
  rcases first with rfl | rfl <;> rcases second with same | same <;> cases same <;> rfl

theorem Trace.head (trace : Trace step state (item :: rest) last still) :
    ∃ next, (step state item).Proceeds next ∧ ∃ still, Trace step next rest last still := by
  cases trace with
  | done stepped tail => exact ⟨_, .inl stepped, _, tail⟩
  | later stepped tail => exact ⟨_, .inr stepped, _, tail⟩

theorem exists_trace_cons {next : State} (proceeds : (step state item).Proceeds next) :
    (∃ last still, Trace step state (item :: rest) last still) ↔
      ∃ last still, Trace step next rest last still := by
  constructor
  · rintro ⟨last, still, trace⟩
    obtain ⟨other, otherProceeds, tail⟩ := trace.head
    exact ⟨last, proceeds.unique otherProceeds ▸ tail⟩
  · rintro ⟨last, still, tail⟩
    rcases proceeds with done | waits
    · exact ⟨last, still, .done done tail⟩
    · exact ⟨last, item :: still, .later waits tail⟩

theorem Trace.append {middle : State} {others : List Item}
    (first : Trace step state items middle []) (second : Trace step middle others last still) :
    Trace step state (items ++ others) last still := by
  generalize nothing : ([] : List Item) = rest at first
  induction first with
  | nil => exact second
  | done stepped tail ih => exact .done stepped (ih second nothing)
  | later stepped tail ih => cases nothing

/-- A pass in which everything is done is all there is. -/
theorem Trace.runs (trace : Trace step state items last []) : Runs step state items last [] := by
  cases items with
  | nil =>
    cases trace
    exact .finished
  | cons item rest => exact .again trace (Nat.zero_lt_succ _) .finished

section
variable {Inv : State → Prop}

theorem Trace.invariant (trace : Trace step state items last still)
    (kept : ∀ state item next, item ∈ items → Inv state → (step state item).Proceeds next → Inv next)
    (start : Inv state) : Inv last := by
  induction trace with
  | nil => exact start
  | done stepped tail ih =>
    exact ih (fun state item next member => kept state item next (.tail _ member))
      (kept _ _ _ (.head _) start (.inl stepped))
  | later stepped tail ih =>
    exact ih (fun state item next member => kept state item next (.tail _ member))
      (kept _ _ _ (.head _) start (.inr stepped))

/-- What every step keeps holds at the end. -/
theorem Runs.invariant (runs : Runs step state items last still)
    (kept : ∀ state item next, item ∈ items → Inv state → (step state item).Proceeds next → Inv next)
    (start : Inv state) : Inv last := by
  induction runs with
  | finished => exact start
  | stalled nonempty trace stuck => exact trace.invariant kept start
  | again trace shorter tail ih =>
    exact ih (fun state item next member => kept state item next (trace.sublist.subset member))
      (trace.invariant kept start)

variable {Fact : State → Item → Prop}
  (kept : ∀ state item next, item ∈ items → Inv state → (step state item).Proceeds next → Inv next)
  (gained : ∀ state item next, Inv state → step state item = .done next → Fact next item)
  (lasting : ∀ state item other next, Fact state item → (step state other).Proceeds next →
    Fact next item)
include kept gained lasting

theorem Trace.done_or_still (trace : Trace step state items last still) (start : Inv state) :
    ∀ item ∈ items, Fact last item ∨ item ∈ still := by
  induction trace with
  | nil => exact fun item absent => (not_mem_nil absent).elim
  | @done state next last head rest still stepped tail ih =>
    intro item member
    rcases mem_cons.mp member with rfl | later
    · refine .inl (tail.invariant (fun state other next _ fact => lasting state item other next fact) ?_)
      exact gained _ _ _ start stepped
    · exact ih (fun state item next member => kept state item next (.tail _ member))
        (kept _ _ _ (.head _) start (.inl stepped)) item later
  | @later state next last head rest still stepped tail ih =>
    intro item member
    rcases mem_cons.mp member with rfl | later
    · exact .inr (.head _)
    · exact (ih (fun state item next member => kept state item next (.tail _ member))
        (kept _ _ _ (.head _) start (.inr stepped)) item later).imp id (.tail _)

/-- Every item has gained the fact that being done gives, or is left over. -/
theorem Runs.done_or_still (runs : Runs step state items last still) (start : Inv state) :
    ∀ item ∈ items, Fact last item ∨ item ∈ still := by
  induction runs with
  | finished => exact fun item absent => (not_mem_nil absent).elim
  | stalled nonempty trace stuck => exact trace.done_or_still kept gained lasting start
  | @again state next last pending still rest trace shorter tail ih =>
    intro item member
    rcases trace.done_or_still kept gained lasting start item member with fact | waits
    · exact .inl (tail.invariant (fun state other next _ fact => lasting state item other next fact) fact)
    · exact ih (fun state item next member => kept state item next (trace.sublist.subset member))
        (trace.invariant kept start) item waits

end

/-- What an item gains by waiting, and keeps while others wait, is true of every
item that is left over. -/
theorem Runs.still_waits {Waits : State → Item → Prop} (runs : Runs step state items last still)
    (gained : ∀ state item next, step state item = .later next → Waits next item)
    (lasting : ∀ state item other next, Waits state item → step state other = .later next →
      Waits next item) : ∀ item ∈ still, Waits last item := by
  induction runs with
  | finished => exact fun item absent => (not_mem_nil absent).elim
  | again trace shorter tail ih => exact ih
  | @stalled state last pending still nonempty trace stuck =>
    clear nonempty
    have kept {state last : State} {pending still : List Item} {item : Item}
        (trace : Trace step state pending last still) (stuck : still.length = pending.length)
        (waits : Waits state item) : Waits last item := by
      induction trace with
      | nil => exact waits
      | done stepped tail ih =>
        have shorter := tail.sublist.length_le
        simp only [length_cons] at stuck
        omega
      | later stepped tail ih => exact ih (Nat.succ.inj stuck) (lasting _ _ _ _ waits stepped)
    induction trace with
    | nil => exact fun item absent => (not_mem_nil absent).elim
    | done stepped tail ih =>
      have shorter := tail.sublist.length_le
      simp only [length_cons] at stuck
      omega
    | later stepped tail ih =>
      intro item member
      rcases mem_cons.mp member with rfl | inRest
      · exact kept tail (Nat.succ.inj stuck) (gained _ _ _ stepped)
      · exact ih (Nat.succ.inj stuck) item inRest

section
variable {Inv : State → List Item → Prop} {Ready : State → Item → Prop}
  (steps : ∀ state front item back, Inv state (front ++ item :: back) →
    (∃ next, step state item = .done next ∧ Inv next (front ++ back)) ∨
      ∃ next, step state item = .later next ∧ Inv next (front ++ item :: back))
  (works : ∀ state front item back, Inv state (front ++ item :: back) → Ready state item →
    ∃ next, step state item = .done next)
  (lasting : ∀ state item other next, Ready state item → (step state other).Proceeds next →
    Ready next item)
include steps works lasting

/-- What a pass over an invariant pending list does; `front` waits already. -/
theorem exists_trace (front items : List Item) (state : State) (start : Inv state (front ++ items)) :
    ∃ last still, Trace step state items last still ∧ Inv last (front ++ still) ∧
      ((∃ item ∈ items, Ready state item) → still.length < items.length) := by
  induction items generalizing state front with
  | nil => exact ⟨state, [], .nil, start, fun ⟨_, absent, _⟩ => (not_mem_nil absent).elim⟩
  | cons item rest ih =>
    rcases steps state front item rest start with ⟨next, stepped, kept⟩ | ⟨next, stepped, kept⟩
    · obtain ⟨last, still, trace, after, progress⟩ := ih front next kept
      exact ⟨last, still, .done stepped trace, after, fun _ =>
        Nat.lt_succ_of_le trace.sublist.length_le⟩
    · rw [append_cons] at kept
      obtain ⟨last, still, trace, after, progress⟩ := ih (front ++ [item]) next kept
      refine ⟨last, item :: still, .later stepped trace, by simpa using after, ?_⟩
      rintro ⟨other, member, ready⟩
      rcases mem_cons.mp member with rfl | inRest
      · obtain ⟨wrong, done⟩ := works state front other rest start ready
        cases done.symm.trans stepped
      · exact Nat.succ_lt_succ (progress ⟨other, inRest, lasting _ _ _ _ ready (.inr stepped)⟩)

/-- If some pending item is always ready, and ready items get done, then
everything gets done. -/
theorem runs_to_end
    (progress : ∀ state pending, Inv state pending → pending ≠ [] →
      ∃ item ∈ pending, Ready state item)
    (state : State) (items : List Item) (start : Inv state items) :
    ∃ last, Runs step state items last [] ∧ Inv last [] := by
  induction size : items.length using Nat.strong_induction_on generalizing state items with
  | _ size ih =>
    subst size
    by_cases empty : items = []
    · subst empty
      exact ⟨state, .finished, start⟩
    · obtain ⟨next, still, trace, kept, shorter⟩ := exists_trace steps works lasting [] items state start
      have less := shorter (progress state items start empty)
      obtain ⟨last, tail, done⟩ := ih still.length less next still kept rfl
      exact ⟨last, .again trace less tail, done⟩

end

section
variable {Inv : State → Prop}
  (proceeds : ∀ state, ∀ item ∈ items, Inv state → ∃ next, (step state item).Proceeds next ∧ Inv next)
include proceeds

theorem exists_trace_of_proceeds (start : Inv state) : ∃ last still, Trace step state items last still ∧ Inv last := by
  induction items generalizing state with
  | nil => exact ⟨state, [], .nil, start⟩
  | cons item rest ih =>
    have later := fun state other member => proceeds state other (.tail item member)
    obtain ⟨next, done | waits, kept⟩ := proceeds state item (.head _) start
    · obtain ⟨last, still, trace, after⟩ := ih later kept
      exact ⟨last, still, .done done trace, after⟩
    · obtain ⟨last, still, trace, after⟩ := ih later kept
      exact ⟨last, item :: still, .later waits trace, after⟩

/-- Where no item can fail, the passes come to an end. -/
theorem exists_runs (start : Inv state) : ∃ last still, Runs step state items last still := by
  induction size : items.length using Nat.strong_induction_on generalizing state items with
  | _ size ih =>
    subst size
    by_cases empty : items = []
    · subst empty
      exact ⟨state, [], .finished⟩
    · obtain ⟨next, still, trace, kept⟩ := exists_trace_of_proceeds proceeds start
      rcases Nat.lt_or_eq_of_le trace.sublist.length_le with shorter | stuck
      · obtain ⟨last, rest, tail⟩ := ih still.length shorter
          (fun state item member => proceeds state item (trace.sublist.subset member)) kept rfl
        exact ⟨last, rest, .again trace shorter tail⟩
      · exact ⟨next, still, .stalled empty trace stuck⟩

end

/-- The second list without some items that satisfy `Spent`. -/
inductive Pruned (Spent : Item → Prop) : List Item → List Item → Prop where
  | nil : Pruned Spent [] []
  | keep {kept all : List Item} (item : Item) (rest : Pruned Spent kept all) :
      Pruned Spent (item :: kept) (item :: all)
  | drop {item : Item} {kept all : List Item} (spent : Spent item) (rest : Pruned Spent kept all) :
      Pruned Spent kept (item :: all)

section
variable {View : Type} {view : State → View} {effect : View → Item → View}
  {Spent : View → Item → Prop}
  (effects : ∀ state item next, (step state item).Proceeds next →
    view next = effect (view state) item)
  (gained : ∀ state item next, step state item = .done next → Spent (view next) item)
  (idle : ∀ shown item, Spent shown item → effect shown item = shown)
  (lasting : ∀ shown item other, Spent shown item → Spent (effect shown other) item)

include effects in
theorem Trace.view_eq
    (trace : Trace step state items last still) : view last = items.foldl effect (view state) := by
  induction trace with
  | nil => rfl
  | done stepped tail ih => rw [ih, effects _ _ _ (.inl stepped), foldl_cons]
  | later stepped tail ih => rw [ih, effects _ _ _ (.inr stepped), foldl_cons]

include lasting in
theorem spent_foldl {shown : View} {item : Item} (spent : Spent shown item) (others : List Item) :
    Spent (others.foldl effect shown) item := by
  induction others generalizing shown with
  | nil => exact spent
  | cons other rest ih => exact ih (lasting shown item other spent)

include effects gained lasting in
theorem Trace.pruned
    (trace : Trace step state items last still) : Pruned (Spent (view last)) still items := by
  induction trace with
  | nil => exact .nil
  | done stepped tail ih =>
    refine .drop ?_ ih
    rw [tail.view_eq effects]
    exact spent_foldl lasting (gained _ _ _ stepped) _
  | later stepped tail ih => exact .keep _ ih

section
include idle lasting

/-- Spent items have no effect, so they may be left out. -/
theorem Pruned.foldl_eq (pruned : Pruned OnceSpent kept items)
    (spent : ∀ item, OnceSpent item → Spent shown item) :
    kept.foldl effect shown = items.foldl effect shown := by
  induction pruned generalizing shown with
  | nil => rfl
  | keep item rest ih => exact ih fun other once => lasting shown other item (spent other once)
  | drop once rest ih =>
    rw [foldl_cons, idle shown _ (spent _ once)]
    exact ih spent

theorem Pruned.iterate_eq (pruned : Pruned OnceSpent kept items) (count : Nat)
    (spent : ∀ item, OnceSpent item → Spent shown item) :
    (fun shown => kept.foldl effect shown)^[count] shown =
      (fun shown => items.foldl effect shown)^[count] shown := by
  induction count generalizing shown with
  | zero => rfl
  | succ count ih =>
    rw [iterate_succ_apply, iterate_succ_apply,
      pruned.foldl_eq idle lasting spent]
    exact ih fun item once => spent_foldl lasting (spent item once) items

end

include effects gained idle lasting in
/-- The passes over what is left amount to passes over all items, at most one
for each. -/
theorem Runs.view_eq
    (waits : ∀ state item next, step state item = .later next → view next = view state)
    (runs : Runs step state items last still) (count : Nat) (enough : items.length ≤ count) :
    view last = (fun shown => items.foldl effect shown)^[count] (view state) := by
  induction runs generalizing count with
  | finished => exact (iterate_fixed rfl count).symm
  | @stalled state last pending still nonempty trace stuck =>
    have unchanged : view last = view state := by
      clear nonempty enough
      induction trace with
      | nil => rfl
      | done stepped tail ih =>
        have shorter := tail.sublist.length_le
        simp only [length_cons] at stuck
        omega
      | later stepped tail ih => rw [ih (Nat.succ.inj stuck), waits _ _ _ stepped]
    have fixed : pending.foldl effect (view state) = view state := by
      rw [← trace.view_eq effects, unchanged]
    rw [unchanged]
    exact (iterate_fixed fixed count).symm
  | @again state next last pending still rest trace shorter tail ih =>
    obtain ⟨count, rfl⟩ := Nat.exists_eq_add_one_of_ne_zero
      (Nat.ne_of_gt (Nat.lt_of_lt_of_le (Nat.zero_lt_of_lt shorter) enough))
    rw [ih count (by omega), iterate_succ_apply, ← trace.view_eq effects]
    exact (trace.pruned effects gained lasting).iterate_eq idle lasting count fun item spent => spent

end

/-- The outcome as an observer sees it. -/
def Outcome.map {View : Type} (view : State → View) : Outcome State Error → Outcome View Unit
  | .done next => .done (view next)
  | .later next => .later (view next)
  | .failed next _ => .failed (view next) ()

/-- The state at the end of a pass or of all passes, failed or not. -/
def finalState : Except (State × Error) (State × List Item) → State
  | .ok result => result.1
  | .error failure => failure.1

/-- In a pass that began with `before` items, with `rest` to go and `waiting` put
back, the passes come to an item in some state. -/
inductive Visits (step : State → Item → Outcome State Error) :
    State → Nat → List Item → List Item → State → Item → Prop where
  | here {state : State} {before : Nat} {item : Item} {rest waiting : List Item} :
      Visits step state before (item :: rest) waiting state item
  | done {state next there : State} {before : Nat} {item goal : Item} {rest waiting : List Item}
      (stepped : step state item = .done next) (tail : Visits step next before rest waiting there goal) :
      Visits step state before (item :: rest) waiting there goal
  | later {state next there : State} {before : Nat} {item goal : Item} {rest waiting : List Item}
      (stepped : step state item = .later next)
      (tail : Visits step next before rest (waiting ++ [item]) there goal) :
      Visits step state before (item :: rest) waiting there goal
  | again {state there : State} {before : Nat} {goal : Item} {waiting : List Item}
      (shorter : waiting.length < before)
      (tail : Visits step state waiting.length waiting [] there goal) :
      Visits step state before [] waiting there goal

/-- The passes from the middle of one of them. -/
def resume (step : State → Item → Outcome State Error) (state : State) (before : Nat)
    (rest waiting : List Item) : Except (State × Error) (State × List Item) :=
  match pass step state rest with
  | .error failure => .error failure
  | .ok (last, still) =>
    if (waiting ++ still).length = before then .ok (last, waiting ++ still)
    else run step last (waiting ++ still)

section
variable {before : Nat} {item : Item} {next there : State}

theorem resume_done (stepped : step state item = .done next) :
    resume step state before (item :: rest) waiting = resume step next before rest waiting := by
  rw [resume, pass, stepped, resume]

theorem resume_later (stepped : step state item = .later next) :
    resume step state before (item :: rest) waiting =
      resume step next before rest (waiting ++ [item]) := by
  simp only [resume, pass, stepped]
  cases pass step next rest with
  | error failure => rfl
  | ok result => simp [Except.map]

theorem resume_failed (stepped : step state item = .failed next error) :
    resume step state before (item :: rest) waiting = .error (next, error) := by
  rw [resume, pass, stepped]

theorem resume_nil : resume step state before [] waiting =
    if waiting.length = before then .ok (state, waiting) else run step state waiting := by
  simp only [resume, pass, append_nil]

theorem run_eq_resume : run step state items = resume step state items.length items [] := by
  rw [resume]
  by_cases nonempty : items = []
  · subst nonempty
    rw [run_nil]
    rfl
  · cases passed : pass step state items with
    | error failure => rw [run_error nonempty passed]
    | ok result => exact run_ok nonempty (pass_ok_iff.mp passed)

theorem Visits.mem (visits : Visits step state before rest waiting there item) :
    item ∈ rest ∨ item ∈ waiting := by
  induction visits with
  | here => exact .inl (.head _)
  | done stepped tail ih => exact ih.imp_left (.tail _)
  | later stepped tail ih =>
    rcases ih with inRest | waits
    · exact .inl (.tail _ inRest)
    · rcases mem_append.mp waits with inWaiting | same
      · exact .inr inWaiting
      · exact .inl (mem_singleton.mp same ▸ .head _)
  | again shorter tail ih => exact .inr (ih.resolve_right not_mem_nil)

/-- Behind an item that is done at once the passes go on. -/
theorem Visits.of_done (visits : Visits step state before (item :: rest) waiting there goal)
    (stepped : step state item = .done next) :
    (there = state ∧ goal = item) ∨ Visits step next before rest waiting there goal := by
  cases visits with
  | here => exact .inl ⟨rfl, rfl⟩
  | done other tail =>
    cases other.symm.trans stepped
    exact .inr tail
  | later other tail => cases other.symm.trans stepped

theorem Visits.resume_failed (visits : Visits step state before rest waiting there item)
    (failed : step there item = .failed next error) :
    resume step state before rest waiting = .error (next, error) := by
  induction visits with
  | here => exact Retry.resume_failed failed
  | done stepped tail ih => rw [resume_done stepped, ih failed]
  | later stepped tail ih => rw [resume_later stepped, ih failed]
  | again shorter tail ih => rw [resume_nil, if_neg (Nat.ne_of_lt shorter), run_eq_resume, ih failed]

/-- How the passes end from the middle of one of them. -/
inductive Resumes (step : State → Item → Outcome State Error) : State → Nat → List Item →
    List Item → Except (State × Error) (State × List Item) → Prop where
  | stops {state : State} {waiting : List Item} :
      Resumes step state waiting.length [] waiting (.ok (state, waiting))
  | again {state : State} {before : Nat} {waiting : List Item}
      {outcome : Except (State × Error) (State × List Item)} (shorter : waiting.length < before)
      (tail : Resumes step state waiting.length waiting [] outcome) :
      Resumes step state before [] waiting outcome
  | done {state next : State} {before : Nat} {item : Item} {rest waiting : List Item}
      {outcome : Except (State × Error) (State × List Item)}
      (stepped : step state item = .done next) (tail : Resumes step next before rest waiting outcome) :
      Resumes step state before (item :: rest) waiting outcome
  | later {state next : State} {before : Nat} {item : Item} {rest waiting : List Item}
      {outcome : Except (State × Error) (State × List Item)}
      (stepped : step state item = .later next)
      (tail : Resumes step next before rest (waiting ++ [item]) outcome) :
      Resumes step state before (item :: rest) waiting outcome
  | failed {state next : State} {before : Nat} {item : Item} {rest waiting : List Item}
      {error : Error} (stepped : step state item = .failed next error) :
      Resumes step state before (item :: rest) waiting (.error (next, error))

theorem resumes (fits : waiting.length + rest.length ≤ before) :
    Resumes step state before rest waiting (resume step state before rest waiting) := by
  induction before using Nat.strong_induction_on generalizing state rest waiting with
  | _ before passes =>
    induction rest generalizing state waiting with
    | nil =>
      rw [resume_nil]
      split
      · next same =>
        rw [← same]
        exact .stops
      · next progress =>
        have shorter : waiting.length < before := Nat.lt_of_le_of_ne fits progress
        rw [run_eq_resume]
        exact .again shorter (passes _ shorter (by simp))
    | cons item rest ih =>
      simp only [length_cons] at fits
      cases stepped : step state item with
      | done next =>
        rw [resume_done stepped]
        exact .done stepped (ih (by omega))
      | later next =>
        rw [resume_later stepped]
        exact .later stepped (ih (by simp only [length_append, length_singleton]; omega))
      | failed next error =>
        rw [resume_failed stepped]
        exact .failed stepped

theorem resumes_run : Resumes step state items.length items [] (run step state items) := by
  rw [run_eq_resume]
  exact resumes (by simp)

/-- A run that fails does so at some item that it comes to. -/
theorem exists_visit_of_error {failure : State × Error} (ran : run step state items = .error failure) :
    ∃ there item, Visits step state items.length items [] there item ∧
      step there item = .failed failure.1 failure.2 := by
  have resumed : Resumes step state items.length items [] (run step state items) := resumes_run
  rw [ran] at resumed
  clear ran
  generalize items.length = before, ([] : List Item) = waiting,
    ended : Except.error failure = outcome at resumed
  induction resumed with
  | stops => cases ended
  | again shorter tail ih =>
    obtain ⟨there, item, visits, fails⟩ := ih ended
    exact ⟨there, item, .again shorter visits, fails⟩
  | done stepped tail ih =>
    obtain ⟨there, item, visits, fails⟩ := ih ended
    exact ⟨there, item, .done stepped visits, fails⟩
  | later stepped tail ih =>
    obtain ⟨there, item, visits, fails⟩ := ih ended
    exact ⟨there, item, .later stepped visits, fails⟩
  | failed stepped =>
    cases ended
    exact ⟨_, _, .here, stepped⟩

variable {Inv : State → Prop}

theorem Resumes.final_of_visits (resumed : Resumes step state before rest waiting outcome)
    (kept : ∀ here item, Inv here → Visits step state before rest waiting here item →
      Inv (step here item).state)
    (start : Inv state) : Inv (finalState outcome) := by
  induction resumed with
  | stops => exact start
  | again shorter tail ih =>
    exact ih (fun here item inv visits => kept here item inv (.again shorter visits)) start
  | done stepped tail ih =>
    have next := kept _ _ start .here
    rw [stepped] at next
    exact ih (fun here item inv visits => kept here item inv (.done stepped visits)) next
  | later stepped tail ih =>
    have next := kept _ _ start .here
    rw [stepped] at next
    exact ih (fun here item inv visits => kept here item inv (.later stepped visits)) next
  | failed stepped =>
    have next := kept _ _ start .here
    rwa [stepped] at next

/-- What holds at first, and is kept wherever the passes come by, holds at the end. -/
theorem final_of_visits (kept : ∀ here item, Inv here →
      Visits step state items.length items [] here item → Inv (step here item).state)
    (start : Inv state) : Inv (finalState (run step state items)) :=
  resumes_run.final_of_visits kept start

section
variable (kept : ∀ state item, Inv state → Inv (step state item).state)
include kept

/-- What every outcome of a step keeps holds at the end, failed or not. -/
theorem run_keeps (start : Inv state) : Inv (finalState (run step state items)) :=
  final_of_visits (fun here item inv _ => kept here item inv) start

/-- What holds after an item that the passes come to, and is kept by every
outcome, holds at the end. -/
theorem Visits.final (visits : Visits step state items.length items [] there item)
    (start : Inv (step there item).state) : Inv (finalState (run step state items)) := by
  have resumed : Resumes step state items.length items [] (run step state items) := resumes_run
  generalize run step state items = outcome at resumed
  generalize items.length = before, ([] : List Item) = waiting at visits resumed
  induction visits with
  | here =>
    cases resumed with
    | done stepped tail =>
      rw [stepped] at start
      exact tail.final_of_visits (fun here item inv _ => kept here item inv) start
    | later stepped tail =>
      rw [stepped] at start
      exact tail.final_of_visits (fun here item inv _ => kept here item inv) start
    | failed stepped => rwa [stepped] at start
  | done stepped tail ih =>
    cases resumed with
    | done other resumed =>
      cases other.symm.trans stepped
      exact ih start resumed
    | later other _ => cases other.symm.trans stepped
    | failed other => cases other.symm.trans stepped
  | later stepped tail ih =>
    cases resumed with
    | done other _ => cases other.symm.trans stepped
    | later other resumed =>
      cases other.symm.trans stepped
      exact ih start resumed
    | failed other => cases other.symm.trans stepped
  | again shorter tail ih =>
    cases resumed with
    | stops => exact (Nat.lt_irrefl _ shorter).elim
    | again _ resumed => exact ih start resumed

end

/-- What an observer who sees every outcome sees of the passes. -/
theorem visits_view_iff {View : Type} {view : State → View} {watched : View → Item → Outcome View Unit}
    (observes : ∀ state item, watched (view state) item = (step state item).map view) {seen : View} :
    Visits watched (view state) before rest waiting seen item ↔
      ∃ there, Visits step state before rest waiting there item ∧ view there = seen := by
  constructor
  · intro visits
    generalize start : view state = shown at visits
    induction visits generalizing state with
    | here => exact ⟨state, .here, start⟩
    | @done shown next _ before head _ rest waiting stepped tail ih =>
      rw [← start, observes] at stepped
      cases outcome : step state head with
      | done after =>
        rw [outcome] at stepped
        obtain ⟨there, visits, same⟩ := ih (Outcome.done.inj stepped)
        exact ⟨there, .done outcome visits, same⟩
      | later after => rw [outcome] at stepped; cases stepped
      | failed after error => rw [outcome] at stepped; cases stepped
    | @later shown next _ before head _ rest waiting stepped tail ih =>
      rw [← start, observes] at stepped
      cases outcome : step state head with
      | done after => rw [outcome] at stepped; cases stepped
      | later after =>
        rw [outcome] at stepped
        obtain ⟨there, visits, same⟩ := ih (Outcome.later.inj stepped)
        exact ⟨there, .later outcome visits, same⟩
      | failed after error => rw [outcome] at stepped; cases stepped
    | again shorter tail ih =>
      obtain ⟨there, visits, same⟩ := ih start
      exact ⟨there, .again shorter visits, same⟩
  · rintro ⟨there, visits, rfl⟩
    induction visits with
    | here => exact .here
    | @done _ _ _ _ head _ _ _ stepped tail ih =>
      exact .done (by rw [observes, stepped]; rfl) ih
    | later stepped tail ih => exact .later (by rw [observes, stepped]; rfl) ih
    | again shorter tail ih => exact .again shorter ih

/-- What holds at first and is kept by every step that the passes take holds
wherever they come by. -/
theorem Visits.invariant (visits : Visits step state before rest waiting there item)
    (kept : ∀ here other next, Inv here → Visits step state before rest waiting here other →
      (step here other).Proceeds next → Inv next)
    (start : Inv state) : Inv there := by
  induction visits with
  | here => exact start
  | done stepped tail ih =>
    exact ih (fun here other next inv visits => kept here other next inv (.done stepped visits))
      (kept _ _ _ start .here (.inl stepped))
  | later stepped tail ih =>
    exact ih (fun here other next inv visits => kept here other next inv (.later stepped visits))
      (kept _ _ _ start .here (.inr stepped))
  | again shorter tail ih =>
    exact ih (fun here other next inv visits => kept here other next inv (.again shorter visits)) start

end

end Retry
