import Mathlib.Data.List.Perm.Basic
import Mathlib.Data.List.Pairwise
import Mathlib.Tactic

namespace Confluence

open List

variable {State Event : Type} (apply : State → Event → State)
variable (Enabled : State → Event → Prop)

/-- Every event of the sequence is enabled in the state it is applied to. -/
def Valid : State → List Event → Prop
  | _, [] => True
  | state, event :: rest => Enabled state event ∧ Valid (apply state event) rest

/-- Independent enabled events stay enabled after each other and commute. -/
structure Commuting (Independent : Event → Event → Prop) : Prop where
  stays : ∀ {state first second}, Independent first second →
    Enabled state first → Enabled state second → Enabled (apply state first) second
  swaps : ∀ {state first second}, Independent first second →
    Enabled state first → Enabled state second →
    apply (apply state first) second = apply (apply state second) first

variable {apply Enabled} {Independent : Event → Event → Prop}

theorem Valid.append {state : State} {front back : List Event} :
    Valid apply Enabled state (front ++ back) ↔
      Valid apply Enabled state front ∧ Valid apply Enabled (front.foldl apply state) back := by
  induction front generalizing state with
  | nil => simp [Valid]
  | cons event rest ih => simp [Valid, ih, and_assoc]

/-- An event enabled at the start may be moved to the front of a valid run. -/
theorem Commuting.front (commuting : Commuting apply Enabled Independent) {front : List Event}
    (enabled : Enabled state event)
    (independent : ∀ other ∈ front, Independent other event ∧ Independent event other)
    (valid : Valid apply Enabled state front) :
    apply (front.foldl apply state) event = front.foldl apply (apply state event) ∧
      Valid apply Enabled (apply state event) front := by
  induction front generalizing state with
  | nil => exact ⟨rfl, trivial⟩
  | cons other rest ih =>
    obtain ⟨otherEnabled, restValid⟩ := valid
    obtain ⟨before, after⟩ := independent other (by simp)
    have eventStays := commuting.stays before otherEnabled enabled
    have otherStays := commuting.stays after enabled otherEnabled
    have swapped := commuting.swaps before otherEnabled enabled
    obtain ⟨same, moved⟩ := ih eventStays
      (fun later member => independent later (by simp [member])) restValid
    rw [swapped] at same moved
    exact ⟨same, otherStays, moved⟩

/-- All valid orders of pairwise independent events end in the same state. -/
theorem Commuting.foldl_eq (commuting : Commuting apply Enabled Independent)
    (symmetric : ∀ {first second}, Independent first second → Independent second first)
    (same : events.Perm others) (independent : events.Pairwise Independent)
    (valid : Valid apply Enabled state events) (validOthers : Valid apply Enabled state others) :
    events.foldl apply state = others.foldl apply state := by
  induction events generalizing state others with
  | nil => simp [nil_perm.mp same]
  | cons event rest ih =>
    obtain ⟨enabled, restValid⟩ := valid
    obtain ⟨headIndependent, restIndependent⟩ := pairwise_cons.mp independent
    obtain ⟨front, back, split⟩ := append_of_mem (same.subset (mem_cons_self ..))
    subst split
    have remaining : rest.Perm (front ++ back) :=
      (perm_cons event).mp (same.trans perm_middle)
    obtain ⟨frontValid, backValid⟩ := Valid.append.mp validOthers
    have frontIndependent : ∀ other ∈ front, Independent other event ∧ Independent event other := by
      intro other member
      have later := headIndependent other (remaining.symm.subset (by simp [member]))
      exact ⟨symmetric later, later⟩
    obtain ⟨moved, movedValid⟩ := commuting.front enabled frontIndependent frontValid
    have tailValid : Valid apply Enabled (apply state event) (front ++ back) := by
      refine Valid.append.mpr ⟨movedValid, ?_⟩
      rw [← moved]
      exact backValid.2
    have finish := ih remaining restIndependent restValid tailValid
    simp only [foldl_cons, finish, foldl_append, moved]

section
variable {Block Op : Type} {step : State → Op → State}

theorem foldl_past {ops : List Op}
    (commute : ∀ two ∈ ops, ∀ state, step (step state one) two = step (step state two) one)
    (state : State) : ops.foldl step (step state one) = step (ops.foldl step state) one := by
  induction ops generalizing state with
  | nil => rfl
  | cons two rest ih =>
    rw [foldl_cons, commute two (by simp) state, foldl_cons]
    exact ih (fun other member => commute other (by simp [member])) _

theorem foldl_swap {first second : List Op} (commute : ∀ one ∈ first, ∀ two ∈ second, ∀ state,
      step (step state one) two = step (step state two) one) (state : State) :
    second.foldl step (first.foldl step state) = first.foldl step (second.foldl step state) := by
  induction first generalizing state with
  | nil => rfl
  | cons one rest ih =>
    rw [foldl_cons, ih fun other member => commute other (by simp [member]),
      foldl_past (commute one (by simp)), foldl_cons]

/-- Blocks whose operations commute pairwise may be applied in any order. -/
theorem foldl_flatMap_perm {Independent : Block → Block → Prop}
    (symmetric : ∀ {first second}, Independent first second → Independent second first)
    (commute : ∀ {first second}, Independent first second →
      ∀ one ∈ ops first, ∀ two ∈ ops second, ∀ state,
        step (step state one) two = step (step state two) one) {blocks : List Block}
    (same : blocks.Perm others) (independent : blocks.Pairwise Independent) (state : State) :
    (blocks.flatMap ops).foldl step state = (others.flatMap ops).foldl step state := by
  let apply (state : State) (block : Block) : State := (ops block).foldl step state
  have always (blocks : List Block) (state : State) :
      Valid apply (fun _ _ => True) state blocks := by
    induction blocks generalizing state with
    | nil => trivial
    | cons block rest ih => exact ⟨trivial, ih _⟩
  have blockwise (blocks : List Block) (state : State) :
      (blocks.flatMap ops).foldl step state = blocks.foldl apply state := by
    rw [foldl_flatMap]
  have commuting : Commuting apply (fun _ _ => True) Independent :=
    ⟨fun _ _ _ => trivial, fun pair _ _ => foldl_swap (commute pair) _⟩
  rw [blockwise, blockwise]
  exact commuting.foldl_eq symmetric same independent (always _ _) (always _ _)

end

end Confluence
