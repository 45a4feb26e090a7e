import Mathlib.Data.List.Basic
import Mathlib.Tactic

namespace ClockLog

open List

structure Tally (Payload : Type) where
  clock : Nat
  used : List (Nat × Payload)

namespace Tally

variable {Payload : Type} {tally : Tally Payload}

/-- The next value goes to the payload. -/
def use (tally : Tally Payload) (payload : Payload) : Tally Payload :=
  ⟨tally.clock + 1, tally.used ++ [(tally.clock + 1, payload)]⟩

/-- The clock is set to a value. -/
def move (tally : Tally Payload) (clock : Nat) : Tally Payload := ⟨clock, tally.used⟩

/-- No value went to two different payloads. -/
def Distinct (tally : Tally Payload) : Prop :=
  tally.used.Pairwise fun first second => first.2 ≠ second.2 → first.1 ≠ second.1

/-- The values were handed out in order and none of them is above the clock. -/
structure Ordered (tally : Tally Payload) : Prop where
  increasing : tally.used.Pairwise fun first second => first.1 < second.1
  covered : ∀ entry ∈ tally.used, entry.1 ≤ tally.clock

theorem Ordered.distinct (ordered : tally.Ordered) : tally.Distinct := by
  refine ordered.increasing.imp ?_
  intro first second less _
  exact Nat.ne_of_lt less

theorem Ordered.use (ordered : tally.Ordered) (payload : Payload) :
    (tally.use payload).Ordered := by
  constructor
  · refine pairwise_append.mpr ⟨ordered.increasing, pairwise_singleton _ _, ?_⟩
    intro entry member last inLast
    rw [mem_singleton.mp inLast]
    exact Nat.lt_succ_of_le (ordered.covered entry member)
  · intro entry member
    rcases mem_append.mp member with old | new
    · exact Nat.le_succ_of_le (ordered.covered entry old)
    · rw [mem_singleton.mp new]
      exact le_rfl

theorem Ordered.move {clock : Nat} (ordered : tally.Ordered)
    (covered : ∀ entry ∈ tally.used, entry.1 ≤ clock) : (tally.move clock).Ordered :=
  ⟨ordered.increasing, covered⟩

/-- A value that was handed out before is handed out again. -/
theorem not_distinct_use (member : entry ∈ tally.used) (next : entry.1 = tally.clock + 1)
    (differs : entry.2 ≠ payload) : ¬ (tally.use payload).Distinct := by
  intro distinct
  obtain ⟨-, -, apart⟩ := pairwise_append.mp distinct
  exact apart entry member _ (mem_singleton_self _) differs next

end Tally

end ClockLog
