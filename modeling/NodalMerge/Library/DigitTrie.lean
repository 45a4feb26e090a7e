import Mathlib.Data.Finset.Basic
import Mathlib.Data.Finset.Card
import Mathlib.Tactic

namespace DigitTrie

open Finset List

variable {Key Digit : Type} (digit : Key → Nat → Digit)

/-- The first digits of a key. -/
def route (depth : Nat) (key : Key) : List Digit := (List.range depth).map (digit key)

theorem route_succ (depth : Nat) (key : Key) :
    route digit (depth + 1) key = route digit depth key ++ [digit key depth] := by
  rw [route, range_succ, map_append]
  rfl

theorem take_route {length : Nat} (shallow : depth ≤ length) (key : Key) :
    (route digit length key).take depth = route digit depth key := by
  rw [route, ← map_take, take_range, Nat.min_eq_left shallow]
  rfl

theorem route_eq_child {digit : Key → Nat → Digit} {path : List Digit} {last : Digit} {key : Key} :
    route digit (path ++ [last]).length key = path ++ [last] ↔
      route digit path.length key = path ∧ digit key path.length = last := by
  rw [length_append, length_singleton, route_succ]
  constructor
  · intro same
    obtain ⟨front, tail⟩ := append_inj' same rfl
    exact ⟨front, (List.cons.inj tail).1⟩
  · rintro ⟨front, tail⟩
    rw [front, tail]

variable [DecidableEq Digit]

/-- The keys whose digits begin with the path. -/
def under (keys : Finset Key) (path : List Digit) : Finset Key :=
  keys.filter fun key => route digit path.length key = path

/-- The path is the root or the child of a branching path, and some key is below it. -/
structure Placed (keys : Finset Key) (path : List Digit) : Prop where
  occupied : (under digit keys path).Nonempty
  branches : ∀ parent last, path = parent ++ [last] → 2 ≤ (under digit keys parent).card

variable {digit} {keys others : Finset Key} {path : List Digit} {key : Key} {last : Digit}

theorem mem_under : key ∈ under digit keys path ↔ key ∈ keys ∧ route digit path.length key = path :=
  mem_filter

@[simp] theorem under_nil : under digit keys [] = keys :=
  filter_true_of_mem fun _ _ => rfl

theorem mem_under_child : key ∈ under digit keys (path ++ [last]) ↔
    key ∈ under digit keys path ∧ digit key path.length = last := by
  rw [mem_under, mem_under, route_eq_child, and_assoc]

theorem mem_under_digit (member : key ∈ under digit keys path) :
    key ∈ under digit keys (path ++ [digit key path.length]) :=
  mem_under_child.mpr ⟨member, rfl⟩

theorem under_child_subset : under digit keys (path ++ [last]) ⊆ under digit keys path :=
  fun _ member => (mem_under_child.mp member).1

theorem under_append_subset (rest : List Digit) :
    under digit keys (path ++ rest) ⊆ under digit keys path := by
  induction rest using reverseRecOn with
  | nil => simp
  | append_singleton rest last ih =>
    rw [← append_assoc]
    exact under_child_subset.trans ih

theorem under_subset : under digit keys path ⊆ keys := filter_subset _ _

/-- Keys that agree below a path agree below every path that extends it. -/
theorem under_append_congr (same : under digit keys path = under digit others path)
    (rest : List Digit) : under digit keys (path ++ rest) = under digit others (path ++ rest) := by
  have included {first second : Finset Key}
      (same : under digit first path = under digit second path) :
      under digit first (path ++ rest) ⊆ under digit second (path ++ rest) := by
    intro key member
    have above := under_append_subset rest member
    rw [same] at above
    exact mem_under.mpr ⟨under_subset above, (mem_under.mp member).2⟩
  exact (included same).antisymm (included same.symm)

theorem under_sdiff [DecidableEq Key] :
    under digit (keys \ others) path = under digit keys path \ under digit others path := by
  ext key
  simp only [mem_sdiff, mem_under]
  tauto

/-- Keys that differ within `depth` digits are alone from that depth on. -/
theorem card_under_le_one (apart : Function.Injective (route digit depth))
    (deep : depth ≤ path.length) : (under digit keys path).card ≤ 1 := by
  refine card_le_one.mpr ?_
  intro first firstMember second secondMember
  apply apart
  rw [← take_route digit deep, ← take_route digit deep, (mem_under.mp firstMember).2,
    (mem_under.mp secondMember).2]

theorem placed_nil : Placed digit keys [] ↔ keys.Nonempty := by
  constructor
  · intro placed
    simpa using placed.occupied
  · intro occupied
    exact ⟨by simpa using occupied, by simp⟩

theorem placed_child : Placed digit keys (path ++ [last]) ↔
    2 ≤ (under digit keys path).card ∧ (under digit keys (path ++ [last])).Nonempty := by
  constructor
  · intro placed
    exact ⟨placed.branches path last rfl, placed.occupied⟩
  · rintro ⟨branching, occupied⟩
    refine ⟨occupied, ?_⟩
    intro parent final same
    obtain ⟨rfl, -⟩ := append_inj' same rfl
    exact branching

theorem placed_of_branching (branching : 2 ≤ (under digit keys path).card) :
    Placed digit keys path := by
  refine ⟨card_pos.mp (by omega), ?_⟩
  rintro parent last rfl
  exact branching.trans (card_le_card under_child_subset)

/-- Reports that stay below the children of a path are right for the path exactly
when they are right for each child. -/
theorem exact_iff_children {reported : Digit → Key → Prop}
    (stays : ∀ last key, reported last key → digit key path.length = last) :
    (∀ key, (∃ last, reported last key) ↔ key ∈ under digit keys path) ↔
      ∀ last key, reported last key ↔ key ∈ under digit keys (path ++ [last]) := by
  constructor
  · intro whole last key
    constructor
    · intro report
      exact mem_under_child.mpr ⟨(whole key).mp ⟨last, report⟩, stays last key report⟩
    · intro member
      obtain ⟨other, report⟩ := (whole key).mpr (under_child_subset member)
      obtain rfl : other = last :=
        (stays other key report).symm.trans (mem_under_child.mp member).2
      exact report
  · intro each key
    constructor
    · rintro ⟨last, report⟩
      exact under_child_subset ((each last key).mp report)
    · intro member
      exact ⟨_, (each _ key).mpr (mem_under_digit member)⟩

end DigitTrie
