import Mathlib.Data.List.Perm.Basic
import Mathlib.Order.Basic
import Mathlib.Tactic

namespace LastWriter

open List

variable {Value Priority : Type} [LinearOrder Priority] (priority : Value → Priority)

def keep (current : Option Value) (candidate : Value) : Option Value :=
  match current with
  | none => some candidate
  | some value => if priority value < priority candidate then some candidate else some value

/-- The value that survives a scan of all candidates. -/
def winner (candidates : List Value) : Option Value := candidates.foldl (keep priority) none

/-- The first of the best candidates. -/
def IsWinner (value : Value) (candidates : List Value) : Prop :=
  ∃ front back, candidates = front ++ value :: back ∧
    (∀ other ∈ front, priority other < priority value) ∧
    ∀ other ∈ back, priority other ≤ priority value

variable {priority} {value : Value} {candidates : List Value}

theorem keep_lower (lower : priority candidate ≤ priority value) :
    keep priority (some value) candidate = some value := by
  simp [keep, not_lt.mpr lower]

theorem keep_higher (higher : priority value < priority candidate) :
    keep priority (some value) candidate = some candidate := by
  simp [keep, higher]

/-- Candidates with different priorities may be offered in either order. -/
theorem keep_comm (distinct : priority first ≠ priority second) (current : Option Value) :
    keep priority (keep priority current first) second =
      keep priority (keep priority current second) first := by
  cases current with
  | none =>
    rcases lt_or_gt_of_ne distinct with less | greater
    · exact (keep_higher less).trans (keep_lower less.le).symm
    · exact (keep_lower greater.le).trans (keep_higher greater).symm
  | some value =>
    by_cases beatsFirst : priority value < priority first <;>
      by_cases beatsSecond : priority value < priority second
    · rw [keep_higher beatsFirst, keep_higher beatsSecond]
      rcases lt_or_gt_of_ne distinct with less | greater
      · rw [keep_higher less, keep_lower less.le]
      · rw [keep_lower greater.le, keep_higher greater]
    · rw [keep_higher beatsFirst, keep_lower (not_lt.mp beatsSecond), keep_higher beatsFirst,
        keep_lower ((not_lt.mp beatsSecond).trans beatsFirst.le)]
    · rw [keep_lower (not_lt.mp beatsFirst), keep_higher beatsSecond,
        keep_lower ((not_lt.mp beatsFirst).trans beatsSecond.le)]
    · rw [keep_lower (not_lt.mp beatsFirst), keep_lower (not_lt.mp beatsSecond),
        keep_lower (not_lt.mp beatsFirst)]

theorem winner_append (front back : List Value) :
    winner priority (front ++ back) = back.foldl (keep priority) (winner priority front) :=
  foldl_append

theorem winner_eq_none_iff : winner priority candidates = none ↔ candidates = [] := by
  induction candidates using reverseRecOn with
  | nil => simp [winner]
  | append_singleton front last _ =>
    rw [winner_append]
    cases winner priority front with
    | none => simp [keep]
    | some value =>
      simp only [foldl_cons, foldl_nil, keep]
      split <;> simp

theorem IsWinner.mem (wins : IsWinner priority value candidates) : value ∈ candidates := by
  obtain ⟨front, back, rfl, _⟩ := wins
  simp

theorem IsWinner.le (wins : IsWinner priority value candidates) :
    ∀ other ∈ candidates, priority other ≤ priority value := by
  obtain ⟨front, back, rfl, lower, notHigher⟩ := wins
  intro other member
  rcases mem_append.mp member with earlier | later
  · exact (lower other earlier).le
  · rcases mem_cons.mp later with rfl | later
    · exact le_refl _
    · exact notHigher other later

theorem isWinner_of_winner (found : winner priority candidates = some value) :
    IsWinner priority value candidates := by
  induction candidates using reverseRecOn generalizing value with
  | nil => simp [winner] at found
  | append_singleton front last ih =>
    rw [winner_append, foldl_cons, foldl_nil] at found
    cases current : winner priority front with
    | none =>
      rw [current] at found
      obtain rfl : last = value := by simpa [keep] using found
      exact ⟨front, [], rfl, by simp [winner_eq_none_iff.mp current], by simp⟩
    | some best =>
      have wins := ih current
      rw [current] at found
      by_cases higher : priority best < priority last
      · rw [keep_higher higher, Option.some.injEq] at found
        subst found
        exact ⟨front, [], rfl, fun other member => (wins.le other member).trans_lt higher, by simp⟩
      · rw [keep_lower (not_lt.mp higher), Option.some.injEq] at found
        subst found
        obtain ⟨before, after, rfl, lower, notHigher⟩ := wins
        refine ⟨before, after ++ [last], by simp, lower, ?_⟩
        intro other member
        rcases mem_append.mp member with earlier | same
        · exact notHigher other earlier
        · obtain rfl : other = last := by simpa using same
          exact not_lt.mp higher

theorem foldl_keep_lower (lower : ∀ other ∈ candidates, priority other ≤ priority value) :
    candidates.foldl (keep priority) (some value) = some value := by
  induction candidates with
  | nil => rfl
  | cons head rest ih =>
    rw [foldl_cons, keep_lower (lower head (by simp))]
    exact ih fun other member => lower other (by simp [member])

/-- A candidate above the current value wins against later ones that are not higher. -/
theorem foldl_keep_first (beats : ∀ value ∈ current, priority value < priority first)
    (lower : ∀ other ∈ rest, priority other ≤ priority first) :
    (first :: rest).foldl (keep priority) current = some first := by
  have taken : keep priority current first = some first := by
    cases current with
    | none => rfl
    | some value => exact keep_higher (beats value rfl)
  rw [foldl_cons, taken]
  exact foldl_keep_lower lower

/-- The scan selects the first of the best. -/
theorem winner_eq_some_iff : winner priority candidates = some value ↔
    IsWinner priority value candidates := by
  constructor
  · exact isWinner_of_winner
  · rintro ⟨front, back, rfl, lower, notHigher⟩
    rw [winner_append]
    exact foldl_keep_first (fun best found => lower best (isWinner_of_winner found).mem) notHigher

section
variable {Item : Type} {writes : Item → List Value} {level : Item → Priority}

/-- The first candidate of an item above those in front of it and not below
those behind it. -/
theorem winner_flatMap
    (levels : ∀ other ∈ front ++ item :: back, ∀ write ∈ writes other, priority write = level other)
    (first : (writes item).head? = some value)
    (lower : ∀ other ∈ front, writes other ≠ [] → level other < level item)
    (notHigher : ∀ other ∈ back, writes other ≠ [] → level other ≤ level item) :
    winner priority ((front ++ item :: back).flatMap writes) = some value := by
  obtain ⟨rest, offers⟩ : ∃ rest, writes item = value :: rest := List.head?_eq_some_iff.mp first
  have valueLevel : priority value = level item :=
    levels item (by simp) value (by rw [offers]; exact .head _)
  refine winner_eq_some_iff.mpr ⟨front.flatMap writes, rest ++ back.flatMap writes,
    by simp [offers], fun other member => ?_, fun other member => ?_⟩
  · obtain ⟨owner, inFront, offered⟩ := mem_flatMap.mp member
    rw [levels owner (by simp [inFront]) other offered, valueLevel]
    exact lower owner inFront (ne_nil_of_mem offered)
  · rcases mem_append.mp member with inRest | inBack
    · rw [levels item (by simp) other (by rw [offers]; exact .tail _ inRest), valueLevel]
    · obtain ⟨owner, owned, offered⟩ := mem_flatMap.mp inBack
      rw [levels owner (by simp [owned]) other offered, valueLevel]
      exact notHigher owner owned (ne_nil_of_mem offered)

/-- Where every item offers candidates of one priority, the winner is the first
candidate of the first of the best items. -/
theorem exists_of_winner_flatMap
    (levels : ∀ item ∈ items, ∀ write ∈ writes item, priority write = level item)
    (found : winner priority (items.flatMap writes) = some value) :
    ∃ front item back, items = front ++ item :: back ∧ (writes item).head? = some value ∧
      (∀ other ∈ front, writes other ≠ [] → level other < level item) ∧
      ∀ other ∈ back, writes other ≠ [] → level other ≤ level item := by
  classical
  have wins := isWinner_of_winner found
  have atMost {item : Item} (member : item ∈ items) (nonempty : writes item ≠ []) :
      level item ≤ priority value := by
    obtain ⟨write, rest, offers⟩ := exists_cons_of_ne_nil nonempty
    have inside : write ∈ writes item := by rw [offers]; exact .head _
    rw [← levels item member write inside]
    exact wins.le write (mem_flatMap.mpr ⟨item, member, inside⟩)
  -- The first item that offers the winner's priority.
  obtain ⟨item, isFirst⟩ : ∃ item, items.find? (fun item =>
      decide (writes item ≠ [] ∧ level item = priority value)) = some item := by
    rw [← Option.isSome_iff_exists, List.find?_isSome]
    obtain ⟨item, member, offers⟩ := mem_flatMap.mp wins.mem
    exact ⟨item, member, decide_eq_true
      ⟨ne_nil_of_mem offers, (levels item member value offers).symm⟩⟩
  obtain ⟨isBest, front, back, rfl, others⟩ := List.find?_eq_some_iff_append.mp isFirst
  obtain ⟨nonempty, top⟩ := of_decide_eq_true isBest
  have lower : ∀ other ∈ front, writes other ≠ [] → level other < level item := by
    intro other inFront offers
    rw [top]
    refine lt_of_le_of_ne (atMost (by simp [inFront]) offers) fun same => ?_
    simpa [offers, same] using others other inFront
  have notHigher : ∀ other ∈ back, writes other ≠ [] → level other ≤ level item := by
    intro other inBack offers
    rw [top]
    exact atMost (by simp [inBack]) offers
  obtain ⟨write, rest, offers⟩ := exists_cons_of_ne_nil nonempty
  have head : (writes item).head? = some write := by rw [offers]; rfl
  have same := (winner_flatMap levels head lower notHigher).symm.trans found
  exact ⟨front, item, back, rfl, head.trans same, lower, notHigher⟩

end

/-- Candidates that lose anyway may be added anywhere. -/
theorem winner_insert_lower (found : winner priority (front ++ back) = some value)
    (lower : ∀ other ∈ extra, priority other < priority value) :
    winner priority (front ++ extra ++ back) = some value := by
  obtain ⟨before, after, split, earlier, later⟩ := winner_eq_some_iff.mp found
  apply winner_eq_some_iff.mpr
  rcases append_eq_append_iff.mp split with ⟨middle, rfl, rfl⟩ | ⟨middle, rfl, tail⟩
  · refine ⟨front ++ extra ++ middle, after, by simp, ?_, later⟩
    intro other member
    simp only [mem_append] at member
    rcases member with (inFront | inExtra) | inMiddle
    · exact earlier other (by simp [inFront])
    · exact lower other inExtra
    · exact earlier other (by simp [inMiddle])
  · cases middle with
    | nil =>
      obtain rfl : back = value :: after := by simpa using tail.symm
      refine ⟨before ++ extra, after, by simp, ?_, later⟩
      intro other member
      rcases mem_append.mp member with inBefore | inExtra
      · exact earlier other inBefore
      · exact lower other inExtra
    | cons head rest =>
      obtain ⟨rfl, rfl⟩ : value = head ∧ after = rest ++ back := by simpa using tail
      refine ⟨before, rest ++ extra ++ back, by simp, earlier, ?_⟩
      intro other member
      simp only [mem_append] at member
      rcases member with (inRest | inExtra) | inBack
      · exact later other (by simp [inRest])
      · exact (lower other inExtra).le
      · exact later other (by simp [inBack])

/-- Letting more items into the scan changes nothing when all they add loses. -/
theorem winner_filter_lower {Item : Type} {writes : Item → List Value} {old new : Item → Bool}
    {items : List Item} (front : List Value) (wider : ∀ item, old item = true → new item = true)
    (found : winner priority (front ++ (items.filter old).flatMap writes) = some value)
    (lower : ∀ item ∈ items, old item = false → new item = true →
      ∀ write ∈ writes item, priority write < priority value) :
    winner priority (front ++ (items.filter new).flatMap writes) = some value := by
  induction items generalizing front with
  | nil => exact found
  | cons item rest ih =>
    have later : ∀ item ∈ rest, old item = false → new item = true →
        ∀ write ∈ writes item, priority write < priority value :=
      fun item member => lower item (by simp [member])
    cases inOld : old item with
    | true =>
      have inNew := wider item inOld
      simp only [filter_cons, inOld, inNew, ↓reduceIte, flatMap_cons,
        ← append_assoc] at found ⊢
      exact ih _ found later
    | false =>
      simp only [filter_cons, inOld, Bool.false_eq_true, ↓reduceIte] at found
      cases inNew : new item with
      | true =>
        simp only [filter_cons, inNew, ↓reduceIte, flatMap_cons, ← append_assoc]
        exact ih _ (winner_insert_lower found (lower item (by simp) inOld inNew)) later
      | false =>
        simp only [filter_cons, inNew, Bool.false_eq_true, ↓reduceIte]
        exact ih _ found later

end LastWriter
