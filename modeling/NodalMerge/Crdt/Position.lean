import NodalMerge.Crdt.Op

namespace NodalMerge.FracIdx

open List Option String

def alphabet : List Char :=
  "0123456789ABCDEFGHIJKLMNOPQRSTUVWXYZabcdefghijklmnopqrstuvwxyz".toList

def radix : Nat := 62

def val (c : Char) : Option Nat :=
  if 48 ≤ c.toNat ∧ c.toNat ≤ 57 then some (c.toNat - 48)
  else if 65 ≤ c.toNat ∧ c.toNat ≤ 90 then some (c.toNat - 65 + 10)
  else if 97 ≤ c.toNat ∧ c.toNat ≤ 122 then some (c.toNat - 97 + 36)
  else none

def ch (v : Nat) : Option Char := alphabet[v]?

/-- The position of the very first insert. -/
def first : FracIdx := "V"

/-- The first digit below the greatest one moves half way up. -/
def betweenUnboundedAbove : List Char → Option (List Char)
  | [] => do return [← ch (radix / 2)]
  | digit :: left => do
    let d ← val digit
    if d < radix - 1 then return [← ch ((d + radix) / 2)]
    else return digit :: (← betweenUnboundedAbove left)

/-- The digits from the first position on at which `left` and `right` differ. -/
def betweenBounded : List Char → List Char → Option (List Char)
  | _, [] => none
  | [], b :: right => do
    let rb ← val b
    if 2 ≤ rb then return [← ch (rb / 2)]
    else if rb = 0 then return (← ch 0) :: (← betweenBounded [] right)
    else return [← ch 0, ← ch (radix / 2)]
  | a :: left, b :: right => do
    let la ← val a
    let rb ← val b
    if la = rb then return (← ch la) :: (← betweenBounded left right)
    else if rb < la then none
    else if 2 ≤ rb - la then return [← ch ((la + rb) / 2)]
    else return (← ch la) :: (← betweenUnboundedAbove left)

def betweenRaw (left : List Char) : Option (List Char) → Option (List Char)
  | none => betweenUnboundedAbove left
  | some right => betweenBounded left right

/-- `between`; `none` is a panic. -/
def between (left right : Option FracIdx) : Option FracIdx :=
  if ∀ l ∈ left, ∀ r ∈ right, l < r then
    (betweenRaw ((left.map String.toList).getD []) (right.map String.toList)).map .ofList
  else none

/-- A position as the list hands it out. -/
structure Position (digits : List Char) : Prop where
  base62 : ∀ digit ∈ digits, (val digit).isSome
  last : ∃ digit, digits.getLast? = some digit ∧ digit ≠ '0'

theorem val_lt_val_iff (isA : val a = some x) (isB : val b = some y) : x < y ↔ a < b := by
  change x < y ↔ a.toNat < b.toNat
  unfold val at isA isB
  grind

/-- The first digits decide. -/
theorem cons_lt_of_val (isA : val a = some x) (isB : val b = some y) (lower : x < y) :
    a :: left < b :: right :=
  cons_lt_cons_iff.mpr (.inl ((val_lt_val_iff isA isB).mp lower))

theorem cons_lt_cons_of_lt {right : List Char} (lower : left < right) : a :: left < a :: right :=
  cons_lt_cons_iff.mpr (.inr ⟨rfl, lower⟩)

theorem val_inj (isA : val a = some x) (isB : val b = some x) : a = b :=
  le_antisymm (not_lt.mp fun lower => lt_irrefl x ((val_lt_val_iff isB isA).mpr lower))
    (not_lt.mp fun lower => lt_irrefl x ((val_lt_val_iff isA isB).mpr lower))

theorem val_lt_radix (isVal : val c = some x) : x < radix := by
  unfold val at isVal
  unfold radix
  grind

/-- Every value below the radix has a digit. -/
theorem exists_ch (small : v < radix) : ∃ c, ch v = some c ∧ val c = some v := by
  have all : ∀ v : Fin 62, (ch v).bind val = some v.val := by decide
  exact bind_eq_some_iff.mp (all ⟨v, small⟩)

theorem ch_val (isVal : val c = some x) : ch x = some c := by
  obtain ⟨d, isCh, same⟩ := exists_ch (val_lt_radix isVal)
  rw [isCh, val_inj same isVal]

theorem nil_lt_of_ne_nil {digits : List Char} (more : digits ≠ []) : [] < digits := by
  obtain ⟨digit, rest, rfl⟩ := exists_cons_of_ne_nil more
  exact nil_lt_cons ..

theorem ne_zero_of_val (isVal : val c = some x) (positive : 0 < x) : c ≠ '0' := by
  rintro rfl
  rw [← Option.some.inj isVal] at positive
  exact absurd positive (by decide)

theorem Position.single (isVal : val c = some x) (positive : 0 < x) : Position [c] :=
  ⟨by simp [isVal], c, rfl, ne_zero_of_val isVal positive⟩

theorem Position.cons (known : (val c).isSome) (position : Position digits) :
    Position (c :: digits) := by
  obtain ⟨digit, isLast, apart⟩ := position.last
  exact ⟨forall_mem_cons.mpr ⟨known, position.base62⟩, digit, by simp [getLast?_cons, isLast],
    apart⟩

theorem Position.tail (position : Position (c :: digits)) (more : digits ≠ []) :
    Position digits := by
  obtain ⟨digit, isLast, apart⟩ := position.last
  exact ⟨(forall_mem_cons.mp position.base62).2, digit, by
    rwa [getLast?_cons_of_ne_nil more] at isLast, apart⟩

theorem betweenUnboundedAbove_spec {left : List Char}
    (base62 : ∀ digit ∈ left, (val digit).isSome) :
    ∃ out, betweenUnboundedAbove left = some out ∧ Position out ∧ left < out := by
  induction left with
  | nil => exact ⟨['V'], by decide, .single (x := 31) (by decide) (by decide), by decide⟩
  | cons digit left ih =>
    obtain ⟨known, base62⟩ := forall_mem_cons.mp base62
    obtain ⟨d, isVal⟩ := isSome_iff_exists.mp known
    by_cases lower : d < radix - 1
    · obtain ⟨c, isCh, isMiddle⟩ := exists_ch (v := (d + radix) / 2) (by unfold radix at *; omega)
      refine ⟨[c], by simp [betweenUnboundedAbove, isVal, lower, isCh], .single isMiddle ?_, ?_⟩
      · unfold radix
        omega
      · refine cons_lt_of_val isVal isMiddle ?_
        unfold radix at *
        omega
    · obtain ⟨out, made, position, above⟩ := ih base62
      exact ⟨digit :: out, by simp [betweenUnboundedAbove, isVal, lower, made], position.cons known,
        cons_lt_cons_of_lt above⟩

theorem betweenBounded_spec {right : List Char} (base62 : ∀ digit ∈ left, (val digit).isSome)
    (position : Position right) (below : left < right) :
    ∃ out, betweenBounded left right = some out ∧ Position out ∧ left < out ∧ out < right := by
  induction right generalizing left with
  | nil => exact absurd below (not_lt_nil _)
  | cons b right ih =>
    obtain ⟨rb, isB⟩ := isSome_iff_exists.mp (position.base62 b mem_cons_self)
    cases left with
    | nil =>
      by_cases high : 2 ≤ rb
      · obtain ⟨c, isCh, isMiddle⟩ := exists_ch (v := rb / 2) (by have := val_lt_radix isB; omega)
        exact ⟨[c], by simp [betweenBounded, isB, high, isCh], .single isMiddle (by omega),
          nil_lt_cons .., cons_lt_of_val isMiddle isB (by omega)⟩
      · by_cases zero : rb = 0
        · subst zero
          obtain rfl : b = '0' := val_inj isB rfl
          have more : right ≠ [] := by
            rintro rfl
            obtain ⟨digit, isLast, apart⟩ := position.last
            exact apart (Option.some.inj isLast).symm
          obtain ⟨out, made, inner, -, lower⟩ := @ih [] (by simp) (position.tail more)
            (nil_lt_of_ne_nil more)
          exact ⟨'0' :: out, by simp [betweenBounded, isB, ch_val isB, made], inner.cons rfl,
            nil_lt_cons .., cons_lt_cons_of_lt lower⟩
        · have isZero : val '0' = some 0 := rfl
          have isHalf : val 'V' = some 31 := rfl
          refine ⟨['0', 'V'], ?_, (Position.single isHalf (by decide)).cons rfl, nil_lt_cons ..,
            cons_lt_of_val isZero isB (by omega)⟩
          simp [betweenBounded, isB, high, zero, ch_val isZero, radix, ch_val isHalf]
    | cons a left =>
      obtain ⟨known, base62⟩ := forall_mem_cons.mp base62
      obtain ⟨la, isA⟩ := isSome_iff_exists.mp known
      obtain lower | ⟨rfl, later⟩ := cons_lt_cons_iff.mp below
      · have apart := (val_lt_val_iff isA isB).mpr lower
        by_cases far : 2 ≤ rb - la
        · obtain ⟨c, isCh, isMiddle⟩ := exists_ch (v := (la + rb) / 2)
            (by have := val_lt_radix isB; omega)
          refine ⟨[c], ?_, .single isMiddle (by omega), cons_lt_of_val isA isMiddle (by omega),
            cons_lt_of_val isMiddle isB (by omega)⟩
          simp [betweenBounded, isA, isB, apart.ne, apart.le, far, isCh]
        · obtain ⟨out, made, inner, above⟩ := betweenUnboundedAbove_spec base62
          refine ⟨a :: out, ?_, inner.cons known, cons_lt_cons_of_lt above,
            cons_lt_cons_iff.mpr (.inl lower)⟩
          simp [betweenBounded, isA, isB, apart.ne, apart.le, far, ch_val isA, made]
      · have more : right ≠ [] := by
          rintro rfl
          exact not_lt_nil _ later
        obtain ⟨out, made, inner, above, lower⟩ := ih base62 (position.tail more) later
        exact ⟨a :: out, by simp [betweenBounded, isA, ch_val isA, made], inner.cons known,
          cons_lt_cons_of_lt above, cons_lt_cons_of_lt lower⟩

/-- Between two positions there is another one, and likewise at either end. -/
theorem between_spec {left right : Option FracIdx} (isLeft : ∀ l ∈ left, Position l.toList)
    (isRight : ∀ r ∈ right, Position r.toList) (apart : ∀ l ∈ left, ∀ r ∈ right, l < r) :
    ∃ middle, between left right = some middle ∧ Position middle.toList ∧
      (∀ l ∈ left, l < middle) ∧ ∀ r ∈ right, middle < r := by
  have base62 : ∀ digit ∈ (left.map String.toList).getD [], (val digit).isSome := by
    cases left with
    | none => simp
    | some l => exact (isLeft l rfl).base62
  have above (l : FracIdx) (isL : l ∈ left) (out : List Char)
      (lower : (left.map String.toList).getD [] < out) : l < String.ofList out := by
    rw [mem_def.mp isL] at lower
    rw [lt_iff_toList_lt]
    simpa using lower
  rw [between, if_pos apart]
  cases right with
  | none =>
    obtain ⟨out, made, position, lower⟩ := betweenUnboundedAbove_spec base62
    exact ⟨.ofList out, congrArg _ made, by simpa using position,
      fun l isL => above l isL out lower, by simp⟩
  | some r =>
    have below : (left.map String.toList).getD [] < r.toList := by
      cases left with
      | none =>
        refine nil_lt_of_ne_nil fun empty => ?_
        obtain ⟨digit, isLast, -⟩ := (isRight r rfl).last
        rw [empty] at isLast
        cases isLast
      | some l => exact lt_iff_toList_lt.mp (apart l rfl r rfl)
    obtain ⟨out, made, position, lower, upper⟩ := betweenBounded_spec base62 (isRight r rfl) below
    refine ⟨.ofList out, congrArg _ made, by simpa using position,
      fun l isL => above l isL out lower, fun other isR => ?_⟩
    obtain rfl := Option.some.inj isR
    rw [lt_iff_toList_lt]
    simpa using upper

/-- The positions that inserts at any gaps give, one after the other. -/
inductive Grown : List FracIdx → Prop
  | first : Grown [first]
  | insert {front back : List FracIdx} {middle : FracIdx} (grown : Grown (front ++ back))
      (made : between front.getLast? back.head? = some middle) : Grown (front ++ middle :: back)

structure Ordered (positions : List FracIdx) : Prop where
  valid : ∀ position ∈ positions, Position position.toList
  sorted : positions.Pairwise (· < ·)

theorem Ordered.insert {front back : List FracIdx} (ordered : Ordered (front ++ back)) :
    ∃ middle, between front.getLast? back.head? = some middle ∧
      Ordered (front ++ middle :: back) := by
  obtain ⟨sortedFront, sortedBack, apart⟩ := pairwise_append.mp ordered.sorted
  obtain ⟨middle, made, position, above, below⟩ := @between_spec front.getLast? back.head?
    (fun l isL => ordered.valid l (mem_append_left _ (mem_of_getLast? isL)))
    (fun r isR => ordered.valid r (mem_append_right _ (mem_of_head? isR)))
    (fun l isL r isR => apart l (mem_of_getLast? isL) r (mem_of_head? isR))
  have before : ∀ l ∈ front, l < middle := by
    obtain rfl | ⟨init, last, rfl⟩ := eq_nil_or_concat' front
    · simp
    · have final := above last (by simp)
      intro l inside
      obtain earlier | same := mem_append.mp inside
      · have less := (pairwise_append.mp sortedFront).2.2 l earlier last (mem_singleton_self _)
        exact less.trans final
      · rwa [mem_singleton.mp same]
  have behind : ∀ r ∈ back, middle < r := by
    cases back with
    | nil => simp
    | cons head back =>
      have next := below head rfl
      exact forall_mem_cons.mpr ⟨next, fun r inside =>
        next.trans ((pairwise_cons.mp sortedBack).1 r inside)⟩
  refine ⟨middle, made, fun other inside => ?_, pairwise_append.mpr
    ⟨sortedFront, pairwise_cons.mpr ⟨behind, sortedBack⟩, fun l isL r isR => ?_⟩⟩
  · obtain inFront | inBack := mem_append.mp inside
    · exact ordered.valid other (mem_append_left _ inFront)
    · obtain rfl | later := mem_cons.mp inBack
      · exact position
      · exact ordered.valid other (mem_append_right _ later)
  · obtain rfl | later := mem_cons.mp isR
    · exact before l isL
    · exact apart l isL r later

theorem Grown.ordered {positions : List FracIdx} (grown : Grown positions) : Ordered positions := by
  induction grown with
  | first =>
    have half : Position (String.toList "V") := .single (x := 31) rfl (by decide)
    exact ⟨forall_mem_singleton.mpr half, pairwise_singleton ..⟩
  | insert grown made ih =>
    obtain ⟨middle, same, ordered⟩ := ih.insert
    rwa [← Option.some.inj (same.symm.trans made)]

/-- `between` answers for all positions in order, strictly between them and again with a
position, so that inserts go on at every gap. -/
theorem positions_never_run_out :
    (∀ left right : Option FracIdx, (∀ l ∈ left, Position l.toList) →
      (∀ r ∈ right, Position r.toList) → (∀ l ∈ left, ∀ r ∈ right, l < r) →
      ∃ middle, between left right = some middle ∧ Position middle.toList ∧
        (∀ l ∈ left, l < middle) ∧ ∀ r ∈ right, middle < r) ∧
    ∀ front back : List FracIdx, Grown (front ++ back) →
      ∃ middle, between front.getLast? back.head? = some middle ∧
        Grown (front ++ middle :: back) ∧ (front ++ middle :: back).Pairwise (· < ·) := by
  refine ⟨fun _ _ isLeft isRight apart => between_spec isLeft isRight apart,
    fun front back grown => ?_⟩
  obtain ⟨middle, made, ordered⟩ := grown.ordered.insert
  exact ⟨middle, made, grown.insert made, ordered.sorted⟩

theorem position_before_first : ∃ middle, between none (some first) = some middle ∧
    Grown [middle, first] ∧ middle < first := by
  obtain ⟨middle, made, grown, sorted⟩ := positions_never_run_out.2 [] [first] .first
  exact ⟨middle, made, grown, (pairwise_cons.mp sorted).1 first (mem_singleton_self _)⟩

end NodalMerge.FracIdx
