import Mathlib.Data.List.Basic
import Mathlib.Data.List.Nodup
import Mathlib.Order.Basic
import Mathlib.Tactic

namespace InsertAfter

variable {Item Key : Type} [LinearOrder Key] (key : Item → Key)

/-- Insert before the first item whose key is not larger. -/
def skipInsert (item : Item) : List Item → List Item
  | [] => [item]
  | head :: rest =>
    if key item < key head then head :: skipInsert item rest else item :: head :: rest

/-- Insert behind the item with the given key. A predecessor that is not there
sends the item to the end. -/
def insertBehind (item : Item) (parent : Key) : List Item → List Item
  | [] => [item]
  | head :: rest =>
    if key head = parent then head :: skipInsert key item rest
    else head :: insertBehind item parent rest

/-- Insert behind the predecessor, where `none` is the start of the sequence. -/
def insertAfter (item : Item) : Option Key → List Item → List Item
  | none => skipInsert key item
  | some parent => insertBehind key item parent

/-- The predecessor is the start of the sequence or occurs in it. -/
def Present : Option Key → List Item → Prop
  | none, _ => True
  | some parent, list => parent ∈ list.map key

variable {key}

theorem skipInsert_perm (item : Item) (list : List Item) :
    (skipInsert key item list).Perm (item :: list) := by
  induction list with
  | nil => exact .refl _
  | cons head rest ih =>
    simp only [skipInsert]
    split
    · exact (ih.cons head).trans (.swap item head rest)
    · exact .refl _

theorem insertAfter_perm (item : Item) (parent : Option Key) (list : List Item) :
    (insertAfter key item parent list).Perm (item :: list) := by
  cases parent with
  | none => exact skipInsert_perm item list
  | some parent =>
    change (insertBehind key item parent list).Perm (item :: list)
    induction list with
    | nil => exact .refl _
    | cons head rest ih =>
      simp only [insertBehind]
      split
      · exact ((skipInsert_perm item rest).cons head).trans (.swap item head rest)
      · exact (ih.cons head).trans (.swap item head rest)

variable {list : List Item} {first second : Item}

theorem sublist_insertAfter (item : Item) (parent : Option Key) (list : List Item) :
    list.Sublist (insertAfter key item parent list) := by
  have skip (list : List Item) : list.Sublist (skipInsert key item list) := by
    induction list with
    | nil => exact List.nil_sublist _
    | cons head rest ih =>
      rw [skipInsert]
      split
      · exact ih.cons_cons head
      · exact List.sublist_cons_self ..
  cases parent with
  | none => exact skip list
  | some parent =>
    induction list with
    | nil => exact List.nil_sublist _
    | cons head rest ih =>
      simp only [insertAfter, insertBehind]
      split
      · exact (skip rest).cons_cons head
      · exact ih.cons_cons head

theorem mem_insertAfter :
    other ∈ insertAfter key item parent list ↔ other = item ∨ other ∈ list := by
  rw [(insertAfter_perm item parent list).mem_iff, List.mem_cons]

theorem keys_insertAfter (item : Item) (parent : Option Key) (list : List Item) :
    ((insertAfter key item parent list).map key).Perm (key item :: list.map key) := by
  simpa using (insertAfter_perm item parent list).map key

/-- The insertion point is right behind the run of larger keys. -/
theorem skipInsert_eq (item : Item) (list : List Item) :
    skipInsert key item list =
      list.takeWhile (fun other => decide (key item < key other)) ++
        item :: list.dropWhile (fun other => decide (key item < key other)) := by
  induction list with
  | nil => rfl
  | cons head rest ih =>
    by_cases larger : key item < key head
    · simp [skipInsert, larger, ih]
    · simp [skipInsert, larger]

theorem insertBehind_split (first : key before ∉ front.map key) :
    insertBehind key item (key before) (front ++ before :: back) =
      front ++ before :: skipInsert key item back := by
  induction front with
  | nil => simp [insertBehind]
  | cons head rest ih =>
    have different : key head ≠ key before := fun same => first (by simp [same])
    have later : key before ∉ rest.map key := fun member => first (by simp_all)
    simp [insertBehind, different, ih later]

/-- The part of a sequence up to a predecessor that occurs in it once. -/
def EndsAt (key : Item → Key) : Option Key → List Item → Prop
  | none, front => front = []
  | some parent, front =>
    ∃ init last, front = init ++ [last] ∧ key last = parent ∧ parent ∉ init.map key

theorem insertAfter_append (ends : EndsAt key parent front) :
    insertAfter key item parent (front ++ back) = front ++ skipInsert key item back := by
  cases parent with
  | none =>
    obtain rfl : front = [] := ends
    rfl
  | some parent =>
    obtain ⟨init, last, rfl, rfl, first⟩ := ends
    rw [List.append_assoc, List.append_assoc]
    exact insertBehind_split first

/-- Rewriting items without touching their keys commutes with insertion. -/
theorem map_insertAfter (keyed : ∀ item, key (update item) = key item) (item : Item)
    (parent : Option Key) (list : List Item) :
    (insertAfter key item parent list).map update =
      insertAfter key (update item) parent (list.map update) := by
  have skip (list : List Item) : (skipInsert key item list).map update =
      skipInsert key (update item) (list.map update) := by
    induction list with
    | nil => rfl
    | cons head rest ih =>
      simp only [skipInsert, List.map_cons, keyed]
      split <;> simp [ih]
  cases parent with
  | none => exact skip list
  | some parent =>
    change (insertBehind key item parent list).map update =
      insertBehind key (update item) parent (list.map update)
    induction list with
    | nil => rfl
    | cons head rest ih =>
      simp only [insertBehind, List.map_cons, keyed]
      split <;> simp [ih, skip]

section
variable (distinct : key first ≠ key second)
include distinct

theorem skipInsert_comm (list : List Item) : skipInsert key first (skipInsert key second list) =
      skipInsert key second (skipInsert key first list) := by
  induction list with
  | nil =>
    rcases lt_or_gt_of_ne distinct with less | greater
    · simp [skipInsert, less, less.not_gt]
    · simp [skipInsert, greater, greater.not_gt]
  | cons head rest ih =>
    by_cases firstSkips : key first < key head <;> by_cases secondSkips : key second < key head
    · simp [skipInsert, firstSkips, secondSkips, ih]
    · have less : key first < key second := lt_of_lt_of_le firstSkips (not_lt.mp secondSkips)
      simp [skipInsert, firstSkips, secondSkips, less]
    · have less : key second < key first := lt_of_lt_of_le secondSkips (not_lt.mp firstSkips)
      simp [skipInsert, firstSkips, secondSkips, less]
    · rcases lt_or_gt_of_ne distinct with less | greater
      · simp [skipInsert, firstSkips, secondSkips, less, less.not_gt]
      · simp [skipInsert, firstSkips, secondSkips, greater, greater.not_gt]

private theorem skipInsert_insertBehind_comm (unrelated : key first ≠ parent)
    (present : parent ∈ list.map key) : skipInsert key first (insertBehind key second parent list) =
      insertBehind key second parent (skipInsert key first list) := by
  induction list with
  | nil => simp at present
  | cons head rest ih =>
    by_cases found : key head = parent
    · by_cases skips : key first < key head
      · simp [insertBehind, skipInsert, found, found ▸ skips, skipInsert_comm distinct]
      · simp [insertBehind, skipInsert, found, found ▸ skips, unrelated]
    · have later : parent ∈ rest.map key := by simpa [Ne.symm found] using present
      by_cases skips : key first < key head
      · simp [insertBehind, skipInsert, found, skips, ih later]
      · simp [insertBehind, skipInsert, found, skips, unrelated]

private theorem insertBehind_comm (unrelated₁ : key first ≠ parent₂)
    (unrelated₂ : key second ≠ parent₁) (present₁ : parent₁ ∈ list.map key)
    (present₂ : parent₂ ∈ list.map key) :
    insertBehind key first parent₁ (insertBehind key second parent₂ list) =
      insertBehind key second parent₂ (insertBehind key first parent₁ list) := by
  induction list with
  | nil => simp at present₁
  | cons head rest ih =>
    by_cases found₁ : key head = parent₁ <;> by_cases found₂ : key head = parent₂
    · simp [insertBehind, found₁, ← found₂, skipInsert_comm distinct]
    · have later : parent₂ ∈ rest.map key := by simpa [Ne.symm found₂] using present₂
      simp [insertBehind, found₁, found₁ ▸ found₂, skipInsert_insertBehind_comm distinct unrelated₁ later]
    · have later : parent₁ ∈ rest.map key := by simpa [Ne.symm found₁] using present₁
      simp [insertBehind, found₂, found₂ ▸ found₁,
        skipInsert_insertBehind_comm distinct.symm unrelated₂ later]
    · have later₁ : parent₁ ∈ rest.map key := by simpa [Ne.symm found₁] using present₁
      have later₂ : parent₂ ∈ rest.map key := by simpa [Ne.symm found₂] using present₂
      simp [insertBehind, found₁, found₂, ih later₁ later₂]

/-- Two fresh items with different keys may be inserted in either order once
both of their predecessors are in the sequence. -/
theorem insertAfter_comm (fresh₁ : key first ∉ list.map key) (fresh₂ : key second ∉ list.map key)
    (present₁ : Present key parent₁ list) (present₂ : Present key parent₂ list) :
    insertAfter key first parent₁ (insertAfter key second parent₂ list) =
      insertAfter key second parent₂ (insertAfter key first parent₁ list) := by
  cases parent₁ with
  | none =>
    cases parent₂ with
    | none => exact skipInsert_comm distinct list
    | some parent₂ =>
      have unrelated : key first ≠ parent₂ := fun same => fresh₁ (same ▸ present₂)
      exact skipInsert_insertBehind_comm distinct unrelated present₂
  | some parent₁ =>
    have unrelated₂ : key second ≠ parent₁ := fun same => fresh₂ (same ▸ present₁)
    cases parent₂ with
    | none => exact (skipInsert_insertBehind_comm distinct.symm unrelated₂ present₁).symm
    | some parent₂ =>
      have unrelated₁ : key first ≠ parent₂ := fun same => fresh₁ (same ▸ present₂)
      exact insertBehind_comm distinct unrelated₁ unrelated₂ present₁ present₂

end

end InsertAfter
