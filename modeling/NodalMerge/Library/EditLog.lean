import NodalMerge.Library.Confluence
import NodalMerge.Library.InsertAfter

namespace EditLog

open Confluence Function InsertAfter List

/-- Place a new item behind a predecessor, or turn an item into a tombstone. -/
inductive Edit (Item Key : Type) where
  | place (item : Item) (parent : Option Key)
  | bury (target : Key)

variable {Item Key : Type} [LinearOrder Key] (key : Item → Key) (mark : Item → Item)

def buryKey (target : Key) (list : List Item) : List Item :=
  list.map fun item => if key item = target then mark item else item

def apply (list : List Item) : Edit Item Key → List Item
  | .place item parent => insertAfter key item parent list
  | .bury target => buryKey key mark target list

def Enabled (list : List Item) : Edit Item Key → Prop
  | .place item parent => key item ∉ list.map key ∧ Present key parent list
  | .bury target => target ∈ list.map key

/-- The two edits do not place the same key. -/
def Independent : Edit Item Key → Edit Item Key → Prop
  | .place first _, .place second _ => key first ≠ key second
  | _, _ => True

/-- The keys an edit adds to the sequence. -/
def placed : Edit Item Key → List Key
  | .place item _ => [key item]
  | .bury _ => []

variable {key mark}

omit [LinearOrder Key] in
theorem Independent.symm (apart : Independent key first second) : Independent key second first := by
  cases first with
  | place first parent =>
    cases second with
    | place second other => exact Ne.symm apart
    | bury target => trivial
  | bury target => cases second <;> trivial

section
variable (keyed : ∀ item, key (mark item) = key item)
include keyed

theorem key_ite (target : Key) (item : Item) :
    key (if key item = target then mark item else item) = key item := by
  split
  · exact keyed item
  · rfl

theorem keys_buryKey (target : Key) (list : List Item) :
    (buryKey key mark target list).map key = list.map key := by
  rw [buryKey, map_map]
  exact map_congr_left fun item _ => key_ite keyed target item

theorem keys_apply (edit : Edit Item Key) (list : List Item) :
    ((apply key mark list edit).map key).Perm (placed key edit ++ list.map key) := by
  cases edit with
  | place item parent => exact keys_insertAfter item parent list
  | bury target =>
    rw [apply, keys_buryKey keyed]
    exact .refl _

theorem keys_foldl (edits : List (Edit Item Key)) (list : List Item) :
    ((edits.foldl (apply key mark) list).map key).Perm
      (edits.flatMap (placed key) ++ list.map key) := by
  induction edits generalizing list with
  | nil => exact .refl _
  | cons edit rest ih =>
    refine (ih _).trans (((keys_apply keyed edit list).append_left _).trans ?_)
    rw [flatMap_cons, append_assoc, ← append_assoc, ← append_assoc]
    exact perm_append_comm.append_right _

variable {list : List Item}

theorem present_apply (present : Present key parent list) :
    Present key parent (apply key mark list edit) := by
  cases parent with
  | none => trivial
  | some parent => exact (keys_apply keyed edit list).mem_iff.mpr (mem_append_right _ present)

theorem buryKey_comm (first second : Key) (list : List Item) :
    buryKey key mark first (buryKey key mark second list) =
      buryKey key mark second (buryKey key mark first list) := by
  simp only [buryKey, map_map]
  refine map_congr_left fun item _ => ?_
  simp only [comp_apply, key_ite keyed]
  split_ifs <;> rfl

theorem buryKey_insertAfter (other : key item ≠ target) :
    buryKey key mark target (insertAfter key item parent list) =
      insertAfter key item parent (buryKey key mark target list) := by
  rw [buryKey, map_insertAfter (key_ite keyed target), if_neg other]
  rfl

/-- Enabled edits that place different keys do not get in each other's way. -/
theorem commuting : Commuting (apply key mark) (Enabled key) (Independent key) where
  stays := by
    intro list first second apart enabledFirst enabledSecond
    cases second with
    | place item parent =>
      refine ⟨fun member => ?_, present_apply keyed enabledSecond.2⟩
      rcases mem_append.mp ((keys_apply keyed first list).mem_iff.mp member) with new | old
      · cases first with
        | place other otherParent => exact apart (mem_singleton.mp new).symm
        | bury target => cases new
      · exact enabledSecond.1 old
    | bury target =>
      exact (keys_apply keyed first list).mem_iff.mpr (mem_append_right _ enabledSecond)
  swaps := by
    intro list first second apart enabledFirst enabledSecond
    cases first with
    | place item parent =>
      cases second with
      | place other otherParent =>
        exact insertAfter_comm (Ne.symm apart) enabledSecond.1 enabledFirst.1 enabledSecond.2
          enabledFirst.2
      | bury target =>
        exact buryKey_insertAfter keyed fun same => enabledFirst.1 (same ▸ enabledSecond)
    | bury target =>
      cases second with
      | place item parent =>
        exact (buryKey_insertAfter keyed fun same => enabledSecond.1 (same ▸ enabledFirst)).symm
      | bury other => exact buryKey_comm keyed other target list

/-- A valid run of edits places no key twice. -/
theorem pairwise_independent (valid : Valid (apply key mark) (Enabled key) list edits) :
    edits.Pairwise (Independent key) ∧
      ∀ target ∈ edits.flatMap (placed key), target ∉ list.map key := by
  induction edits generalizing list with
  | nil => simp
  | cons edit rest ih =>
    obtain ⟨enabled, later⟩ := valid
    obtain ⟨apart, fresh⟩ := ih later
    have survives {target : Key} (member : target ∈ list.map key) :
        target ∈ (apply key mark list edit).map key :=
      (keys_apply keyed edit list).mem_iff.mpr (mem_append_right _ member)
    refine ⟨pairwise_cons.mpr ⟨fun other member => ?_, apart⟩, fun target member old => ?_⟩
    · cases edit with
      | bury target => trivial
      | place item parent =>
        cases other with
        | bury target => trivial
        | place otherItem otherParent =>
          intro same
          refine fresh (key otherItem) (mem_flatMap.mpr ⟨_, member, .head _⟩) ?_
          rw [← same]
          exact (keys_apply keyed (.place item parent) list).mem_iff.mpr (.head _)
    · rw [flatMap_cons] at member
      rcases mem_append.mp member with new | laterPlaced
      · cases edit with
        | place item parent =>
          rw [mem_singleton.mp new] at old
          exact enabled.1 old
        | bury other => cases new
      · exact fresh target laterPlaced (survives old)

/-- Two valid orders of the same edits give the same sequence. -/
theorem foldl_apply_perm (same : edits.Perm others)
    (valid : Valid (apply key mark) (Enabled key) list edits)
    (validOthers : Valid (apply key mark) (Enabled key) list others) :
    edits.foldl (apply key mark) list = others.foldl (apply key mark) list :=
  (commuting keyed).foldl_eq Independent.symm same (pairwise_independent keyed valid).1 valid
    validOthers

end

end EditLog
