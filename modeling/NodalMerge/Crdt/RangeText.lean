import NodalMerge.Crdt.Text
import NodalMerge.Library.EditLog

namespace NodalMerge

open Confluence EditLog InsertAfter List
open EditLog (buryKey)

def Item.bury (item : Item) : Item := { item with deleted := true }

abbrev TextEdit := EditLog.Edit Item OpId

abbrev applyEdit : List Item → TextEdit → List Item := EditLog.apply Item.id Item.bury

theorem Item.bury_id (item : Item) : item.bury.id = item.id := rfl

namespace TextProjection

def ids (projection : TextProjection) : List OpId := projection.items.map Item.id

variable {id : OpId} {items : List Item} {base : OpId} {item : Item}

theorem knows_iff {projection : TextProjection} :
    projection.knows id = true ↔ id ∈ projection.ids := by
  simp [knows, ids]

/-- Nothing is buffered and no id occurs twice. -/
structure Plain (projection : TextProjection) : Prop where
  pending : projection.pendingDeletes = ∅
  orphans : projection.orphans = ∅
  orphanIds : projection.orphanIds = ∅
  nodup : projection.ids.Nodup

variable {projection : TextProjection}

theorem Plain.empty : empty.Plain := ⟨rfl, rfl, rfl, .nil⟩

theorem Plain.replace (plain : projection.Plain)
    (nodup : (items.map Item.id).Nodup) : Plain { projection with items } :=
  ⟨plain.pending, plain.orphans, plain.orphanIds, nodup⟩

theorem applyInsert_known {after : Option OpId} (known : id ∈ projection.ids) :
    projection.applyInsert id after ch = projection := by
  simp [applyInsert, knows_iff.mpr known]

theorem Plain.applyInsert_fresh (plain : projection.Plain) {after : Option OpId}
    (fresh : id ∉ projection.ids) (present : Present Item.id after projection.items) :
    projection.applyInsert id after ch =
      { projection with items := insertAfter Item.id ⟨id, ch, false⟩ after projection.items } := by
  have unknown : ¬ (projection.knows id || decide (id ∈ projection.orphanIds)) = true := by
    rw [plain.orphanIds, Bool.or_eq_true, knows_iff]
    simp [fresh]
  have integrated : (projection.integrate id after ch).drainOrphansOf id =
      { projection with items := insertAfter Item.id ⟨id, ch, false⟩ after projection.items } := by
    have settled : (projection.integrate id after ch).orphans.keys = ∅ := by
      change projection.orphans.keys = ∅
      rw [plain.orphans]
      rfl
    rw [drainOrphansOf, if_pos settled, integrate]
    simp [plain.pending]
  rw [TextProjection.applyInsert.eq_def, if_neg unknown]
  cases after with
  | none => exact integrated
  | some parent =>
    have known : projection.knows parent = true := knows_iff.mpr present
    exact (if_pos known).trans integrated

/-- The ids of a range, from `offset` on. -/
def charIds (base : OpId) (offset : Nat) : List Char → List OpId
  | [] => []
  | _ :: rest => rangeCharId base offset :: charIds base (offset + 1) rest

theorem mem_charIds :
    id ∈ charIds base offset chars ↔
      ∃ index, offset ≤ index ∧ index < offset + chars.length ∧ id = rangeCharId base index := by
  induction chars generalizing offset with
  | nil =>
    simp only [charIds, not_mem_nil, length_nil, false_iff, not_exists, not_and]
    omega
  | cons ch rest ih =>
    simp only [charIds, mem_cons, ih, length_cons]
    constructor
    · rintro (rfl | ⟨index, above, below, rfl⟩)
      · exact ⟨offset, le_refl _, by omega, rfl⟩
      · exact ⟨index, by omega, by omega, rfl⟩
    · rintro ⟨index, above, below, rfl⟩
      rcases Nat.eq_or_lt_of_le above with rfl | later
      · exact .inl rfl
      · exact .inr ⟨index, later, by omega, rfl⟩

/-- Ids of a range are between its base and what it reserves. -/
theorem lamport_of_mem_charIds (room : base.lamport ≤ u64Max) (member : id ∈ charIds base 0 chars) :
    id.author = base.author ∧ base.lamport ≤ id.lamport ∧
      id.lamport < base.lamport + chars.length := by
  obtain ⟨index, _, below, rfl⟩ := mem_charIds.mp member
  refine ⟨rfl, ?_⟩
  simp only [rangeCharId, saturatingAdd]
  omega

theorem mem_charIds_of_lt (author : id.author = base.author) (bounded : id.lamport ≤ u64Max)
    (above : base.lamport ≤ id.lamport) (below : id.lamport < base.lamport + chars.length) :
    id ∈ charIds base 0 chars := by
  refine mem_charIds.mpr ⟨id.lamport - base.lamport, Nat.zero_le _, by omega, ?_⟩
  rw [rangeCharId, saturatingAdd, Nat.add_sub_cancel' above, Nat.min_eq_left bounded, ← author]

/-- Two ranges of one author share no id if and only if one ends before the
other begins. -/
theorem charIds_disjoint_iff (author : first.author = second.author) (room : first.lamport ≤ u64Max)
    (otherRoom : second.lamport ≤ u64Max) (nonempty : chars ≠ []) (othersNonempty : others ≠ []) :
    (charIds first 0 chars).Disjoint (charIds second 0 others) ↔
      first.lamport + chars.length ≤ second.lamport ∨
        second.lamport + others.length ≤ first.lamport := by
  have length := length_pos_iff.mpr nonempty
  have otherLength := length_pos_iff.mpr othersNonempty
  constructor
  · intro disjoint
    by_contra overlap
    rcases le_total first.lamport second.lamport with less | less
    · exact disjoint (mem_charIds_of_lt author.symm otherRoom less (by omega))
        (mem_charIds_of_lt rfl otherRoom le_rfl (by omega))
    · exact disjoint (mem_charIds_of_lt rfl room le_rfl (by omega))
        (mem_charIds_of_lt author room less (by omega))
  · intro apart id inFirst inSecond
    obtain ⟨_, above, below⟩ := lamport_of_mem_charIds room inFirst
    obtain ⟨_, otherAbove, otherBelow⟩ := lamport_of_mem_charIds otherRoom inSecond
    omega

theorem charIds_length (base : OpId) (offset : Nat) (chars : List Char) :
    (charIds base offset chars).length = chars.length := by
  induction chars generalizing offset with
  | nil => rfl
  | cons ch rest ih => rw [charIds, length_cons, ih, length_cons]

/-- Visible items with the given ids have been added, as far as the ids were
not there yet; the items before are all kept. -/
structure Extends (projection after : TextProjection) (new : List OpId) : Prop where
  plain : after.Plain
  kept : ∀ item ∈ projection.items, item ∈ after.items
  added : ∀ item ∈ after.items, item ∈ projection.items ∨ item.deleted = false ∧ item.id ∈ new
  covered : ∀ id ∈ new, id ∈ after.ids

theorem Extends.append {middle after : TextProjection} {first second : List OpId}
    (earlier : projection.Extends middle first) (later : middle.Extends after second) :
    projection.Extends after (first ++ second) where
  plain := later.plain
  kept item member := later.kept item (earlier.kept item member)
  added item member := by
    rcases later.added item member with inMiddle | ⟨visible, new⟩
    · rcases earlier.added item inMiddle with old | ⟨visible, new⟩
      · exact .inl old
      · exact .inr ⟨visible, mem_append_left _ new⟩
    · exact .inr ⟨visible, mem_append_right _ new⟩
  covered id member := by
    rcases mem_append.mp member with inFirst | inSecond
    · obtain ⟨item, inMiddle, rfl⟩ := mem_map.mp (earlier.covered id inFirst)
      exact mem_map.mpr ⟨item, later.kept item inMiddle, rfl⟩
    · exact later.covered id inSecond

theorem Extends.mem_ids {after : TextProjection} (extends_ : projection.Extends after new) :
    id ∈ after.ids ↔ id ∈ projection.ids ∨ id ∈ new := by
  constructor
  · intro member
    obtain ⟨item, inAfter, rfl⟩ := mem_map.mp member
    rcases extends_.added item inAfter with old | ⟨_, new⟩
    · exact .inl (mem_map.mpr ⟨item, old, rfl⟩)
    · exact .inr new
  · rintro (old | new)
    · obtain ⟨item, member, rfl⟩ := mem_map.mp old
      exact mem_map.mpr ⟨item, extends_.kept item member, rfl⟩
    · exact extends_.covered id new

theorem Plain.applyInsert (plain : projection.Plain) (id : OpId) {after : Option OpId} (ch : Char)
    (present : Present Item.id after projection.items) :
    projection.Extends (projection.applyInsert id after ch) [id] := by
  by_cases known : id ∈ projection.ids
  · rw [applyInsert_known known]
    refine ⟨plain, fun _ member => member, fun _ member => .inl member, fun other member => ?_⟩
    rw [mem_singleton.mp member]
    exact known
  · rw [plain.applyInsert_fresh known present]
    refine ⟨plain.replace ?_, fun item member => ?_, fun item member => ?_, fun other member => ?_⟩
    · exact (keys_insertAfter _ _ _).nodup_iff.mpr (nodup_cons.mpr ⟨known, plain.nodup⟩)
    · exact mem_insertAfter.mpr (.inr member)
    · rcases mem_insertAfter.mp member with rfl | old
      · exact .inr ⟨rfl, .head _⟩
      · exact .inl old
    · rw [mem_singleton.mp member]
      exact (keys_insertAfter _ _ _).mem_iff.mpr (.head _)

theorem Plain.insertChars (plain : projection.Plain) {offset : Nat}
    {after : Option OpId} (present : Present Item.id after projection.items) (chars : List Char) :
    projection.Extends (projection.insertChars base offset after chars)
      (charIds base offset chars) := by
  induction chars generalizing projection offset after with
  | nil => exact ⟨plain, fun _ member => member, fun _ member => .inl member, by simp [charIds]⟩
  | cons ch rest ih =>
    have first := plain.applyInsert (rangeCharId base offset) ch present
    exact first.append (ih first.plain (first.covered _ (.head _)))

/-- The edits of a range whose ids are all new. The ids saturate at `u64::MAX`,
and behind the character that has this id all others are dropped. -/
def placeEdits (base : OpId) (offset : Nat) (after : Option OpId) : List Char → List TextEdit
  | [] => []
  | ch :: rest =>
    if base.lamport + offset ≤ u64Max then
      .place ⟨rangeCharId base offset, ch, false⟩ after ::
        placeEdits base (offset + 1) (some (rangeCharId base offset)) rest
    else []

theorem rangeCharId_room (room : base.lamport + offset ≤ u64Max) :
    rangeCharId base offset = ⟨base.lamport + offset, base.author⟩ := by
  rw [rangeCharId, saturatingAdd, Nat.min_eq_left room]

theorem rangeCharId_full (full : u64Max ≤ base.lamport + offset) :
    rangeCharId base (offset + 1) = rangeCharId base offset := by
  rw [rangeCharId, rangeCharId, saturatingAdd, saturatingAdd, Nat.min_eq_right full,
    Nat.min_eq_right (by omega : u64Max ≤ base.lamport + (offset + 1))]

theorem rangeCharId_lt {first second : Nat} (less : first < second)
    (room : base.lamport + second ≤ u64Max) :
    rangeCharId base first < rangeCharId base second := by
  rw [rangeCharId_room room, rangeCharId_room (by omega)]
  exact Prod.Lex.left _ _ (Nat.add_lt_add_left less _)

theorem charIds_nodup_iff (room : base.lamport + offset ≤ u64Max) :
    (charIds base offset chars).Nodup ↔ base.lamport + offset + chars.length ≤ u64Max + 1 := by
  induction chars generalizing offset with
  | nil =>
    rw [charIds, length_nil]
    exact ⟨fun _ => by omega, fun _ => .nil⟩
  | cons ch rest ih =>
    rw [charIds, nodup_cons, length_cons]
    by_cases next : base.lamport + (offset + 1) ≤ u64Max
    · rw [ih next]
      refine ⟨fun both => by omega, fun fits => ⟨fun member => ?_, by omega⟩⟩
      obtain ⟨index, above, below, same⟩ := mem_charIds.mp member
      exact (rangeCharId_lt above (by omega)).ne same
    · -- The next id is this one again.
      cases rest with
      | nil =>
        rw [charIds, length_nil]
        exact ⟨fun _ => by omega, fun _ => ⟨not_mem_nil, .nil⟩⟩
      | cons second rest =>
        rw [charIds, rangeCharId_full (by omega), length_cons]
        exact ⟨fun both => (both.1 (.head _)).elim, fun fits => by omega⟩

theorem placeEdits_full {after : Option OpId} (full : u64Max < base.lamport + offset) :
    placeEdits base offset after chars = [] := by
  cases chars with
  | nil => rfl
  | cons ch rest => exact if_neg (not_le.mpr full)

/-- A range of new ids behind a present predecessor is its run of edits. -/
theorem Plain.insertChars_eq (plain : projection.Plain) {offset : Nat}
    {after : Option OpId} (present : Present Item.id after projection.items)
    (fresh : ∀ index, offset ≤ index → index < offset + chars.length →
      base.lamport + index ≤ u64Max → rangeCharId base index ∉ projection.ids)
    (full : u64Max < base.lamport + offset → rangeCharId base offset ∈ projection.ids) :
    projection.insertChars base offset after chars =
        { projection with
          items := (placeEdits base offset after chars).foldl applyEdit projection.items } ∧
      Valid applyEdit (EditLog.Enabled Item.id) projection.items
        (placeEdits base offset after chars) := by
  induction chars generalizing projection offset after with
  | nil => exact ⟨rfl, trivial⟩
  | cons ch rest ih =>
    rw [length_cons] at fresh
    by_cases room : base.lamport + offset ≤ u64Max
    · have new := fresh offset (le_refl _) (by omega) room
      have extended := plain.applyInsert (rangeCharId base offset) ch present
      have later := @ih _ extended.plain (offset + 1) (some (rangeCharId base offset))
        (extended.covered _ (.head _)) ?_ ?_
      · rw [plain.applyInsert_fresh new present] at later
        rw [placeEdits, if_pos room, TextProjection.insertChars,
          plain.applyInsert_fresh new present]
        exact ⟨later.1, ⟨new, present⟩, later.2⟩
      · intro index above below fits member
        rcases extended.mem_ids.mp member with old | first
        · exact fresh index (by omega) (by omega) fits old
        · exact (rangeCharId_lt above fits).ne' (mem_singleton.mp first)
      · intro above
        rw [rangeCharId_full (by omega)]
        exact extended.covered _ (.head _)
    · -- Saturated: this id and all later ones are the one already placed.
      have above := not_le.mp room
      have known := full above
      have later := @ih _ plain (offset + 1) (some (rangeCharId base offset)) known
        (fun index _ _ fits => by omega) (fun _ => rangeCharId_full above.le ▸ known)
      rw [placeEdits_full (by omega)] at later
      rw [placeEdits_full above, TextProjection.insertChars, applyInsert_known known]
      exact later

/-- The items of a range whose ids are all new. -/
def rangeItems (base : OpId) (offset : Nat) : List Char → List Item
  | [] => []
  | ch :: rest =>
    if base.lamport + offset ≤ u64Max then
      ⟨rangeCharId base offset, ch, false⟩ :: rangeItems base (offset + 1) rest
    else []

theorem rangeItems_chars (base : OpId) (offset : Nat) (chars : List Char) :
    ((rangeItems base offset chars).filter fun item => !item.deleted).map Item.ch =
      chars.take (u64Max + 1 - (base.lamport + offset)) := by
  induction chars generalizing offset with
  | nil => simp [rangeItems]
  | cons ch rest ih =>
    by_cases room : base.lamport + offset ≤ u64Max
    · have left : u64Max + 1 - (base.lamport + offset) =
          u64Max + 1 - (base.lamport + (offset + 1)) + 1 := by omega
      rw [rangeItems, if_pos room, left, take_succ_cons, ← ih]
      rfl
    · have none : u64Max + 1 - (base.lamport + offset) = 0 := by omega
      rw [rangeItems, if_neg room, none]
      rfl

/-- Where no larger id is in the way, the range goes right behind its
predecessor. -/
theorem foldl_placeEdits {offset : Nat} {after : Option OpId}
    {front back : List Item} (ends : EndsAt Item.id after front)
    (fresh : ∀ index, offset ≤ index → base.lamport + index ≤ u64Max →
      rangeCharId base index ∉ front.map Item.id)
    (clear : base.lamport + offset ≤ u64Max → ∀ item ∈ back.head?,
      ¬ rangeCharId base offset < item.id) (chars : List Char) :
    (placeEdits base offset after chars).foldl applyEdit (front ++ back) =
      front ++ rangeItems base offset chars ++ back := by
  induction chars generalizing front offset after with
  | nil => simp [placeEdits, rangeItems]
  | cons ch rest ih =>
    by_cases room : base.lamport + offset ≤ u64Max
    · have direct : skipInsert Item.id ⟨rangeCharId base offset, ch, false⟩ back =
          ⟨rangeCharId base offset, ch, false⟩ :: back := by
        cases back with
        | nil => rfl
        | cons head back => exact if_neg (clear room head rfl)
      have behind : EndsAt Item.id (some (rangeCharId base offset))
          (front ++ [⟨rangeCharId base offset, ch, false⟩]) :=
        ⟨front, _, rfl, rfl, fresh offset (le_refl _) room⟩
      have later := @ih (offset + 1) _ _ behind ?_ ?_
      · rw [placeEdits, if_pos room, rangeItems, if_pos room, foldl_cons, applyEdit,
          EditLog.apply, insertAfter_append ends, direct]
        simpa using later
      · intro index above fits member
        rw [map_append, mem_append] at member
        rcases member with old | new
        · exact fresh index (by omega) fits old
        · exact (rangeCharId_lt above fits).ne' (mem_singleton.mp new)
      · intro fits item head larger
        exact clear room item head ((rangeCharId_lt (Nat.lt_succ_self _) fits).trans larger)
    · rw [placeEdits, rangeItems, if_neg room, if_neg room]
      simp

theorem present_of_endsAt {after : Option OpId} (ends : EndsAt Item.id after front) :
    Present Item.id after (front ++ back) := by
  cases after with
  | none => trivial
  | some parent =>
    obtain ⟨init, last, rfl, rfl, _⟩ := ends
    exact mem_map.mpr ⟨last, by simp, rfl⟩

/-- A range goes behind the run of larger ids that follows its predecessor, and
stays in one piece. -/
theorem Plain.insertChars_items (plain : projection.Plain) {after : Option OpId}
    (split : projection.items = front ++ back) (ends : EndsAt Item.id after front)
    (room : base.lamport ≤ u64Max)
    (fresh : ∀ index, base.lamport + index ≤ u64Max → rangeCharId base index ∉ projection.ids)
    (chars : List Char) :
    (projection.insertChars base 0 after chars).items =
      front ++ back.takeWhile (fun item => decide (base < item.id)) ++ rangeItems base 0 chars ++
        back.dropWhile (fun item => decide (base < item.id)) := by
  have present : Present Item.id after projection.items := split ▸ present_of_endsAt ends
  rw [(plain.insertChars_eq present (fun index _ _ => fresh index) (fun full => by omega)).1]
  change (placeEdits base 0 after chars).foldl applyEdit projection.items = _
  rw [split]
  cases chars with
  | nil => simp [placeEdits, rangeItems]
  | cons ch rest =>
    have first : rangeCharId base 0 = base := rangeCharId_room room
    rw [placeEdits, if_pos (show base.lamport + 0 ≤ u64Max from room), rangeItems,
      if_pos (show base.lamport + 0 ≤ u64Max from room), foldl_cons, applyEdit, EditLog.apply,
      insertAfter_append ends, skipInsert_eq, first]
    generalize larger : (fun item : Item => decide (base < item.id)) = Larger
    have outside : ∀ index, base.lamport + index ≤ u64Max →
        rangeCharId base index ∉ (front ++ back.takeWhile Larger).map Item.id := by
      intro index fits member
      refine fresh index fits ?_
      rw [ids, split]
      exact ((takeWhile_sublist _).append_left front).map Item.id |>.subset member
    have later := @foldl_placeEdits base 1 (some base)
      (front ++ back.takeWhile Larger ++ [⟨base, ch, false⟩]) (back.dropWhile Larger)
      ⟨_, _, rfl, rfl, first ▸ outside 0 room⟩ ?_ ?_ rest
    · simpa using later
    · intro index above fits member
      rw [map_append, mem_append] at member
      rcases member with old | new
      · exact outside index fits old
      · have less := @rangeCharId_lt base _ _ above fits
        rw [first] at less
        exact less.ne' (mem_singleton.mp new)
    · intro fits item head greater
      have less := @rangeCharId_lt base _ _ Nat.zero_lt_one fits
      rw [first] at less
      have stopped := List.head?_dropWhile_not Larger back
      rw [Option.mem_def.mp head, ← larger] at stopped
      simp only [decide_eq_false_iff_not] at stopped
      exact stopped (less.trans greater)

theorem deleteKnown_known (known : id ∈ projection.ids) :
    projection.deleteKnown id =
      { projection with items := buryKey Item.id Item.bury id projection.items } := by
  rw [deleteKnown, if_pos (knows_iff.mpr known), buryKey]
  congr 2
  funext item
  by_cases hit : item.id = id <;> simp [hit, Item.bury]

theorem mem_ids_of_visible (member : item ∈ projection.visible) :
    item.id ∈ projection.ids := mem_map.mpr ⟨item, mem_of_mem_filter member, rfl⟩

theorem Plain.visible_nodup (plain : projection.Plain) :
    (projection.visible.map Item.id).Nodup :=
  plain.nodup.sublist (filter_sublist.map _)

theorem visible_buryKey (items : List Item) (target : OpId) :
    (buryKey Item.id Item.bury target items).filter (fun item => !item.deleted) =
      (items.filter fun item => !item.deleted).filter fun item => decide (item.id ≠ target) := by
  induction items with
  | nil => rfl
  | cons item rest ih =>
    have tail : buryKey Item.id Item.bury target (item :: rest) =
        (if item.id = target then item.bury else item) ::
          buryKey Item.id Item.bury target rest := by
      rw [buryKey, buryKey, map_cons]
      split <;> rfl
    rw [tail, filter_cons, ih]
    by_cases hit : item.id = target
    · cases shown : item.deleted <;> simp [hit, shown, Item.bury]
    · cases shown : item.deleted <;> simp [hit, shown]

/-- Taking out the item at an index moves the later ones up. -/
theorem drop_filter_ne (nodup : (items.map Item.id).Nodup) (found : items[start]? = some item) :
    (items.filter fun other => decide (other.id ≠ item.id)).drop start =
      items.drop (start + 1) := by
  induction items generalizing start with
  | nil => cases found
  | cons head rest ih =>
    obtain ⟨absent, restNodup⟩ := nodup_cons.mp nodup
    cases start with
    | zero =>
      obtain rfl : head = item := by simpa using found
      have others : ∀ other ∈ rest, decide (other.id ≠ head.id) = true := by
        intro other member
        exact decide_eq_true fun same => absent (mem_map.mpr ⟨other, member, same⟩)
      simp only [filter_cons, ne_eq, not_true_eq_false, decide_false, Bool.false_eq_true,
        ↓reduceIte, drop_zero, Nat.zero_add, drop_succ_cons]
      exact filter_eq_self.mpr others
    | succ start =>
      have later : rest[start]? = some item := by simpa using found
      have different : head.id ≠ item.id := by
        intro same
        exact absent (mem_map.mpr ⟨item, mem_of_getElem? later, same.symm⟩)
      rw [filter_cons, if_pos (decide_eq_true different), drop_succ_cons,
        drop_succ_cons, ih restNodup later]

/-- Ids of the visible characters a range delete removes. -/
def coveredIds (projection : TextProjection) (start count : Nat) : List OpId :=
  ((projection.visible.drop start).take count).map Item.id

theorem Plain.deleteAt_eq (plain : projection.Plain) (start count : Nat) :
    projection.deleteAt start count =
      { projection with
        items := ((projection.coveredIds start count).map .bury).foldl applyEdit
          projection.items } := by
  induction count generalizing projection with
  | zero => rfl
  | succ count ih =>
    cases found : projection.visible[start]? with
    | none =>
      have none : projection.visible.drop start = [] :=
        drop_eq_nil_of_le (List.getElem?_eq_none_iff.mp found)
      simp [deleteAt, idAtVisibleOffset, found, coveredIds, none]
    | some item =>
      have known : item.id ∈ projection.ids := mem_ids_of_visible (mem_of_getElem? found)
      have next : Plain { projection with
          items := buryKey Item.id Item.bury item.id projection.items } := by
        refine plain.replace ?_
        rw [keys_buryKey Item.bury_id]
        exact plain.nodup
      have covered : projection.coveredIds start (count + 1) = item.id :: coveredIds
          { projection with
            items := buryKey Item.id Item.bury item.id projection.items } start count := by
        have shown : projection.visible.drop start =
            item :: projection.visible.drop (start + 1) := by
          obtain ⟨bound, rfl⟩ := List.getElem?_eq_some_iff.mp found
          exact drop_eq_getElem_cons bound
        have rest : visible { projection with
            items := buryKey Item.id Item.bury item.id projection.items } =
              projection.visible.filter fun other => decide (other.id ≠ item.id) :=
          visible_buryKey projection.items item.id
        rw [coveredIds, shown, take_succ_cons, map_cons, coveredIds, rest,
          drop_filter_ne plain.visible_nodup found]
      rw [covered, deleteAt, idAtVisibleOffset, found]
      change (projection.deleteKnown item.id).deleteAt start count = _
      rw [deleteKnown_known known, ih next]
      rfl

theorem coveredIds_min (projection : TextProjection) (start count : Nat) :
    projection.coveredIds start (min count (projection.visibleCharLen - start)) =
      projection.coveredIds start count := by
  have length : projection.visibleCharLen - start = (projection.visible.drop start).length := by
    rw [length_drop, visibleCharLen]
  rw [coveredIds, length, ← take_eq_take_min, coveredIds]

theorem coveredIds_known {count : Nat} (member : id ∈ projection.coveredIds start count) :
    id ∈ projection.ids := by
  obtain ⟨item, taken, rfl⟩ := mem_map.mp member
  exact mem_ids_of_visible (mem_of_mem_drop (mem_of_mem_take taken))

theorem split_visible (found : projection.visible[index]? = some item) :
    ∃ before behind, projection.items = before ++ item :: behind ∧ item.deleted = false ∧
      (before.filter fun item => !item.deleted) = projection.visible.take index ∧
      (behind.filter fun item => !item.deleted) = projection.visible.drop (index + 1) := by
  obtain ⟨bound, isItem⟩ := List.getElem?_eq_some_iff.mp found
  have parts : projection.visible =
      projection.visible.take index ++ item :: projection.visible.drop (index + 1) := by
    rw [← isItem, ← drop_eq_getElem_cons bound, take_append_drop]
  obtain ⟨front, rest, items, shownFront, shownRest⟩ := filter_eq_append_iff.mp parts
  obtain ⟨hidden, behind, restItems, allHidden, shown, shownBehind⟩ :=
    filter_eq_cons_iff.mp shownRest
  refine ⟨front ++ hidden, behind, by simp [items, restItems], by simpa using shown, ?_,
    shownBehind⟩
  rw [filter_append, shownFront, filter_eq_nil_iff.mpr allHidden, append_nil]

theorem Plain.not_mem_before (plain : projection.Plain)
    (items : projection.items = before ++ item :: behind) : item.id ∉ before.map Item.id := by
  have nodup := plain.nodup
  rw [ids, items, map_append, map_cons] at nodup
  exact fun member => (nodup_append.mp nodup).2.2 item.id member item.id (.head _) rfl

theorem Plain.takeWhile_before (plain : projection.Plain)
    (items : projection.items = before ++ item :: behind) :
    projection.items.takeWhile (fun other => decide (other.id ≠ item.id)) = before ∧
      projection.items.dropWhile (fun other => decide (other.id ≠ item.id)) = item :: behind := by
  have earlier : ∀ other ∈ before, decide (other.id ≠ item.id) = true := by
    intro other member
    refine decide_eq_true fun same => plain.not_mem_before items ?_
    exact mem_map.mpr ⟨other, member, same⟩
  rw [items, takeWhile_append_of_pos earlier, dropWhile_append_of_pos earlier]
  simp

theorem Plain.visibleOffsetOfId_eq (plain : projection.Plain)
    (found : projection.visible[index]? = some item) :
    projection.visibleOffsetOfId item.id = some index := by
  obtain ⟨before, behind, items, shown, shownBefore, _⟩ := split_visible found
  have first : projection.items.find? (fun other => decide (other.id = item.id)) = some item := by
    rw [items, List.find?_append, List.find?_eq_none.mpr, List.find?_cons_of_pos] <;> simp
    intro other member same
    exact plain.not_mem_before items (mem_map.mpr ⟨other, member, same⟩)
  have bound : index ≤ projection.visible.length :=
    (List.getElem?_eq_some_iff.mp found).1.le
  simp only [visibleOffsetOfId, first, shown, Bool.false_eq_true, ↓reduceIte,
    (plain.takeWhile_before items).1, shownBefore, length_take, Nat.min_eq_left bound]

theorem resolveAnchorAfterVisible_present (projection : TextProjection) (anchor : TextRangeAnchor) :
    Present Item.id (projection.resolveAnchorAfterVisible anchor) projection.items := by
  change Present Item.id (if projection.resolveAnchorIndex anchor = 0 then none
    else projection.idAtVisibleOffset (projection.resolveAnchorIndex anchor - 1)) projection.items
  split
  · trivial
  · unfold idAtVisibleOffset
    cases found : projection.visible[projection.resolveAnchorIndex anchor - 1]? with
    | none => trivial
    | some item => exact mem_ids_of_visible (mem_of_getElem? found)

theorem Plain.applyRangeInsert (plain : projection.Plain) (base : OpId) (anchor : TextRangeAnchor)
    (text : String) :
    projection.Extends (projection.applyRangeInsert base anchor text)
      (charIds base 0 text.toList) :=
  plain.insertChars (projection.resolveAnchorAfterVisible_present anchor) text.toList

theorem Plain.applyRangeDelete_eq (plain : projection.Plain) (anchor : TextRangeAnchor)
    (lenChars : Nat) :
    projection.applyRangeDelete anchor lenChars =
      { projection with
        items := ((projection.coveredIds (projection.resolveAnchorIndex anchor) lenChars).map
          .bury).foldl applyEdit projection.items } := by
  rw [applyRangeDelete, plain.deleteAt_eq, coveredIds_min]

theorem valid_bury {targets : List OpId} (known : ∀ id ∈ targets, id ∈ items.map Item.id) :
    Valid applyEdit (EditLog.Enabled Item.id) items (targets.map .bury) := by
  induction targets generalizing items with
  | nil => trivial
  | cons target rest ih =>
    refine ⟨known target (.head _), ih fun id member => ?_⟩
    rw [applyEdit, EditLog.apply, keys_buryKey Item.bury_id]
    exact known id (.tail _ member)

/-- Burying items changes no id. -/
theorem ids_bury (targets : List OpId) (items : List Item) :
    ((targets.map EditLog.Edit.bury).foldl applyEdit items).map Item.id = items.map Item.id := by
  induction targets generalizing items with
  | nil => rfl
  | cons target rest ih =>
    exact (ih _).trans (keys_buryKey Item.bury_id target items)

theorem Plain.applyRangeDelete (plain : projection.Plain) (anchor : TextRangeAnchor)
    (lenChars : Nat) :
    (projection.applyRangeDelete anchor lenChars).Plain ∧
      (projection.applyRangeDelete anchor lenChars).ids = projection.ids := by
  rw [plain.applyRangeDelete_eq]
  refine ⟨plain.replace ?_, ids_bury _ _⟩
  rw [ids_bury]
  exact plain.nodup

end TextProjection

end NodalMerge
