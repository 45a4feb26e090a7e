import NodalMerge.Crdt.RangeText

namespace NodalMerge

open Confluence EditLog Function InsertAfter Item List

def Item.revive (item : Item) : Item := { item with deleted := false }

theorem Item.revive_id (item : Item) : item.revive.id = item.id := rfl

/-- A character insert as a projection receives it. -/
structure CharInsert where
  id : OpId
  after : Option OpId
  ch : Char

namespace CharInsert

def update (char : CharInsert) : TextProjection.UpdateOp := .insert char.id char.after char.ch

def edit (char : CharInsert) : TextEdit := .place ⟨char.id, char.ch, false⟩ char.after

end CharInsert

namespace TextProjection

/-- No two inserts share an id. -/
def Consistent (seen : Set UpdateOp) : Prop :=
  ∀ {first second : CharInsert}, first.update ∈ seen → second.update ∈ seen →
    first.id = second.id → first = second

/-- The predecessor chain of the character is complete. -/
inductive Rooted (seen : Set UpdateOp) : OpId → Prop where
  | root {id : OpId} {ch : Char} : .insert id none ch ∈ seen → Rooted seen id
  | child {id parent : OpId} {ch : Char} :
    .insert id (some parent) ch ∈ seen → Rooted seen parent → Rooted seen id

/-- The insert waits for its predecessor. -/
def Buffers (projection : TextProjection) (char : CharInsert) : Prop :=
  ∃ parent children, char.after = some parent ∧
    projection.orphans.lookup parent = some children ∧ (char.id, char.ch) ∈ children

/-- What the projection holds after the ops of `seen`. Inserts of `transit` have
left the buffer and are not placed yet; only predecessors of `waiting` may be
placed and still have buffered children. -/
structure Kept (seen : Set UpdateOp) (transit : List CharInsert) (waiting : Set OpId)
    (projection : TextProjection) : Prop where
  placed : ∃ order : List CharInsert,
    Valid applyEdit (EditLog.Enabled Item.id) [] (order.map CharInsert.edit) ∧
    projection.items.map Item.revive = (order.map CharInsert.edit).foldl applyEdit [] ∧
    ∀ char ∈ order, char.update ∈ seen
  flags : ∀ item ∈ projection.items, item.deleted = true ↔ .delete item.id ∈ seen
  pending : ∀ id, id ∈ projection.pendingDeletes ↔ .delete id ∈ seen ∧ id ∉ projection.ids
  buffer : ∀ {parent children}, projection.orphans.lookup parent = some children →
    (children.map Prod.fst).Nodup ∧ ∀ child ∈ children,
      .insert child.1 (some parent) child.2 ∈ seen ∧ child.1 ∉ projection.ids
  moving : (transit.map CharInsert.id).Nodup ∧ ∀ char ∈ transit,
    char.update ∈ seen ∧ char.id ∉ projection.ids ∧ ¬ projection.Buffers char
  covered : ∀ char : CharInsert, char.update ∈ seen →
    char.id ∈ projection.ids ∨ char ∈ transit ∨ projection.Buffers char
  orphaned : ∀ id ∈ projection.orphanIds,
    ∃ char : CharInsert, char.id = id ∧ char.update ∈ seen ∧ (char ∈ transit ∨ projection.Buffers char)
  marked : ∀ {char : CharInsert}, projection.Buffers char → char.id ∈ projection.orphanIds
  waits : ∀ parent ∈ projection.ids, projection.orphans.lookup parent ≠ none → parent ∈ waiting

variable {projection : TextProjection}

theorem Kept.empty : Kept ∅ [] ∅ empty where
  placed := ⟨[], trivial, rfl, by simp⟩
  flags := by simp [TextProjection.empty]
  pending := by simp [TextProjection.empty]
  buffer := by simp [TextProjection.empty]
  moving := by simp
  covered := by simp
  orphaned := by simp [TextProjection.empty]
  marked := by simp [TextProjection.empty, Buffers]
  waits := by simp [TextProjection.empty, ids]

theorem ids_revive (items : List Item) : (items.map Item.revive).map Item.id = items.map Item.id := by
  rw [map_map]
  rfl

/-- A placed insert is the one that bears its id. -/
theorem Kept.buffered (kept : Kept seen transit waiting projection)
    (buffered : projection.Buffers char) : char.update ∈ seen ∧ char.id ∉ projection.ids := by
  obtain ⟨parent, children, after, held, member⟩ := buffered
  obtain ⟨id, _, ch⟩ := char
  obtain rfl : _ = some parent := after
  exact (kept.buffer held).2 _ member

/-- Place one insert whose predecessor is there. -/
theorem Kept.integrate (kept : Kept seen (char :: transit) waiting projection)
    (consistent : Consistent seen) (present : Present Item.id char.after projection.items) :
    Kept seen transit (insert char.id waiting)
      ({ projection with orphanIds := projection.orphanIds.erase char.id }.integrate
        char.id char.after char.ch) := by
  obtain ⟨charSeen, fresh, unbuffered⟩ := kept.moving.2 char (.head _)
  have alone := nodup_cons.mp kept.moving.1
  have apart {other : CharInsert} (buffered : projection.Buffers other) : other.id ≠ char.id := by
    intro same
    obtain rfl := consistent (kept.buffered buffered).1 charSeen same
    exact unbuffered buffered
  let item : Item := ⟨char.id, char.ch, decide (char.id ∈ projection.pendingDeletes)⟩
  have grown {id : OpId} : id ∈ (insertAfter Item.id item char.after projection.items).map Item.id ↔
      id = char.id ∨ id ∈ projection.ids := by
    rw [(keys_insertAfter item char.after projection.items).mem_iff]
    exact mem_cons
  exact {
    placed := by
      obtain ⟨order, valid, items, ordered⟩ := kept.placed
      refine ⟨order ++ [char], ?_, ?_, ?_⟩
      · rw [map_append, Valid.append, ← items]
        refine ⟨valid, ⟨?_, ?_⟩, trivial⟩
        · rw [ids_revive]
          exact fresh
        · cases after : char.after with
          | none => trivial
          | some parent =>
            change parent ∈ (projection.items.map Item.revive).map Item.id
            rw [ids_revive]
            rw [after] at present
            exact present
      · rw [map_append, foldl_append, ← items]
        exact map_insertAfter revive_id item char.after projection.items
      · intro other member
        rcases mem_append.mp member with old | new
        · exact ordered other old
        · rw [mem_singleton.mp new]
          exact charSeen
    flags := by
      intro other member
      rcases mem_insertAfter.mp member with rfl | old
      · exact decide_eq_true_iff.trans ((kept.pending char.id).trans (and_iff_left fresh))
      · exact kept.flags other old
    pending := by
      intro id
      refine Finset.mem_erase.trans ?_
      rw [kept.pending id]
      refine ⟨fun ⟨other, deleted, unknown⟩ => ⟨deleted, fun known => ?_⟩,
        fun ⟨deleted, unknown⟩ => ?_⟩
      · exact (grown.mp known).elim other unknown
      · exact ⟨fun same => unknown (grown.mpr (.inl same)), deleted,
          fun known => unknown (grown.mpr (.inr known))⟩
    buffer := by
      intro parent children found
      obtain ⟨nodup, each⟩ := kept.buffer found
      refine ⟨nodup, fun child member => ⟨(each child member).1, fun known => ?_⟩⟩
      rcases grown.mp known with same | old
      · have buffered : projection.Buffers ⟨child.1, some parent, child.2⟩ :=
          ⟨parent, children, rfl, found, member⟩
        exact apart buffered same
      · exact (each child member).2 old
    moving := by
      refine ⟨alone.2, fun other member => ?_⟩
      obtain ⟨otherSeen, unknown, apart⟩ := kept.moving.2 other (.tail _ member)
      refine ⟨otherSeen, fun known => ?_, apart⟩
      rcases grown.mp known with same | old
      · exact alone.1 (same ▸ mem_map_of_mem member)
      · exact unknown old
    covered := by
      intro other otherSeen
      rcases kept.covered other otherSeen with old | moving | buffered
      · exact .inl (grown.mpr (.inr old))
      · rcases mem_cons.mp moving with rfl | later
        · exact .inl (grown.mpr (.inl rfl))
        · exact .inr (.inl later)
      · exact .inr (.inr buffered)
    orphaned := by
      intro id member
      obtain ⟨other, old⟩ := Finset.mem_erase.mp member
      obtain ⟨orphan, rfl, orphanSeen, place⟩ := kept.orphaned id old
      refine ⟨orphan, rfl, orphanSeen, place.imp (fun moving => ?_) id⟩
      rcases mem_cons.mp moving with rfl | later
      · exact (other rfl).elim
      · exact later
    marked := by
      intro other buffered
      exact Finset.mem_erase.mpr ⟨apart buffered, kept.marked buffered⟩
    waits := by
      intro parent known held
      rcases grown.mp known with rfl | old
      · exact .inl rfl
      · exact .inr (kept.waits parent old held) }

theorem lookup_erase_eq_some_iff :
    (projection.orphans.erase parent).lookup above = some children ↔
      above ≠ parent ∧ projection.orphans.lookup above = some children := by
  by_cases same : above = parent
  · subst same
    simp [Finmap.lookup_erase]
  · rw [Finmap.lookup_erase_ne same, and_iff_right same]

theorem buffers_erase_iff :
    Buffers { projection with orphans := projection.orphans.erase parent } char ↔
      char.after ≠ some parent ∧ projection.Buffers char := by
  constructor
  · rintro ⟨above, children, after, held, member⟩
    obtain ⟨other, held⟩ := lookup_erase_eq_some_iff.mp held
    rw [after]
    exact ⟨fun same => other (Option.some.inj same), above, children, after, held, member⟩
  · rintro ⟨elsewhere, above, children, after, held, member⟩
    have other : above ≠ parent := fun same => elsewhere (same ▸ after)
    exact ⟨above, children, after, lookup_erase_eq_some_iff.mpr ⟨other, held⟩, member⟩

/-- Take the children of a predecessor out of the buffer. -/
theorem Kept.release
    (kept : Kept seen [] waiting projection)
    (found : projection.orphans.lookup parent = some children) :
    Kept seen (children.map (fun child => ⟨child.1, some parent, child.2⟩))
      (waiting \ {parent}) { projection with orphans := projection.orphans.erase parent } := by
  obtain ⟨nodup, each⟩ := kept.buffer found
  have wider {char : CharInsert} (buffered : projection.Buffers char) :
      char ∈ children.map (fun child => (⟨child.1, some parent, child.2⟩ : CharInsert)) ∨
        Buffers { projection with orphans := projection.orphans.erase parent } char := by
    by_cases below : char.after = some parent
    · obtain ⟨other, held, after, here, member⟩ := buffered
      obtain rfl : parent = other := Option.some.inj (below.symm.trans after)
      obtain rfl : children = held := Option.some.inj (found.symm.trans here)
      exact .inl (mem_map.mpr ⟨_, member, by rw [← after]⟩)
    · exact .inr (buffers_erase_iff.mpr ⟨below, buffered⟩)
  exact {
    placed := kept.placed
    flags := kept.flags
    pending := kept.pending
    buffer := fun here => kept.buffer (lookup_erase_eq_some_iff.mp here).2
    moving := by
      refine ⟨by simpa [comp_def] using nodup, fun char member => ?_⟩
      obtain ⟨child, inside, rfl⟩ := mem_map.mp member
      exact ⟨(each child inside).1, (each child inside).2,
        fun buffered => (buffers_erase_iff.mp buffered).1 rfl⟩
    covered := by
      intro char charSeen
      rcases kept.covered char charSeen with old | moving | buffered
      · exact .inl old
      · cases moving
      · exact .inr (wider buffered)
    orphaned := by
      intro id member
      obtain ⟨char, same, charSeen, moving | buffered⟩ := kept.orphaned id member
      · cases moving
      · exact ⟨char, same, charSeen, wider buffered⟩
    marked := fun buffered => kept.marked (buffers_erase_iff.mp buffered).2
    waits := by
      intro other known held
      obtain ⟨list, here⟩ := Option.ne_none_iff_exists'.mp held
      obtain ⟨different, there⟩ := lookup_erase_eq_some_iff.mp here
      exact ⟨kept.waits other known (there ▸ Option.some_ne_none list), different⟩ }

theorem Kept.mono (kept : Kept seen transit waiting projection)
    (wider : ∀ id ∈ projection.ids, id ∈ waiting → id ∈ more) : Kept seen transit more projection :=
  { kept with waits := fun parent known held => wider parent known (kept.waits parent known held) }

theorem mem_ids_integrate {id : OpId} {after : Option OpId} {ch : Char} :
    other ∈ (projection.integrate id after ch).ids ↔ other = id ∨ other ∈ projection.ids := by
  rw [ids, TextProjection.integrate, (keys_insertAfter _ after projection.items).mem_iff]
  exact mem_cons

theorem mem_ids_adopt {id : OpId} :
    id ∈ (projection.adopt parent children).ids ↔
      id ∈ children.map Prod.fst ∨ id ∈ projection.ids := by
  induction children generalizing projection with
  | nil => simp [TextProjection.adopt]
  | cons child rest ih =>
    refine ih.trans ?_
    rw [mem_ids_integrate, map_cons, mem_cons, or_left_comm, or_assoc]
    rfl

/-- Place the children of a predecessor one by one. -/
theorem Kept.adopt
    (kept : Kept seen (children.map (fun child => ⟨child.1, some parent, child.2⟩)) waiting
      projection) (consistent : Consistent seen) (known : parent ∈ projection.ids) :
    Kept seen [] {id | id ∈ children.map Prod.fst ∨ id ∈ waiting}
      (projection.adopt parent children) := by
  induction children generalizing projection waiting with
  | nil => exact kept.mono fun _ _ waits => .inr waits
  | cons child rest ih =>
    refine (ih (kept.integrate consistent known) (mem_ids_integrate.mpr (.inr known))).mono ?_
    rintro id - (later | rfl | before)
    · exact .inl (.tail _ later)
    · exact .inl (.head _)
    · exact .inr before

theorem drain_missing
    (missing : projection.orphans.lookup parent = none) :
    projection.drain (parent :: stack) = projection.drain stack := by
  rw [TextProjection.drain]
  split
  · rfl
  · rename_i found
    rw [missing] at found
    cases found

theorem drain_found
    (found : projection.orphans.lookup parent = some children) :
    projection.drain (parent :: stack) =
      (({ projection with orphans := projection.orphans.erase parent } : TextProjection).adopt
        parent children).drain ((children.map Prod.fst).reverse ++ stack) := by
  rw [TextProjection.drain]
  split
  · rename_i missing
    rw [missing] at found
    cases found
  · rename_i others here
    obtain rfl : others = children := Option.some.inj (here.symm.trans found)
    rfl

/-- The stack loop places everything that was waiting for its entries. -/
theorem Kept.drain (kept : Kept seen [] {id | id ∈ stack} projection)
    (consistent : Consistent seen) (known : ∀ id ∈ stack, id ∈ projection.ids) :
    Kept seen [] ∅ (projection.drain stack) := by
  induction projection, stack using TextProjection.drain.induct with
  | case1 projection =>
    rw [TextProjection.drain]
    exact kept.mono fun _ _ waits => (not_mem_nil waits).elim
  | case2 projection parent stack missing ih =>
    rw [drain_missing missing]
    refine ih { kept with waits := fun other isKnown held => ?_ } fun id member =>
      known id (.tail _ member)
    rcases mem_cons.mp (kept.waits other isKnown held) with rfl | later
    · exact (held missing).elim
    · exact later
  | case3 projection parent stack children found released ih =>
    rw [drain_found found]
    have adopted := (kept.release found).adopt consistent (known parent (.head _))
    refine ih (adopted.mono ?_) ?_
    · rintro id - (child | ⟨waits, other⟩)
      · exact mem_append_left _ (mem_reverse.mpr child)
      · exact mem_append_right _ ((mem_cons.mp waits).resolve_left other)
    · intro id member
      rcases mem_append.mp member with child | later
      · exact mem_ids_adopt.mpr (.inl (mem_reverse.mp child))
      · exact mem_ids_adopt.mpr (.inr (known id (.tail _ later)))

theorem Kept.drainOrphansOf (kept : Kept seen [] {parent} projection)
    (consistent : Consistent seen) (known : parent ∈ projection.ids) :
    Kept seen [] ∅ (projection.drainOrphansOf parent) := by
  rw [TextProjection.drainOrphansOf]
  split
  · rename_i none
    refine { kept with waits := fun other _ held => ?_ }
    rw [← Option.isSome_iff_ne_none, Finmap.lookup_isSome, ← Finmap.mem_keys, none] at held
    simp at held
  · refine (kept.mono ?_).drain consistent ?_
    · rintro id - rfl
      exact .head _
    · intro id member
      rw [mem_singleton.mp member]
      exact known

/-- An op that was seen before changes nothing. -/
theorem Kept.again {update : UpdateOp} (kept : Kept seen [] ∅ projection) (old : update ∈ seen) :
    Kept (insert update seen) [] ∅ projection := by
  rwa [Set.insert_eq_of_mem old]

theorem mem_ids_of_order {order : List CharInsert} {id : OpId}
    (items : projection.items.map Item.revive = (order.map CharInsert.edit).foldl applyEdit []) :
    id ∈ projection.ids ↔ ∃ char ∈ order, char.id = id := by
  rw [ids, ← ids_revive, items, (keys_foldl bury_id _ []).mem_iff]
  simp [CharInsert.edit, EditLog.placed, eq_comm]

theorem Kept.seen_of_known {id : OpId} (kept : Kept seen transit waiting projection)
    (known : id ∈ projection.ids) : ∃ char : CharInsert, char.id = id ∧ char.update ∈ seen := by
  obtain ⟨order, valid, items, ordered⟩ := kept.placed
  obtain ⟨char, member, same⟩ := (mem_ids_of_order items).mp known
  exact ⟨char, same, ordered char member⟩

/-- A new insert arrives; nothing is done with it yet. -/
theorem Kept.arrive (kept : Kept seen [] ∅ projection) (fresh : char.id ∉ projection.ids)
    (unmarked : char.id ∉ projection.orphanIds) :
    Kept (insert char.update seen) [char] ∅ projection where
  placed := by
    obtain ⟨order, valid, items, ordered⟩ := kept.placed
    exact ⟨order, valid, items, fun other member => .inr (ordered other member)⟩
  flags item member := by simpa [CharInsert.update] using kept.flags item member
  pending id := by simpa [CharInsert.update] using kept.pending id
  buffer found := by
    obtain ⟨nodup, each⟩ := kept.buffer found
    exact ⟨nodup, fun child member => ⟨.inr (each child member).1, (each child member).2⟩⟩
  moving := by
    refine ⟨nodup_singleton _, fun other member => ?_⟩
    rw [mem_singleton.mp member]
    exact ⟨.inl rfl, fresh, fun buffered => unmarked (kept.marked buffered)⟩
  covered other otherSeen := by
    rcases otherSeen with same | old
    · have twin : other = char := by
        cases other
        cases char
        simpa [CharInsert.update] using same
      exact .inr (.inl (mem_singleton.mpr twin))
    · rcases kept.covered other old with known | moving | buffered
      · exact .inl known
      · cases moving
      · exact .inr (.inr buffered)
  orphaned id member := by
    obtain ⟨other, same, otherSeen, moving | buffered⟩ := kept.orphaned id member
    · cases moving
    · exact ⟨other, same, .inr otherSeen, .inr buffered⟩
  marked := kept.marked
  waits := kept.waits

/-- The projection with one more insert in the buffer. -/
def hold (projection : TextProjection) (char : CharInsert) (parent : OpId) : TextProjection :=
  { projection with
    orphans := projection.orphans.insert parent
      ((projection.orphans.lookup parent).getD [] ++ [(char.id, char.ch)])
    orphanIds := insert char.id projection.orphanIds }

theorem lookup_hold (projection : TextProjection) (char : CharInsert) (parent above : OpId) :
    (projection.hold char parent).orphans.lookup above =
      if above = parent then
        some ((projection.orphans.lookup parent).getD [] ++ [(char.id, char.ch)])
      else projection.orphans.lookup above :=
  lookup_insert_ite _ _ _ _

theorem buffers_of_sibling (member : child ∈ (projection.orphans.lookup parent).getD []) :
    projection.Buffers ⟨child.1, some parent, child.2⟩ := by
  cases held : projection.orphans.lookup parent with
  | none => simp [held] at member
  | some children =>
    rw [held, Option.getD_some] at member
    exact ⟨parent, children, rfl, held, member⟩

theorem buffers_hold_iff (after : char.after = some parent) :
    (projection.hold char parent).Buffers other ↔ other = char ∨ projection.Buffers other := by
  constructor
  · rintro ⟨above, children, otherAfter, held, member⟩
    rw [lookup_hold] at held
    split at held
    · rename_i same
      subst same
      cases held
      obtain ⟨id, _, ch⟩ := other
      obtain rfl : _ = some above := otherAfter
      rcases mem_append.mp member with old | new
      · exact .inr (buffers_of_sibling old)
      · obtain ⟨sameId, sameCh⟩ := Prod.mk.inj (mem_singleton.mp new)
        refine .inl ?_
        rw [CharInsert.mk.injEq]
        exact ⟨sameId, after.symm, sameCh⟩
    · exact .inr ⟨above, children, otherAfter, held, member⟩
  · rintro (rfl | ⟨above, children, otherAfter, held, member⟩)
    · exact ⟨parent, _, after, (lookup_hold _ _ _ _).trans (if_pos rfl), by simp⟩
    · by_cases same : above = parent
      · subst same
        refine ⟨above, _, otherAfter, (lookup_hold _ _ _ _).trans (if_pos rfl), ?_⟩
        simp [held, member]
      · exact ⟨above, children, otherAfter,
          (lookup_hold _ _ _ _).trans ((if_neg same).trans held), member⟩

theorem Kept.siblings_nodup (kept : Kept seen transit waiting projection) (parent : OpId) :
    (((projection.orphans.lookup parent).getD []).map Prod.fst).Nodup := by
  cases held : projection.orphans.lookup parent with
  | none => exact nodup_nil
  | some children => exact (kept.buffer held).1

/-- The predecessor is missing: the insert joins its buffered siblings. -/
theorem Kept.postpone (kept : Kept seen [char] ∅ projection) (after : char.after = some parent)
    (unmarked : char.id ∉ projection.orphanIds) (missing : parent ∉ projection.ids) :
    Kept seen [] ∅ (projection.hold char parent) := by
  obtain ⟨charSeen, fresh, -⟩ := kept.moving.2 char (.head _)
  exact {
    placed := kept.placed
    flags := kept.flags
    pending := kept.pending
    buffer := by
      intro above children held
      refine ⟨?_, fun child member => ?_⟩
      · rw [lookup_hold] at held
        split at held
        · cases held
          rw [map_append, nodup_append]
          refine ⟨kept.siblings_nodup parent, nodup_singleton _, ?_⟩
          rintro id member other last rfl
          obtain ⟨child, inside, rfl⟩ := mem_map.mp member
          have marked : child.1 ∈ projection.orphanIds := kept.marked (buffers_of_sibling inside)
          rw [(mem_singleton.mp last : child.1 = char.id)] at marked
          exact unmarked marked
        · exact (kept.buffer held).1
      · have buffered : (projection.hold char parent).Buffers ⟨child.1, some above, child.2⟩ :=
          ⟨above, children, rfl, held, member⟩
        rcases (buffers_hold_iff after).mp buffered with rfl | old
        · exact ⟨charSeen, fresh⟩
        · exact kept.buffered old
    moving := by simp
    covered := by
      intro other otherSeen
      rw [buffers_hold_iff after]
      rcases kept.covered other otherSeen with known | moving | buffered
      · exact .inl known
      · exact .inr (.inr (.inl (mem_singleton.mp moving)))
      · exact .inr (.inr (.inr buffered))
    orphaned := by
      intro id member
      rcases Finset.mem_insert.mp member with rfl | old
      · exact ⟨char, rfl, charSeen, .inr ((buffers_hold_iff after).mpr (.inl rfl))⟩
      · obtain ⟨other, same, otherSeen, moving | buffered⟩ := kept.orphaned id old
        · rw [mem_singleton.mp moving] at same
          exact (unmarked (same ▸ old)).elim
        · exact ⟨other, same, otherSeen, .inr ((buffers_hold_iff after).mpr (.inr buffered))⟩
    marked := by
      intro other buffered
      rcases (buffers_hold_iff after).mp buffered with rfl | old
      · exact Finset.mem_insert_self _ _
      · exact Finset.mem_insert_of_mem (kept.marked old)
    waits := by
      intro above known held
      have other : above ≠ parent := fun same => missing (same ▸ known)
      rw [lookup_hold, if_neg other] at held
      exact kept.waits above known held }

theorem Kept.applyInsert (char : CharInsert) (kept : Kept seen [] ∅ projection)
    (consistent : Consistent (insert char.update seen)) :
    Kept (insert char.update seen) [] ∅
      (projection.applyInsert char.id char.after char.ch) := by
  by_cases known : char.id ∈ projection.ids
  · rw [applyInsert_known known]
    obtain ⟨other, same, otherSeen⟩ := kept.seen_of_known known
    obtain rfl := consistent (.inr otherSeen) (.inl rfl) same
    exact kept.again otherSeen
  by_cases orphan : char.id ∈ projection.orphanIds
  · have ignored : projection.applyInsert char.id char.after char.ch = projection := by
      simp [TextProjection.applyInsert, orphan]
    rw [ignored]
    obtain ⟨other, same, otherSeen, -⟩ := kept.orphaned char.id orphan
    obtain rfl := consistent (.inr otherSeen) (.inl rfl) same
    exact kept.again otherSeen
  have arrived := kept.arrive known orphan
  have placed (present : Present Item.id char.after projection.items) :
      Kept (insert char.update seen) [] ∅
        ((projection.integrate char.id char.after char.ch).drainOrphansOf char.id) := by
    have integrated := arrived.integrate consistent present
    rw [Finset.erase_eq_of_notMem orphan] at integrated
    refine (integrated.mono ?_).drainOrphansOf consistent (mem_ids_integrate.mpr (.inl rfl))
    rintro id - (same | none)
    · exact same
    · exact none.elim
  have unknown : ¬ (projection.knows char.id || decide (char.id ∈ projection.orphanIds)) = true := by
    rw [Bool.or_eq_true, knows_iff]
    simp [known, orphan]
  rw [TextProjection.applyInsert.eq_def, if_neg unknown]
  split
  · rename_i after
    rw [after] at placed
    exact placed trivial
  · rename_i parent after
    rw [after] at placed
    split
    · rename_i parentKnown
      exact placed (knows_iff.mp parentKnown)
    · rename_i parentMissing
      exact arrived.postpone after orphan fun member => parentMissing (knows_iff.mpr member)

section
variable (kept : Kept seen [] ∅ projection)
include kept

/-- A delete touches neither the order of the items nor the buffer. -/
theorem Kept.tombstone {after : TextProjection}
    (sameItems : after.items.map Item.revive = projection.items.map Item.revive)
    (sameOrphans : after.orphans = projection.orphans)
    (sameOrphanIds : after.orphanIds = projection.orphanIds)
    (flags : ∀ item ∈ after.items, item.deleted = true ↔ item.id = target ∨ .delete item.id ∈ seen)
    (pending : ∀ id, id ∈ after.pendingDeletes ↔
      (id = target ∨ .delete id ∈ seen) ∧ id ∉ projection.ids) :
    Kept (insert (.delete target) seen) [] ∅ after := by
  have sameIds : after.ids = projection.ids := by
    rw [ids, ids, ← ids_revive, sameItems, ids_revive]
  have buffers {char : CharInsert} : after.Buffers char ↔ projection.Buffers char := by
    rw [Buffers, Buffers, sameOrphans]
  have deletes {id : OpId} : .delete id ∈ insert (UpdateOp.delete target) seen ↔
      id = target ∨ .delete id ∈ seen := by
    simp
  exact {
    placed := by
      obtain ⟨order, valid, items, ordered⟩ := kept.placed
      exact ⟨order, valid, sameItems.trans items, fun char member => .inr (ordered char member)⟩
    flags := fun item member => (flags item member).trans deletes.symm
    pending := fun id => by rw [pending, deletes, sameIds]
    buffer := by
      intro parent children found
      rw [sameOrphans] at found
      rw [sameIds]
      obtain ⟨nodup, each⟩ := kept.buffer found
      exact ⟨nodup, fun child member => ⟨.inr (each child member).1, (each child member).2⟩⟩
    moving := by simp
    covered := by
      intro char charSeen
      rw [sameIds, buffers]
      exact kept.covered char (by simpa [CharInsert.update] using charSeen)
    orphaned := by
      intro id member
      rw [sameOrphanIds] at member
      obtain ⟨char, same, charSeen, place⟩ := kept.orphaned id member
      exact ⟨char, same, .inr charSeen, by rwa [buffers]⟩
    marked := fun buffered => sameOrphanIds ▸ kept.marked (buffers.mp buffered)
    waits := by
      rw [sameIds, sameOrphans]
      exact kept.waits }

theorem Kept.applyDelete :
    Kept (insert (.delete target) seen) [] ∅ (projection.applyDelete target) := by
  by_cases known : target ∈ projection.ids
  · rw [TextProjection.applyDelete, if_pos (knows_iff.mpr known), deleteKnown_known known]
    refine kept.tombstone ?_ rfl rfl ?_ ?_
    · rw [EditLog.buryKey, map_map]
      refine map_congr_left fun item _ => ?_
      simp only [comp_apply]
      split <;> rfl
    · intro item member
      obtain ⟨old, inside, rfl⟩ := mem_map.mp member
      by_cases hit : old.id = target
      · simp [hit, Item.bury]
      · simp [hit, kept.flags old inside]
    · intro id
      rw [kept.pending]
      refine and_congr_left fun unknown => (or_iff_right fun same => ?_).symm
      exact unknown (same ▸ known)
  · have missing : ¬ projection.knows target = true := fun member => known (knows_iff.mp member)
    rw [TextProjection.applyDelete, if_neg missing]
    refine kept.tombstone rfl rfl rfl (fun item member => ?_) (fun id => ?_)
    · rw [kept.flags item member]
      refine (or_iff_right fun same => known ?_).symm
      rw [← same]
      exact mem_map_of_mem member
    · rw [Finset.mem_insert, kept.pending]
      constructor
      · rintro (rfl | ⟨deleted, unknown⟩)
        · exact ⟨.inl rfl, known⟩
        · exact ⟨.inr deleted, unknown⟩
      · rintro ⟨same | deleted, unknown⟩
        · exact .inl same
        · exact .inr ⟨deleted, unknown⟩

theorem Kept.applyUpdatesCoalesced (consistent : Consistent (seen ∪ {update | update ∈ updates})) :
    Kept (seen ∪ {update | update ∈ updates}) [] ∅ (projection.applyUpdatesCoalesced updates) := by
  induction updates generalizing seen projection with
  | nil => simpa [TextProjection.applyUpdatesCoalesced] using kept
  | cons update rest ih =>
    have split : seen ∪ {other | other ∈ update :: rest} =
        insert update seen ∪ {other | other ∈ rest} := by
      ext other
      simp [or_left_comm, or_assoc]
    rw [split] at consistent ⊢
    refine ih ?_ consistent
    cases update with
    | insert id after ch =>
      exact kept.applyInsert ⟨id, after, ch⟩
        fun firstSeen secondSeen => consistent (.inl firstSeen) (.inl secondSeen)
    | delete target => exact kept.applyDelete

end

theorem rooted_of_valid {order : List CharInsert} {items : List Item}
    (valid : Valid applyEdit (EditLog.Enabled Item.id) items (order.map CharInsert.edit))
    (old : ∀ id ∈ items.map Item.id, Rooted seen id)
    (ordered : ∀ char ∈ order, char.update ∈ seen) : ∀ char ∈ order, Rooted seen char.id := by
  induction order generalizing items with
  | nil => simp
  | cons char rest ih =>
    obtain ⟨⟨-, present⟩, later⟩ := valid
    have charSeen := ordered char (.head _)
    have rooted : Rooted seen char.id := by
      obtain ⟨id, after, ch⟩ := char
      cases after with
      | none => exact .root charSeen
      | some parent => exact .child charSeen (old parent present)
    have grown : ∀ id ∈ (applyEdit items char.edit).map Item.id, Rooted seen id := by
      intro id member
      rcases mem_cons.mp ((keys_insertAfter _ char.after items).mem_iff.mp member) with
        rfl | before
      · exact rooted
      · exact old id before
    intro other member
    rcases mem_cons.mp member with rfl | inRest
    · exact rooted
    · exact ih later grown (fun char member => ordered char (.tail _ member)) other inRest

/-- Exactly the characters with a complete predecessor chain are placed. -/
theorem Kept.mem_ids_iff {id : OpId} (kept : Kept seen [] ∅ projection) :
    id ∈ projection.ids ↔ Rooted seen id := by
  constructor
  · intro known
    obtain ⟨order, valid, items, ordered⟩ := kept.placed
    obtain ⟨char, member, rfl⟩ := (mem_ids_of_order items).mp known
    exact rooted_of_valid valid (by simp) ordered char member
  · intro rooted
    induction rooted with
    | @root id ch rootSeen =>
      rcases kept.covered ⟨id, none, ch⟩ rootSeen with known | moving | ⟨parent, children, after, -⟩
      · exact known
      · cases moving
      · cases after
    | @child id parent ch childSeen _ parentKnown =>
      rcases kept.covered ⟨id, some parent, ch⟩ childSeen with
        known | moving | ⟨above, children, after, found, -⟩
      · exact known
      · cases moving
      · cases after
        have held : projection.orphans.lookup parent ≠ none := by simp [found]
        exact (kept.waits parent parentKnown held).elim

/-- The placed inserts, in an order in which each finds its predecessor. -/
theorem Kept.order (kept : Kept seen [] ∅ projection) (consistent : Consistent seen) :
    ∃ order : List CharInsert,
      Valid applyEdit (EditLog.Enabled Item.id) [] (order.map CharInsert.edit) ∧
      projection.items.map Item.revive = (order.map CharInsert.edit).foldl applyEdit [] ∧
      (order.map CharInsert.id).Nodup ∧
      ∀ char : CharInsert, char ∈ order ↔ char.update ∈ seen ∧ Rooted seen char.id := by
  obtain ⟨order, valid, items, ordered⟩ := kept.placed
  refine ⟨order, valid, items, ?_, fun char => ⟨fun member => ?_, fun ⟨charSeen, rooted⟩ => ?_⟩⟩
  · have apart := (pairwise_independent bury_id valid).1
    rw [pairwise_map] at apart
    exact pairwise_map.mpr apart
  · exact ⟨ordered char member, kept.mem_ids_iff.mp ((mem_ids_of_order items).mpr ⟨char, member, rfl⟩)⟩
  · obtain ⟨other, member, same⟩ := (mem_ids_of_order items).mp (kept.mem_ids_iff.mpr rooted)
    rwa [consistent charSeen (ordered other member) same.symm]

theorem items_eq_of_revive {Deleted : OpId → Prop} {first second : List Item}
    (revived : first.map Item.revive = second.map Item.revive)
    (flags : ∀ item ∈ first, item.deleted = true ↔ Deleted item.id)
    (flagsSecond : ∀ item ∈ second, item.deleted = true ↔ Deleted item.id) : first = second := by
  induction first generalizing second with
  | nil => exact (map_eq_nil_iff.mp revived.symm).symm
  | cons head rest ih =>
    cases second with
    | nil => cases revived
    | cons other others =>
      obtain ⟨heads, tails⟩ := List.cons.inj revived
      have sameId : head.id = other.id := (Item.mk.inj heads).1
      have sameCh : head.ch = other.ch := (Item.mk.inj heads).2.1
      have sameFlag : head.deleted = other.deleted := by
        rw [Bool.eq_iff_iff, flags head (.head _), flagsSecond other (.head _), sameId]
      have same : head = other := by
        cases head
        cases other
        simp_all
      rw [same, ih tails (fun item member => flags item (.tail _ member))
        fun item member => flagsSecond item (.tail _ member)]

/-- The items depend only on the set of ops seen. -/
theorem Kept.items_eq (kept : Kept seen [] ∅ projection) (keptOther : Kept seen [] ∅ other)
    (consistent : Consistent seen) : projection.items = other.items := by
  obtain ⟨order, valid, items, nodup, members⟩ := kept.order consistent
  obtain ⟨orderOther, validOther, itemsOther, nodupOther, membersOther⟩ := keptOther.order consistent
  have same : order.Perm orderOther :=
    (perm_ext_iff_of_nodup nodup.of_map nodupOther.of_map).mpr
      fun char => (members char).trans (membersOther char).symm
  have revived : projection.items.map Item.revive = other.items.map Item.revive := by
    rw [items, itemsOther]
    exact foldl_apply_perm bury_id (same.map _) valid validOther
  exact @items_eq_of_revive (fun id => .delete id ∈ seen) _ _ revived kept.flags keptOther.flags

/-- The ops of a set of inserts and a set of delete targets. -/
def issued (inserts : List CharInsert) (deletes : List OpId) : Set UpdateOp :=
  {update | (∃ char ∈ inserts, char.update = update) ∨ ∃ target ∈ deletes, .delete target = update}

theorem mem_issued_insert {inserts : List CharInsert} {deletes : List OpId} {char : CharInsert} :
    char.update ∈ issued inserts deletes ↔ char ∈ inserts := by
  constructor
  · rintro (⟨other, member, equal⟩ | ⟨target, -, equal⟩)
    · cases char
      cases other
      simp_all [CharInsert.update]
    · cases equal
  · exact fun member => .inl ⟨char, member, rfl⟩

theorem consistent_issued (distinct : (inserts.map CharInsert.id).Nodup) :
    Consistent (issued inserts deletes) := by
  intro first second firstSeen secondSeen same
  exact inj_on_of_nodup_map distinct (mem_issued_insert.mp firstSeen)
    (mem_issued_insert.mp secondSeen) same

theorem foldl_edit_perm (order : List CharInsert) (items : List Item) :
    ((order.map CharInsert.edit).foldl applyEdit items).Perm
      (order.map (fun char => (⟨char.id, char.ch, false⟩ : Item)) ++ items) := by
  induction order generalizing items with
  | nil => exact .refl _
  | cons char rest ih =>
    refine (ih _).trans (((insertAfter_perm _ char.after items).append_left _).trans ?_)
    exact perm_middle

theorem Kept.mem_resolveSeq {id : OpId} {ch : Char} (kept : Kept seen [] ∅ projection)
    (consistent : Consistent seen) : (id, ch) ∈ projection.resolveSeq ↔
      (∃ after, .insert id after ch ∈ seen) ∧ Rooted seen id ∧ .delete id ∉ seen := by
  obtain ⟨order, valid, items, -, members⟩ := kept.order consistent
  have revived {item : Item} : item ∈ projection.items.map Item.revive ↔
      ∃ char ∈ order, ⟨char.id, char.ch, false⟩ = item := by
    rw [items, (foldl_edit_perm order []).mem_iff, append_nil, mem_map]
  constructor
  · intro member
    obtain ⟨item, visible, same⟩ := mem_map.mp member
    obtain ⟨inside, alive⟩ := mem_filter.mp visible
    cases same
    obtain ⟨char, inOrder, equal⟩ := revived.mp (mem_map_of_mem inside)
    obtain ⟨sameId, sameCh, -⟩ := Item.mk.inj equal
    obtain ⟨charSeen, rooted⟩ := (members char).mp inOrder
    refine ⟨⟨char.after, ?_⟩, sameId ▸ rooted, fun deleted => ?_⟩
    · rw [← sameId, ← sameCh]
      exact charSeen
    · rw [(kept.flags item inside).mpr deleted] at alive
      cases alive
  · rintro ⟨⟨after, charSeen⟩, rooted, alive⟩
    have inOrder := (members ⟨id, after, ch⟩).mpr ⟨charSeen, rooted⟩
    obtain ⟨item, inside, equal⟩ := mem_map.mp (revived.mpr ⟨_, inOrder, rfl⟩)
    obtain ⟨rfl, rfl, -⟩ := Item.mk.inj equal
    refine mem_map.mpr ⟨item, mem_filter.mpr ⟨inside, ?_⟩, rfl⟩
    rw [Bool.not_eq_true', Bool.eq_false_iff]
    exact fun deleted => alive ((kept.flags item inside).mp deleted)

theorem Kept.nodup (kept : Kept seen [] ∅ projection) (consistent : Consistent seen) :
    projection.ids.Nodup := by
  obtain ⟨order, -, items, nodup, -⟩ := kept.order consistent
  rw [ids, ← ids_revive, items]
  refine ((foldl_edit_perm order []).map Item.id).nodup_iff.mpr ?_
  simpa [comp_def] using nodup

/-- Whatever the order and the repetitions, the projection shows the same
sequence: each character with a complete predecessor chain that is not deleted,
once. -/
theorem char_ops_converge (inserts : List CharInsert)
    (distinct : (inserts.map CharInsert.id).Nodup) (deletes : List OpId)
    (updates others : List UpdateOp)
    (exactly : {update | update ∈ updates} = issued inserts deletes)
    (exactlyOthers : {update | update ∈ others} = issued inserts deletes) :
    (empty.applyUpdatesCoalesced updates).resolveSeq =
        (empty.applyUpdatesCoalesced others).resolveSeq ∧
      ((empty.applyUpdatesCoalesced updates).resolveSeq.map Prod.fst).Nodup ∧
      ∀ id ch, (id, ch) ∈ (empty.applyUpdatesCoalesced updates).resolveSeq ↔
        (∃ after, ⟨id, after, ch⟩ ∈ inserts) ∧ Rooted (issued inserts deletes) id ∧
          id ∉ deletes := by
  have consistent : Consistent (issued inserts deletes) := consistent_issued distinct
  have kept (list : List UpdateOp) (all : {update | update ∈ list} = issued inserts deletes) :
      Kept (issued inserts deletes) [] ∅ (empty.applyUpdatesCoalesced list) := by
    rw [← Set.empty_union {update | update ∈ list}] at all
    rw [← all] at consistent ⊢
    exact Kept.empty.applyUpdatesCoalesced consistent
  refine ⟨?_, ?_, fun id ch => ?_⟩
  · rw [resolveSeq, resolveSeq, visible, visible,
      (kept updates exactly).items_eq (kept others exactlyOthers) consistent]
  · have all := (kept updates exactly).nodup consistent
    rw [resolveSeq, map_map]
    exact all.sublist (filter_sublist.map Item.id)
  · rw [(kept updates exactly).mem_resolveSeq consistent]
    have inserted (after : Option OpId) :
        .insert id after ch ∈ issued inserts deletes ↔ ⟨id, after, ch⟩ ∈ inserts :=
      @mem_issued_insert inserts deletes ⟨id, after, ch⟩
    have deleted : .delete id ∈ issued inserts deletes ↔ id ∈ deletes := by
      simp [issued, CharInsert.update]
    simp only [inserted, deleted]

def sampleId (lamport : Nat) : OpId := ⟨lamport, Bytes.zero 32⟩

/-- A chain whose ids go down and up again, and a character without its
predecessor. -/
def scattered : List CharInsert :=
  [⟨sampleId 5, none, 'a'⟩, ⟨sampleId 2, some (sampleId 5), 'b'⟩,
    ⟨sampleId 3, some (sampleId 2), 'c'⟩, ⟨sampleId 7, some (sampleId 9), 'd'⟩]

theorem scattered_converge :
    (empty.applyUpdatesCoalesced
        (scattered.map CharInsert.update ++ [.delete (sampleId 2)])).resolveSeq =
      (empty.applyUpdatesCoalesced (.delete (sampleId 2) ::
        (scattered.map CharInsert.update).reverse ++ scattered.map CharInsert.update)).resolveSeq ∧
    (sampleId 3, 'c') ∈ (empty.applyUpdatesCoalesced
      (scattered.map CharInsert.update ++ [.delete (sampleId 2)])).resolveSeq := by
  have result := char_ops_converge scattered (by decide) [sampleId 2]
    (scattered.map CharInsert.update ++ [.delete (sampleId 2)])
    (.delete (sampleId 2) ::
      (scattered.map CharInsert.update).reverse ++ scattered.map CharInsert.update)
    (by ext update; simp [issued, eq_comm])
    (by ext update; simp [issued, eq_comm, or_comm])
  refine ⟨result.1, (result.2.2 _ _).mpr ⟨⟨some (sampleId 2), by simp [scattered]⟩, ?_, by decide⟩⟩
  have inserted {char : CharInsert} (member : char ∈ scattered) :
      char.update ∈ issued scattered [sampleId 2] := mem_issued_insert.mpr member
  have first : Rooted (issued scattered [sampleId 2]) (sampleId 5) := .root (inserted (.head _))
  have second : Rooted (issued scattered [sampleId 2]) (sampleId 2) :=
    .child (inserted (.tail _ (.head _))) first
  exact .child (inserted (.tail _ (.tail _ (.head _)))) second

end TextProjection

end NodalMerge
