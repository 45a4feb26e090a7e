import NodalMerge.Server.Lineage

namespace NodalMerge

open Family Function List Machine Option
open ChildRoomSummary (childRoomId)

section
variable (index : String → List String) (parentOf : String → Option String)

/-- There is no entry for the parent, or the entry names its children. -/
def Faithful (parent : String) : Prop :=
  index parent = [] ∨ ∀ roomId, roomId ∈ index parent ↔ parentOf roomId = some parent

/-- The child is the only one of a parent without an entry, and no entry names it
under another parent. -/
structure Enters (parent child : String) : Prop where
  whole : index parent = [] → ∀ roomId, parentOf roomId = some parent → roomId = child
  unlinked : ∀ other, parentOf child = some other → other ≠ parent → index other = []

variable {index parentOf}

/-- A child is named under its parent. -/
theorem faithful_update_iff
    (grown : ∀ roomId, roomId ∈ children ↔ roomId = child ∨ roomId ∈ index parent)
    (faithful : ∀ other, Faithful index parentOf other) :
    (∀ other, Faithful (update index parent children)
      (update parentOf child (some parent)) other) ↔ Enters index parentOf parent child := by
  have named : child ∈ children := (grown child).mpr (.inl rfl)
  constructor
  · intro after
    refine ⟨fun empty roomId linked => ?_, fun other linked apart => ?_⟩
    · obtain none | exact := after parent
      · rw [update_self] at none
        rw [none] at named
        cases named
      · by_contra different
        have inside := exact roomId
        rw [update_self, update_of_ne different, grown, empty] at inside
        obtain same | absent := inside.mpr linked
        · exact different same
        · cases absent
    · refine (faithful other).resolve_right fun exact => ?_
      have inside := (exact child).mpr linked
      obtain none | after := after other
      · rw [update_of_ne apart] at none
        rw [none] at inside
        cases inside
      · have still := after child
        rw [update_of_ne apart, update_self] at still
        exact apart (Option.some.inj (still.mp inside)).symm
  · intro enters other
    by_cases same : other = parent
    · subst same
      refine .inr fun roomId => ?_
      rw [update_self, grown]
      by_cases isChild : roomId = child
      · rw [isChild, update_self]
        exact ⟨fun _ => rfl, fun _ => .inl rfl⟩
      · rw [update_of_ne isChild]
        refine (or_iff_right isChild).trans ?_
        obtain empty | exact := faithful other
        · rw [empty]
          exact ⟨nofun, fun linked =>
            absurd (enters.whole empty roomId linked) isChild⟩
        · exact exact roomId
    · rw [Faithful, update_of_ne same]
      obtain empty | exact := faithful other
      · exact .inl empty
      · by_cases linked : parentOf child = some other
        · exact .inl (enters.unlinked other linked same)
        · refine .inr fun roomId => (exact roomId).trans ?_
          by_cases isChild : roomId = child
          · rw [isChild, update_self]
            exact ⟨fun found => absurd found linked, fun found =>
              absurd (Option.some.inj found).symm same⟩
          · rw [update_of_ne isChild]

end

namespace Family

variable {state next : Family}

/-- The listing of the parent, made resident if it is not, names each room once whose
stored lineage names the parent, and no other. -/
def Lists (state : Family) (parentRoomId : String) : Prop :=
  ∃ listed, ((state.put parentRoomId (state.getOrCreate parentRoomId)).listChildren
      parentRoomId).2 = .ok listed ∧
    (listed.children.map childRoomId).Nodup ∧
    ∀ roomId, roomId ∈ listed.children.map childRoomId ↔
      state.parentOf roomId = some parentRoomId

def ListsAll (state : Family) : Prop := ∀ parentRoomId, state.Lists parentRoomId

/-- The lineage that the hydration task has read and not indexed yet. -/
def awaited (room : FamilyRoom) : Option RoomLineage :=
  match room.hydration with
  | .publishing lineage => some lineage
  | .indexing lineage => some lineage
  | _ => none

/-- What holds in every run without a cap. -/
structure Indexed (state : Family) : Prop where
  uncapped : state.childrenIndexCap = none
  nodup : ∀ parentRoomId, (state.childrenIndex parentRoomId).Nodup
  stored : ∀ parentRoomId, ∀ roomId ∈ state.childrenIndex parentRoomId,
    (state.parentOf roomId).isSome
  awaits : ∀ roomId room, state.rooms.lookup roomId = some room → ∀ lineage ∈ awaited room,
    state.lineageStore.lookup roomId = some lineage

variable {ids : List String} {roomId : String} {listed : Family × List ChildRoomSummary}

theorem deduped_of_nodup (nodup : ids.Nodup) : deduped ids = ids := by
  have kept (before : List String) (apart : (before ++ ids).Nodup) :
      ids.foldl (fun kept id => if id ∈ kept then kept else kept ++ [id]) before =
        before ++ ids := by
    induction ids generalizing before with
    | nil => simp
    | cons id rest ih =>
      have fresh : id ∉ before := fun inside =>
        disjoint_of_nodup_append apart inside mem_cons_self
      rw [foldl_cons, if_neg fresh, ih nodup.of_cons _ (by simpa using apart)]
      simp
  exact kept [] nodup

theorem nodup_storedChildren (state : Family) (parentRoomId : String) :
    (state.storedChildren parentRoomId).Nodup :=
  (perm_insertionSort ..).nodup_iff.mpr (state.lineageStore.keys_nodup.filter _)

theorem mem_storedChildren :
    roomId ∈ state.storedChildren parentRoomId ↔ state.parentOf roomId = some parentRoomId := by
  rw [storedChildren, mem_insertionSort, mem_filter, parentOf, ← AList.mem_keys,
    ← AList.lookup_isSome]
  cases state.lineageStore.lookup roomId with
  | none => simp
  | some lineage => simp

theorem isSome_parentOf :
    (state.parentOf roomId).isSome ↔ (state.lineageStore.lookup roomId).isSome := by
  rw [parentOf, isSome_map]

theorem listChild_names (stored : (listed.1.parentOf childId).isSome) :
    (listChild listed childId).2.map childRoomId =
      listed.2.map childRoomId ++ [childId] := by
  obtain ⟨lineage, found⟩ := isSome_iff_exists.mp (isSome_parentOf.mp stored)
  rw [listChild, found]
  cases (listed.1.getOrCreate childId).lineage <;> simp

theorem foldl_listChild_names
    (stored : ∀ id ∈ ids, (listed.1.parentOf id).isSome) :
    (ids.foldl listChild listed).2.map childRoomId =
      listed.2.map childRoomId ++ ids := by
  induction ids generalizing listed with
  | nil => simp
  | cons id rest ih =>
    rw [foldl_cons, ih, listChild_names (stored id mem_cons_self), append_assoc]
    · rfl
    · intro other later
      rw [parentOf, listChild_lineageStore]
      exact stored other (mem_cons_of_mem _ later)

theorem childIds_snd (state : Family) (parentRoomId : String) :
    (state.childIds parentRoomId).2 =
      if state.childrenIndex parentRoomId = [] then state.storedChildren parentRoomId
      else state.childrenIndex parentRoomId := by
  rw [childIds, deduped_of_nodup (nodup_storedChildren ..)]
  cases state.childrenIndex parentRoomId with
  | nil => cases state.storedChildren parentRoomId <;> rfl
  | cons => rfl

section
variable (indexed : state.Indexed)
include indexed

theorem isSome_of_mem_childIds (inside : roomId ∈ (state.childIds parentRoomId).2) :
    (state.parentOf roomId).isSome := by
  rw [childIds_snd] at inside
  split at inside
  · rw [mem_storedChildren.mp inside]
    rfl
  · exact indexed.stored parentRoomId roomId inside

theorem listChildren_names (resident : (state.rooms.lookup parentRoomId).isSome) :
    ∃ listed, (state.listChildren parentRoomId).2 = .ok listed ∧
      listed.children.map childRoomId = (state.childIds parentRoomId).2 := by
  obtain ⟨room, resident⟩ := isSome_iff_exists.mp resident
  rw [listChildren, resident]
  refine ⟨_, rfl, ?_⟩
  refine foldl_listChild_names fun id inside => ?_
  rw [parentOf, childIds_lineageStore]
  exact isSome_of_mem_childIds indexed inside

/-- Another room in the registry changes nothing for the index. -/
theorem Indexed.put
    (awaits : ∀ lineage ∈ awaited room, state.lineageStore.lookup roomId = some lineage) :
    (state.put roomId room).Indexed := by
  refine ⟨indexed.uncapped, indexed.nodup, indexed.stored, fun other found present => ?_⟩
  by_cases same : other = roomId
  · subst same
    rw [Family.put, AList.lookup_insert] at present
    rw [← Option.some.inj present]
    exact awaits
  · rw [Family.put, AList.lookup_insert_ne same] at present
    exact indexed.awaits other found present

theorem Indexed.awaits_getOrCreate (roomId : String) :
    ∀ lineage ∈ awaited (state.getOrCreate roomId),
      state.lineageStore.lookup roomId = some lineage := by
  rw [getOrCreate]
  cases present : state.rooms.lookup roomId with
  | none => exact fun _ absent => (by cases absent)
  | some room => exact indexed.awaits roomId room present

/-- A listing is exact when the index has no entry, or a faithful one. -/
theorem lists_iff_faithful :
    state.Lists parentRoomId ↔ Faithful state.childrenIndex state.parentOf parentRoomId := by
  obtain ⟨listed, answer, names⟩ := listChildren_names
    (indexed.put (indexed.awaits_getOrCreate parentRoomId))
    (show (AList.lookup parentRoomId (AList.insert ..)).isSome by rw [AList.lookup_insert]; rfl)
  have ids : listed.children.map childRoomId =
      if state.childrenIndex parentRoomId = [] then state.storedChildren parentRoomId
      else state.childrenIndex parentRoomId := names.trans (childIds_snd ..)
  have lists : state.Lists parentRoomId ↔
      (listed.children.map childRoomId).Nodup ∧
        ∀ roomId, roomId ∈ listed.children.map childRoomId ↔
          state.parentOf roomId = some parentRoomId := by
    refine ⟨fun ⟨other, same, exact⟩ => ?_, fun exact => ⟨listed, answer, exact⟩⟩
    rwa [Except.ok.inj (answer.symm.trans same)]
  rw [lists, ids, Faithful]
  split
  · next empty =>
    exact ⟨fun _ => .inl empty, fun _ =>
      ⟨nodup_storedChildren .., fun _ => mem_storedChildren⟩⟩
  · next nonempty =>
    rw [or_iff_right nonempty]
    exact and_iff_right (indexed.nodup parentRoomId)

end

section
variable (env)

/-- The parent and the child that an operation enters in the index. -/
def entered (state : Family) : FamilyAction → Option (String × String)
  | .createChildRoom request => (state.childLineage env request).toOption.map fun _ =>
      (request.parentRoomId, request.childRoomId)
  | .hydrate roomId => (state.rooms.lookup roomId).bind fun room =>
      match room.hydration with
      | .indexing lineage => some (lineage.parentRoomId, roomId)
      | _ => none
  | _ => none

/-- A child enters the index with all the children of its parent, or next to them,
and leaves no entry of another parent behind. -/
def EntersWhole (state : Family) (action : FamilyAction) : Prop :=
  ∀ entry ∈ state.entered env action,
    Enters state.childrenIndex state.parentOf entry.1 entry.2

end

/-- What one operation does to the index and to the links. -/
inductive Reindexed (state next : Family) : Option (String × String) → Prop
  | entered (parent child : String)
      (index : next.childrenIndex =
        update state.childrenIndex parent (state.named parent child))
      (links : next.parentOf = update state.parentOf child (some parent)) :
      Reindexed state next (some (parent, child))
  | kept (links : next.parentOf = state.parentOf)
      (index : ∀ parent, next.childrenIndex parent = state.childrenIndex parent ∨
        next.childrenIndex parent = [] ∨
        next.childrenIndex parent = state.storedChildren parent) : Reindexed state next none

theorem mem_named :
    roomId ∈ state.named parent child ↔
      roomId = child ∨ roomId ∈ state.childrenIndex parent := by
  rw [named]
  split
  · next present => exact ⟨.inr, fun either => either.elim (fun same => same ▸ present) id⟩
  · rw [mem_append, mem_singleton, or_comm]

theorem nodup_named (nodup : (state.childrenIndex parent).Nodup) :
    (state.named parent child).Nodup := by
  rw [named]
  split
  · exact nodup
  · next absent =>
    rw [← concat_eq_append]
    exact nodup.concat absent

theorem parentOf_congr (same : next.lineageStore = state.lineageStore) :
    next.parentOf = state.parentOf := by
  funext roomId
  rw [parentOf, parentOf, same]

theorem childIds_childrenIndex (uncapped : state.childrenIndexCap = none)
    (parentRoomId parent : String) :
    (state.childIds parentRoomId).1.childrenIndex parent = state.childrenIndex parent ∨
      (state.childIds parentRoomId).1.childrenIndex parent = state.storedChildren parent := by
  rw [childIds, deduped_of_nodup (nodup_storedChildren ..), uncapped]
  split
  · split
    · exact .inl rfl
    · by_cases same : parent = parentRoomId
      · subst same
        exact .inr (update_self ..)
      · exact .inl (update_of_ne same ..)
  · exact .inl rfl

theorem perform_reindexed (indexed : state.Indexed)
    (stepped : state.perform env action = some next) :
    Reindexed state next (state.entered env action) := by
  have stored := perform_lineageStore stepped
  cases action with
  | createChildRoom request =>
    cases stepped
    rw [entered]
    cases passed : state.childLineage env request with
    | error rejected =>
      rw [createChildRoom, passed]
      exact .kept rfl fun _ => .inl rfl
    | ok lineage =>
      have above := (lookup_of_childLineage passed).2
      rw [written, passed] at stored
      have links := @parentOf_insert _ _ (request.childRoomId, lineage) stored
      rw [createChildRoom_ok passed] at links ⊢
      refine .entered _ _ ?_ (links.trans ?_)
      · rw [adopt, indexed.uncapped]
        rfl
      · rw [above]
  | hydrate roomId =>
    obtain ⟨room, resident, stepped⟩ := bind_eq_some_iff.mp stepped
    have links := parentOf_congr stored
    rw [entered, resident, bind_some]
    unfold hydrate at stepped
    cases phase : room.hydration with
    | indexing lineage =>
      rw [phase] at stepped
      cases stepped
      have linked : state.parentOf roomId = some lineage.parentRoomId := by
        rw [parentOf, indexed.awaits roomId room resident lineage (by rw [awaited, phase]; rfl)]
        rfl
      have links := links.trans (update_eq_self roomId state.parentOf).symm
      rw [linked] at links
      exact .entered _ _ rfl links
    | done =>
      rw [phase] at stepped
      cases stepped
    | _ =>
      rw [phase] at stepped
      cases stepped
      exact .kept links fun _ => .inl rfl
  | listChildren parentRoomId =>
    cases stepped
    refine .kept (parentOf_congr stored) fun parent => ?_
    exact @listChildren_keeps _ (fun next => next.childrenIndex parent = _ ∨
      next.childrenIndex parent = [] ∨ next.childrenIndex parent = _) _ (.inl rfl)
      ((childIds_childrenIndex indexed.uncapped parentRoomId parent).imp_right .inr) fun _ _ => id
  | importNodes roomId nowMs nodes =>
    obtain ⟨room, -, rfl⟩ := map_eq_some_iff.mp stepped
    exact .kept rfl fun _ => .inl rfl
  | setPolicy roomId policy =>
    obtain ⟨room, -, rfl⟩ := map_eq_some_iff.mp stepped
    exact .kept rfl fun _ => .inl rfl
  | getOrCreate roomId =>
    cases stepped
    exact .kept rfl fun _ => .inl rfl
  | sweepIdle busy =>
    cases stepped
    exact .kept rfl fun _ => .inl rfl
  | restart =>
    cases stepped
    exact .kept rfl fun _ => .inr (.inl rfl)

theorem indexed_start (lineages : AList fun _ : String => RoomLineage) (table : List NodeRow) :
    (Family.start lineages none table).Indexed :=
  ⟨rfl, fun _ => .nil, fun _ _ absent => (by cases absent), fun _ _ absent => (by cases absent)⟩

theorem Indexed.setIndex (indexed : state.Indexed) (nodup : children.Nodup)
    (stored : ∀ roomId ∈ children, (state.parentOf roomId).isSome) :
    (state.setIndex parentRoomId children).Indexed := by
  have each (parent : String) :
      (update state.childrenIndex parentRoomId children parent).Nodup ∧
        ∀ roomId ∈ update state.childrenIndex parentRoomId children parent,
          (state.parentOf roomId).isSome := by
    by_cases same : parent = parentRoomId
    · rw [same, update_self]
      exact ⟨nodup, stored⟩
    · rw [update_of_ne same]
      exact ⟨indexed.nodup parent, indexed.stored parent⟩
  exact ⟨indexed.uncapped, fun parent => (each parent).1, fun parent => (each parent).2,
    indexed.awaits⟩

/-- The child is named under its parent. -/
theorem Indexed.name (indexed : state.Indexed) {childRoomId : String}
    (stored : (state.parentOf childRoomId).isSome) :
    (state.setIndex parentRoomId (state.named parentRoomId childRoomId)).Indexed := by
  apply indexed.setIndex (nodup_named (indexed.nodup parentRoomId))
  intro roomId inside
  obtain rfl | present := mem_named.mp inside
  · exact stored
  · exact indexed.stored parentRoomId roomId present

/-- A new room with a lineage of its own. -/
theorem Indexed.adopt (indexed : state.Indexed) {childRoomId : String} :
    (state.adopt parentRoomId childRoomId .new lineage).Indexed := by
  have links : Family.parentOf { state.put childRoomId { FamilyRoom.new with lineage := some lineage }
      with lineageStore := state.lineageStore.insert childRoomId lineage } = _ :=
    @parentOf_insert state _ (childRoomId, lineage) rfl
  have linked : Indexed { state.put childRoomId { FamilyRoom.new with lineage := some lineage }
      with lineageStore := state.lineageStore.insert childRoomId lineage } := by
    refine ⟨indexed.uncapped, indexed.nodup, fun parent roomId inside => ?_,
      fun roomId room present => ?_⟩
    · rw [links]
      by_cases same : roomId = childRoomId
      · rw [same, update_self]
        rfl
      · rw [update_of_ne same]
        exact indexed.stored parent roomId inside
    · by_cases same : roomId = childRoomId
      · subst same
        rw [Family.put, AList.lookup_insert] at present
        rw [← Option.some.inj present]
        exact nofun
      · rw [Family.put, AList.lookup_insert_ne same] at present
        rw [AList.lookup_insert_ne same]
        exact indexed.awaits roomId room present
  rw [Family.adopt, indexed.uncapped]
  refine linked.name ?_
  rw [links, update_self]
  rfl

theorem Indexed.listChildren (indexed : state.Indexed) (parentRoomId : String) :
    (state.listChildren parentRoomId).1.Indexed := by
  refine listChildren_keeps indexed ?_ fun roomId _ kept => kept.put (kept.awaits_getOrCreate roomId)
  rw [childIds, deduped_of_nodup (nodup_storedChildren ..), indexed.uncapped]
  split
  · split
    · exact indexed
    · apply indexed.setIndex (nodup_storedChildren ..)
      intro roomId inside
      rw [mem_storedChildren.mp inside]
      rfl
  · exact indexed

theorem Indexed.hydrate (indexed : state.Indexed) (resident : state.rooms.lookup roomId = some room)
    (stepped : state.hydrate env roomId room = some next) : next.Indexed := by
  have awaits := indexed.awaits roomId room resident
  unfold Family.hydrate at stepped
  cases phase : room.hydration with
  | loading =>
    rw [phase] at stepped
    cases stepped
    exact indexed.put nofun
  | reading =>
    rw [phase] at stepped
    cases stepped
    apply indexed.put
    intro lineage inside
    cases found : state.lineageStore.lookup roomId with
    | none =>
      rw [found] at inside
      cases inside
    | some stored =>
      rw [found] at inside
      exact inside
  | publishing lineage =>
    rw [awaited, phase] at awaits
    rw [phase] at stepped
    cases stepped
    exact indexed.put awaits
  | indexing lineage =>
    rw [awaited, phase] at awaits
    rw [phase] at stepped
    cases stepped
    have done : (state.put roomId { room with hydration := .done }).Indexed :=
      indexed.put nofun
    refine done.name (isSome_parentOf.mpr ?_)
    exact isSome_iff_exists.mpr ⟨lineage, awaits lineage rfl⟩
  | done =>
    rw [phase] at stepped
    cases stepped

theorem lookup_of_erased {rooms : AList fun _ : String => FamilyRoom}
    (present : (ids.foldl (fun rooms id => rooms.erase id) rooms).lookup roomId = some room) :
    rooms.lookup roomId = some room := by
  induction ids generalizing rooms with
  | nil => exact present
  | cons id rest ih =>
    have before := ih present
    by_cases same : roomId = id
    · rw [same, AList.lookup_erase] at before
      cases before
    · rwa [AList.lookup_erase_ne same] at before

theorem Indexed.sweepIdle (indexed : state.Indexed) (busy : String → Bool) :
    (state.sweepIdle busy).Indexed := by
  refine ⟨indexed.uncapped, indexed.nodup, indexed.stored, fun roomId room present => ?_⟩
  exact indexed.awaits roomId room (lookup_of_erased present)

theorem perform_indexed (stepped : state.perform env action = some next)
    (indexed : state.Indexed) : next.Indexed := by
  cases action with
  | createChildRoom request =>
    cases stepped
    cases passed : state.childLineage env request with
    | error rejected =>
      rw [createChildRoom, passed]
      exact indexed
    | ok lineage =>
      rw [createChildRoom_ok passed]
      exact indexed.adopt
  | hydrate roomId =>
    obtain ⟨room, resident, stepped⟩ := bind_eq_some_iff.mp stepped
    exact indexed.hydrate resident stepped
  | listChildren parentRoomId =>
    cases stepped
    exact indexed.listChildren parentRoomId
  | importNodes roomId nowMs nodes =>
    obtain ⟨room, resident, rfl⟩ := map_eq_some_iff.mp stepped
    have kept : (state.put roomId { room with
        graph := (NodalMerge.importNodes env.crypto nowMs room.graph nodes).graph }).Indexed :=
      indexed.put (indexed.awaits roomId room resident)
    exact ⟨kept.uncapped, kept.nodup, kept.stored, kept.awaits⟩
  | setPolicy roomId policy =>
    obtain ⟨room, resident, rfl⟩ := map_eq_some_iff.mp stepped
    exact indexed.put (indexed.awaits roomId room resident)
  | getOrCreate roomId =>
    cases stepped
    exact indexed.put (indexed.awaits_getOrCreate roomId)
  | sweepIdle busy =>
    cases stepped
    exact indexed.sweepIdle busy
  | restart =>
    cases stepped
    rw [indexed.uncapped]
    exact indexed_start ..

/-- One operation. -/
theorem listsAll_iff_entersWhole (indexed : state.Indexed) (lists : state.ListsAll)
    (stepped : state.perform env action = some next) :
    next.ListsAll ↔ EntersWhole env state action := by
  have faithful (parent : String) : Faithful state.childrenIndex state.parentOf parent :=
    (lists_iff_faithful indexed).mp (lists parent)
  have indexedNext := perform_indexed stepped indexed
  have reindexed := perform_reindexed indexed stepped
  rw [ListsAll, forall_congr' fun parent => lists_iff_faithful indexedNext, EntersWhole]
  cases entry : state.entered env action with
  | some entry =>
    rw [entry] at reindexed
    cases reindexed with
    | entered parent child index links =>
      rw [index, links, faithful_update_iff (fun _ => mem_named) faithful]
      refine ⟨fun enters other same => ?_, fun enters => enters _ rfl⟩
      rwa [← Option.some.inj same]
  | none =>
    rw [entry] at reindexed
    cases reindexed with
    | kept links index =>
      refine ⟨nofun, fun _ parent => ?_⟩
      rw [Faithful, links]
      obtain same | empty | found := index parent
      · rw [same]
        exact faithful parent
      · exact .inl empty
      · rw [found]
        exact .inr fun _ => mem_storedChildren

end Family

/-- At every point of a run without a cap each parent lists exactly its stored
children when, whenever a child enters the index, it is the only stored child of a
parent without an entry or its parent has an entry already, and no entry of another
parent is left that names it. -/
theorem children_listed_iff (env : FamilyEnv) (lineages : AList fun _ : String => RoomLineage)
    (table : List NodeRow) (actions : List FamilyAction) (final : Family)
    (ran : exec (Family.perform env) (.start lineages none table) actions = some final) :
    Always (Family.perform env) Family.ListsAll (.start lineages none table) actions ↔
      Along (Family.perform env) (Family.EntersWhole env) (.start lineages none table) actions := by
  have indexed := indexed_start lineages table
  have lists : (Family.start lineages none table).ListsAll := fun parent =>
    (lists_iff_faithful indexed).mpr (.inl rfl)
  exact always_iff_along (fun _ _ _ => perform_indexed) listsAll_iff_entersWhole
    indexed lists ran

theorem first_child_is_listed :
    ∃ checkpoint final, exec (Family.perform .sample) (.start ∅ none familyTable)
        (firstChild checkpoint) = some final ∧
      Always (Family.perform .sample) Family.ListsAll (.start ∅ none familyTable)
        (firstChild checkpoint) ∧
      final.parentOf "c" = some "p" := by
  obtain ⟨final, ran, linked⟩ := exec_firstChild
  refine ⟨sampleCheckpoint, final, ran, (children_listed_iff .sample ∅ familyTable _ _ ran).mpr ?_,
    linked⟩
  refine (along_concat_iff exec_withParent).mpr ⟨?_, ?_⟩
  · refine ⟨fun _ absent => (by cases absent), fun _ stepped => ⟨fun _ absent => ?_,
      fun _ _ => trivial⟩⟩
    cases stepped
    cases absent
  · intro entry enters
    exact ⟨fun _ roomId linked => (by cases linked), fun other linked => (by cases linked)⟩

/-- Two children are created, the process starts again, and one of them is hydrated
before the parent is asked: it is the only one listed. -/
theorem hydrated_child_hides_its_sibling :
    ∃ checkpoint, ∃ final listed,
      exec (Family.perform .sample) (.start ∅ none familyTable)
        (firstChild checkpoint ++ [.createChildRoom (.sample "p" "d" "draft" checkpoint)] ++
          [.restart, .getOrCreate "p", .getOrCreate "c", .hydrate "c", .hydrate "c", .hydrate "c",
            .hydrate "c"]) = some final ∧
      (final.rooms.lookup "p").isSome ∧ (final.listChildren "p").2 = .ok listed ∧
      listed.children.map ChildRoomSummary.childRoomId = ["c"] ∧
      final.parentOf "d" = some "p" := by
  have checked : ((exec (Family.perform .sample) (.start ∅ none familyTable)
      (firstChild sampleCheckpoint ++
        [.createChildRoom (.sample "p" "d" "draft" sampleCheckpoint)] ++
        [.restart, .getOrCreate "p", .getOrCreate "c", .hydrate "c", .hydrate "c", .hydrate "c",
          .hydrate "c"])).any fun final => (final.rooms.lookup "p").isSome ∧
      ((final.listChildren "p").2.toOption.any fun listed =>
        listed.children.map ChildRoomSummary.childRoomId = ["c"]) = true ∧
      final.parentOf "d" = some "p") = true := by
    decide +kernel
  obtain ⟨final, ran, shown⟩ := (any_eq_true _ _).mp checked
  obtain ⟨resident, lists, linked⟩ := of_decide_eq_true shown
  cases answered : (final.listChildren "p").2 with
  | error rejected =>
    rw [answered] at lists
    cases lists
  | ok listed =>
    rw [answered] at lists
    exact ⟨sampleCheckpoint, final, listed, ran, resident, answered, of_decide_eq_true lists,
      linked⟩

end NodalMerge
