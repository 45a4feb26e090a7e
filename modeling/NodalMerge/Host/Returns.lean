import NodalMerge.Archive.ManifestBinding
import NodalMerge.Host.Changes

namespace NodalMerge.Host

open Checkpoints Function List NodalMerge.Host.Lists Machine
open Hash (toHex)
open Option (map_eq_some_iff isSome_map isSome_iff_exists bind_eq_bind bind_some isSome_some)

theorem setAt_apply {Entry : Type} {table : String → String → Entry} {entry : Entry}
    (otherRoom otherKey : String) :
    setAt table room key entry otherRoom otherKey =
      if otherRoom = room ∧ otherKey = key then entry else table otherRoom otherKey := by
  unfold setAt
  by_cases sameRoom : otherRoom = room
  · subst sameRoom
    by_cases sameKey : otherKey = key
    · subst sameKey
      simp
    · simp [sameKey]
  · simp [sameRoom]

theorem mem_siblings {id : String} :
    id ∈ siblings chars anchor ↔ ∃ st ∈ chars, st.afterId = anchor ∧ st.id = id := by
  simp [siblings, and_assoc]

/-- Characters with ids of their own hang in one place each. -/
theorem siblings_forest
    (nodup : (chars.map TextCharState.id).Nodup) :
    StackWalk.Forest (fun id => siblings chars (some id)) (siblings chars none)
      (chars.map TextCharState.id) := by
  have known (anchor : Option String) : ∀ id ∈ siblings chars anchor,
      id ∈ chars.map TextCharState.id := by
    intro id inside
    obtain ⟨st, member, -, rfl⟩ := mem_siblings.mp inside
    exact mem_map_of_mem member
  have distinct (anchor : Option String) : (siblings chars anchor).Nodup := by
    refine (perm_insertionSort _ _).nodup_iff.mpr ?_
    exact nodup.sublist ((filter_sublist).map _)
  have oneAnchor (first second : Option String) (id : String) (one : id ∈ siblings chars first)
      (two : id ∈ siblings chars second) : first = second := by
    obtain ⟨st, member, rfl, sameId⟩ := mem_siblings.mp one
    obtain ⟨other, alsoMember, rfl, otherId⟩ := mem_siblings.mp two
    rw [inj_on_of_nodup_map nodup member alsoMember (sameId.trans otherId.symm)]
  constructor
  · exact known none
  · exact fun parent => known (some parent)
  · exact distinct none
  · exact fun parent => distinct (some parent)
  · intro parent id born root
    cases oneAnchor (some parent) none id born root
  · intro parent other id one two
    exact Option.some.inj (oneAnchor (some parent) (some other) id one two)

theorem isSome_textEntries
    (nodup : (chars.map TextCharState.id).Nodup) : (textEntriesInRgaOrder chars).isSome := by
  rw [textEntriesInRgaOrder, ← @List.length_map _ _ chars TextCharState.id]
  exact (siblings_forest nodup).isSome_walk

namespace Texts

/-- The ids of a text, in the order of insertion. -/
def ids (texts : Texts) (room key : String) : List String :=
  (texts.docs room key).map TextCharState.id

def idText (number : Nat) : String := "text-" ++ toString number

theorem idText_injective : Function.Injective idText := by
  intro first second same
  have digits : first.repr = second.repr := (String.append_right_inj _).mp same
  refine (@repr_append_inj first second "" "" ?_ ?_ (by rw [digits])).1
  · simp
  · simp

/-- Ids are given out once, in the order of the counter of the room. -/
structure Numbered (texts : Texts) : Prop where
  nodup : ∀ room key, (texts.ids room key).Nodup
  named : ∀ room key, ∀ id ∈ texts.ids room key, ∃ number ≤ texts.nextId room, id = idText number

theorem Numbered.empty : Numbered .empty :=
  ⟨fun _ _ => nodup_nil, fun _ _ _ inside => absurd inside not_mem_nil⟩

theorem tombstone_ids (targetId : String) (doc : List TextCharState) :
    (tombstone targetId doc).map TextCharState.id = doc.map TextCharState.id := by
  induction doc with
  | nil => rfl
  | cons st rest ih =>
    unfold tombstone
    split
    · rfl
    · rw [map_cons, ih, map_cons]

variable {texts after : Texts} {room ns key : String}

theorem ids_setAt (texts : Texts) (doc : List TextCharState) (nextId : String → Nat)
    (otherRoom otherKey : String) :
    ids ⟨setAt texts.docs room (scopedMapKey ns key) doc, nextId⟩ otherRoom otherKey =
      if otherRoom = room ∧ otherKey = scopedMapKey ns key then doc.map TextCharState.id
      else texts.ids otherRoom otherKey := by
  change (setAt texts.docs room (scopedMapKey ns key) doc otherRoom otherKey).map _ = _
  rw [setAt_apply]
  split <;> rfl

theorem Numbered.textDelete (numbered : texts.Numbered) (targetId : String) :
    (texts.textDelete rooms room ns key targetId).1.Numbered := by
  unfold Texts.textDelete
  split
  · exact numbered
  · split
    · exact numbered
    · have same (otherRoom otherKey : String) : ids { texts with
          docs := setAt texts.docs room (scopedMapKey ns key)
            (tombstone targetId (texts.doc room ns key)) } otherRoom otherKey =
          texts.ids otherRoom otherKey := by
        rw [ids_setAt, tombstone_ids]
        split
        · rename_i here
          rw [here.1, here.2]
          rfl
        · rfl
      refine ⟨fun otherRoom otherKey => ?_, fun otherRoom otherKey => ?_⟩
      · rw [same]
        exact numbered.nodup otherRoom otherKey
      · rw [same]
        exact numbered.named otherRoom otherKey

/-- The id of the next number is new in the room. -/
theorem Numbered.append (numbered : texts.Numbered) (st : TextCharState)
    (named : st.id = idText (texts.nextId room + 1)) :
    Numbered ⟨setAt texts.docs room (scopedMapKey ns key) (texts.doc room ns key ++ [st]),
      update texts.nextId room (texts.nextId room + 1)⟩ := by
  have later (otherRoom : String) : texts.nextId otherRoom ≤
      update texts.nextId room (texts.nextId room + 1) otherRoom := by
    by_cases same : otherRoom = room
    · rw [same, update_self]
      exact Nat.le_succ _
    · rw [update_of_ne same]
  have fresh : idText (texts.nextId room + 1) ∉ texts.ids room (scopedMapKey ns key) := by
    intro inside
    obtain ⟨number, below, same⟩ := numbered.named _ _ _ inside
    have := idText_injective same
    omega
  have appended : (texts.doc room ns key ++ [st]).map TextCharState.id =
      texts.ids room (scopedMapKey ns key) ++ [idText (texts.nextId room + 1)] := by
    rw [map_append, map_singleton, named]
    rfl
  refine ⟨fun otherRoom otherKey => ?_, fun otherRoom otherKey id inside => ?_⟩
  · rw [ids_setAt]
    split
    · rw [appended, ← concat_eq_append]
      exact (numbered.nodup _ _).concat fresh
    · exact numbered.nodup otherRoom otherKey
  · rw [ids_setAt] at inside
    have before (old : id ∈ texts.ids otherRoom otherKey) := numbered.named _ _ id old
    split at inside
    · rename_i here
      obtain ⟨rfl, rfl⟩ := here
      rw [appended, mem_append, mem_singleton] at inside
      obtain old | rfl := inside
      · obtain ⟨number, below, same⟩ := before old
        exact ⟨number, below.trans (later otherRoom), same⟩
      · exact ⟨texts.nextId otherRoom + 1, (update_self otherRoom _ texts.nextId).ge, rfl⟩
    · obtain ⟨number, below, same⟩ := before inside
      exact ⟨number, below.trans (later otherRoom), same⟩

theorem Numbered.textInsert (numbered : texts.Numbered)
    (inserted : texts.textInsert rooms room ns key afterId ch = some (after, result)) :
    after.Numbered := by
  unfold Texts.textInsert at inserted
  split at inserted
  · cases inserted
    exact numbered
  · split at inserted
    · split at inserted
      · obtain ⟨next, counted, same⟩ := map_eq_some_iff.mp inserted
        obtain ⟨-, rfl⟩ := increment_eq_some_iff.mp counted
        cases same
        exact numbered.append _ rfl
      · cases inserted
        exact numbered
    · cases inserted
      exact numbered

theorem Numbered.step {env : HostEnv} {engine next : HostEngine} {call : HostCall}
    (numbered : engine.texts.Numbered) (stepped : engine.step env call = some next) :
    next.texts.Numbered := by
  obtain rfl | ⟨-, result, ran⟩ := HostEngine.step_cases stepped
  · exact numbered
  · cases writes : call.envelope.command.writesTexts with
    | false => rwa [(HostEngine.run_frame ran).texts writes]
    | true =>
      generalize call.envelope.command = command at ran writes
      cases command <;> first
        | exact absurd writes Bool.false_ne_true
        | skip
      case textInsert =>
        obtain ⟨outcome, inserted, same⟩ := map_eq_some_iff.mp ran
        cases same
        exact numbered.textInsert inserted
      case textDelete =>
        cases ran
        apply numbered.textDelete

theorem isSome_textInsert :
    (texts.textInsert rooms room ns key afterId ch).isSome ↔
      (checkKey rooms room key = .ok () → ch.toList.length = 1 →
        texts.anchorExists room ns key afterId = true → texts.nextId room < u64Max) := by
  unfold Texts.textInsert
  split
  · rename_i refused
    simp [refused]
  · rename_i accepted
    split
    · rename_i char one
      split
      · rename_i anchored
        simp [accepted, one, anchored, isSome_increment]
      · rename_i unanchored
        simp [unanchored]
    · rename_i other
      have several : ch.toList.length ≠ 1 := by
        intro single
        obtain ⟨char, one⟩ := length_eq_one_iff.mp single
        exact other char one
      simp [several]

theorem Numbered.isSome_textGet (numbered : texts.Numbered) :
    (texts.textGet rooms room ns key).isSome := by
  unfold textGet
  split
  · rfl
  · rw [isSome_map]
    exact isSome_textEntries (numbered.nodup room (scopedMapKey ns key))

end Texts

namespace Lists

variable {table : Lists} {room ns key : String} {value : Value}

theorem isSome_vecRemove {α : Type} {items : List α} {index : Nat} :
    (vecRemove items index).isSome ↔ index < items.length := by
  simp [vecRemove]

theorem isSome_vecInsert {α : Type} {items : List α} {index : Nat} {item : α} :
    (vecInsert items index item).isSome ↔ index ≤ items.length := by
  unfold vecInsert
  split <;> simp [*]

theorem isSome_listPush : (table.listPush rooms room ns key value).isSome ↔
    (checkKey rooms room key = .ok () → table.nextId room < u64Max) := by
  unfold listPush
  split
  · rename_i refused
    simp [refused]
  · rename_i accepted
    simp [accepted, isSome_increment]

theorem isSome_listInsert :
    (table.listInsert rooms room ns key index value).isSome ↔
      (checkKey rooms room key = .ok () → index ≤ (table.list room ns key).length →
        table.nextId room < u64Max) := by
  unfold listInsert
  split
  · rename_i refused
    simp [refused]
  · rename_i accepted
    dsimp only
    split
    · rename_i behind
      simp [not_le.mpr behind]
    · rename_i inside
      rw [not_lt] at inside
      have inserted (item : ListItemState) :
          ∃ items, vecInsert (table.list room ns key) index item = some items :=
        isSome_iff_exists.mp (isSome_vecInsert.mpr inside)
      simp only [accepted, inside, true_implies, ← isSome_increment]
      cases increment (table.nextId room) with
      | none => rfl
      | some next =>
        obtain ⟨items, made⟩ := inserted ⟨"list-" ++ toString next, value⟩
        simp only [bind_eq_bind, bind_some, made]
        rfl

theorem isSome_listDelete {index : Nat} : (table.listDelete rooms room ns key index).isSome := by
  unfold listDelete
  split
  · rfl
  · dsimp only
    split
    · rename_i inside
      rw [isSome_map]
      exact isSome_vecRemove.mpr inside
    · rfl

theorem isSome_listMove {fromIndex toIndex : Nat} :
    (table.listMove rooms room ns key fromIndex toIndex).isSome := by
  unfold listMove
  split
  · rfl
  · dsimp only
    split
    · rename_i inside
      split
      · rw [isSome_map]
        simp [inside.1]
      · obtain ⟨⟨moved, rest⟩, removed⟩ :=
          isSome_iff_exists.mp (isSome_vecRemove.mpr inside.1)
        have shorter : rest.length = (table.list room ns key).length - 1 := by
          obtain ⟨item, -, same⟩ := map_eq_some_iff.mp removed
          cases same
          rw [length_eraseIdx_of_lt inside.1]
        obtain ⟨items, made⟩ := isSome_iff_exists.mp
          (@isSome_vecInsert _ rest toIndex moved |>.mpr (by omega))
        simp [removed, made]
    · rfl

end Lists

theorem Blobs.isSome_requestUpload {hash : String} :
    (requestUpload rooms room ns env hash sizeBytes contentType).isSome := by
  unfold requestUpload
  split
  · rfl
  · split
    · rfl
    · dsimp only
      split
      · rename_i granted
        rwa [isSome_map]
      · rfl

namespace Checkpoints

variable {table : Checkpoints} {room ns key : String}

theorem isSome_mapSet : (table.mapSet crypto rooms room ns key value).isSome ↔
    (checkKey rooms room key = .ok () → startsWith "_" key = false →
      table.canonicalSeq room < u64Max) := by
  unfold mapSet
  split
  · rename_i refused
    simp [refused]
  · rename_i accepted
    rw [isSome_map]
    cases startsWith "_" key with
    | true => simp
    | false =>
      simp only [accepted, true_implies]
      exact isSome_recordRows

theorem isSome_mapDelete : (table.mapDelete crypto rooms room ns key).isSome ↔
    (checkKey rooms room key = .ok () →
      ((table.liveMap room).lookup (scopedMapKey ns key)).isSome = true →
      startsWith "_" key = false → table.canonicalSeq room < u64Max) := by
  unfold mapDelete
  split
  · rename_i refused
    simp [refused]
  · rename_i accepted
    rw [isSome_map]
    cases ((table.liveMap room).lookup (scopedMapKey ns key)).isSome with
    | false => simp
    | true =>
      cases startsWith "_" key with
      | true => simp
      | false =>
        simp only [accepted, true_implies]
        exact isSome_recordRows

theorem isSome_applyTopologyPromotion :
    (table.applyTopologyPromotion crypto proposalId).isSome ↔
      ∀ promotion, table.topologyPromotions.lookup proposalId = some promotion →
        promotion.validated = true → table.canonicalSeq promotion.parentRoomId < u64Max := by
  unfold applyTopologyPromotion
  split
  · rename_i unknown
    simp [unknown]
  · rename_i promotion found
    simp only [found, Option.some.injEq, forall_eq']
    cases promotion.validated with
    | false => simp
    | true =>
      simp only [Bool.not_true, Bool.false_eq_true, ↓reduceIte, isSome_map, true_implies]
      exact isSome_recordRows

/-- The hashes of snapshots are hexadecimal digests. -/
def Hashed (table : Checkpoints) : Prop :=
  ∀ room seq snapshot, (table.canonicalSnapshots room).lookup seq = some snapshot →
    ∃ hash, snapshot.canonicalHash = toHex hash

theorem hashed_kept (crypto : Crypto) : Kept crypto Hashed where
  live _ _ hashed := hashed
  promotions _ hashed := hashed
  record := by
    intro table room rows after recorded hashed otherRoom seq snapshot found
    obtain ⟨-, rfl⟩ := recordRows_eq_some_iff.mp recorded
    obtain ⟨-, inserted⟩ | ⟨-, before⟩ := lookup_update_cases found
    · obtain ⟨-, rfl⟩ | ⟨-, before⟩ := lookup_insert_cases inserted
      · exact ⟨_, rfl⟩
      · exact hashed _ _ _ before
    · exact hashed _ _ _ before
  ensure := by
    intro table room hashed otherRoom seq snapshot found
    obtain ⟨-, inserted⟩ | ⟨-, before⟩ := lookup_update_cases found
    · obtain ⟨-, rfl⟩ | ⟨-, before⟩ := lookup_insert_cases inserted
      · cases stored : (table.canonicalSnapshots room).lookup 0 with
        | none => exact ⟨_, rfl⟩
        | some first => exact hashed _ _ _ stored
      · exact hashed _ _ _ before
    · exact hashed _ _ _ before
  frontier := by
    intro table room seq heads hashed otherRoom otherSeq snapshot found
    obtain ⟨-, here⟩ | ⟨-, before⟩ := lookup_update_cases found
    · split at here
      · rename_i stored present
        obtain ⟨-, rfl⟩ | ⟨-, before⟩ := lookup_insert_cases here
        · have same := hashed _ _ _ present
          exact same
        · exact hashed _ _ _ before
      · exact hashed _ _ _ here
    · exact hashed _ _ _ before

/-- A hexadecimal digest can be cut anywhere. -/
theorem isSome_sliceTo_toHex (hash : NodalMerge.Hash) (count : Nat) :
    (sliceTo (toHex hash) (min count (utf8 (toHex hash)).length)).isSome := by
  have ascii : ∀ char ∈ (toHex hash).toList, char.utf8Size = 1 := by
    intro char inside
    rw [toHex, hexLower, String.toList_ofList, mem_flatMap] at inside
    obtain ⟨byte, -, digit⟩ := inside
    have small : ∀ number < 16, number.digitChar.utf8Size = 1 := by decide
    obtain rfl | rfl := mem_pair.mp digit
    · exact small _ (by omega)
    · exact small _ (by omega)
  have size : ∀ chars : List Char, (∀ char ∈ chars, char.utf8Size = 1) →
      byteLength chars = chars.length := by
    intro chars all
    rw [byteLength, map_congr_left all]
    simp
  rw [sliceTo, isSome_map, isSome_takeBytes]
  refine ⟨_, take_prefix (min count (utf8 (toHex hash)).length) _, ?_⟩
  rw [size _ fun char inside => ascii char (mem_of_mem_take inside), utf8_length,
    size _ ascii, length_take]
  omega

theorem Hashed.isSome_describeArchive (hashed : table.Hashed) :
    (table.describeArchive crypto rooms room archiveRef).isSome := by
  unfold describeArchive
  split
  · rfl
  · split
    rename_i hash frontier rows named
    rw [isSome_map]
    obtain ⟨digest, rfl⟩ : ∃ digest, hash = toHex digest := by
      split at named
      · rename_i snapshot latest
        cases named
        obtain first | ⟨-, second⟩ := Option.or_eq_some_iff.mp latest
        · exact hashed _ _ _ first
        · exact hashed _ _ _ second
      · cases named
        exact ⟨_, rfl⟩
    exact isSome_sliceTo_toHex digest 12

end Checkpoints

theorem isSome_sliceRange {α : Type} {items : List α} {first last : Nat} :
    (sliceRange items first last).isSome ↔ first ≤ last ∧ last ≤ items.length := by
  unfold sliceRange
  split <;> simp [*]

theorem parseOffset_le (token : Option String) : parseOffset token ≤ u64Max := by
  unfold parseOffset
  cases read : (token.bind (stripPrefix "offset:")).bind parseU64 with
  | none => exact Nat.zero_le _
  | some offset =>
    obtain ⟨raw, -, parsed⟩ := Option.bind_eq_some_iff.mp read
    exact parseU64_le parsed

theorem Graphs.isSome_replayReadRange {table : Graphs} {rooms : Finset String} {room : String}
    {keyPrefix : String} {fromLamport : Nat} {limit : Option Nat} {cursor : Option String} :
    (table.replayReadRange rooms room keyPrefix fromLamport limit cursor).isSome := by
  unfold replayReadRange
  split
  · rfl
  · split
    · rfl
    · rw [isSome_map]
      unfold graphReplayReadRange
      dsimp only
      split
      · rename_i inside
        rw [isSome_map, isSome_sliceRange]
        have bound := parseOffset_le cursor
        have later : parseOffset cursor ≤
            saturatingAdd (parseOffset cursor) (max (max (limit.getD 100) 1) 1) :=
          le_min (Nat.le_add_right _ _) bound
        exact ⟨le_min later inside.le, min_le_right _ _⟩
      · rfl

namespace Queries

theorem isSome_page {projection : ProjectionState} {start pageLimit : Nat} :
    (page projection start pageLimit).isSome ↔
      start + pageLimit ≤ u64Max ∧ start ≤ projection.rows.length := by
  unfold page checkedAdd
  by_cases fits : start + pageLimit ≤ u64Max
  · simp only [fits, ↓reduceIte, true_and]
    have sliced : (sliceRange projection.rows start
        (min (start + pageLimit) projection.rows.length)).isSome ↔
        start ≤ projection.rows.length := by
      rw [isSome_sliceRange]
      omega
    rw [← sliced]
    simp only [bind_eq_bind, bind_some, Option.pure_def]
    cases sliceRange projection.rows start (min (start + pageLimit) projection.rows.length) <;> rfl
  · simp [fits]

theorem isSome_readProjection {table : Queries} :
    (table.readProjection rooms room projectionId limit pageToken).isSome ↔
      (room ∈ rooms → projectionId ≠ "" →
        ∀ projection, (table.projections room).lookup projectionId = some projection →
          parseOffset pageToken + max limit 1 ≤ u64Max ∧
            parseOffset pageToken ≤ projection.rows.length) := by
  unfold readProjection
  split
  · rename_i refused
    simp only [isSome_some, true_iff]
    intro known named
    exact absurd refused (by simp [known, named])
  · rename_i accepted
    rw [not_or, not_not] at accepted
    simp only [accepted.1, true_implies, ne_eq, accepted.2, not_false_eq_true]
    have limited : (if limit = 0 then 1 else limit) = max limit 1 := by
      split <;> omega
    split
    · rename_i absent
      simp [absent]
    · rename_i projection found
      rw [isSome_map, isSome_page, limited]
      simp [found]

end Queries

namespace HostEngine

/-- What a command needs to return: a page inside its projection, and a number that is
left where it gives one out. -/
def Returns (engine : HostEngine) (room : String) : HostCommand → Prop
  | .mapSet _ key _ => checkKey engine.rooms room key = .ok () → startsWith "_" key = false →
    engine.checkpoints.canonicalSeq room < u64Max
  | .mapDelete ns key => checkKey engine.rooms room key = .ok () →
    ((engine.checkpoints.liveMap room).lookup (scopedMapKey ns key)).isSome = true →
    startsWith "_" key = false → engine.checkpoints.canonicalSeq room < u64Max
  | .applyTopologyPromotion proposalId => ∀ promotion,
    engine.checkpoints.topologyPromotions.lookup proposalId = some promotion →
    promotion.validated = true →
    engine.checkpoints.canonicalSeq promotion.parentRoomId < u64Max
  | .textInsert ns key afterId ch => checkKey engine.rooms room key = .ok () →
    ch.toList.length = 1 → engine.texts.anchorExists room ns key afterId = true →
    engine.texts.nextId room < u64Max
  | .listPush _ key _ => checkKey engine.rooms room key = .ok () →
    engine.lists.nextId room < u64Max
  | .listInsert ns key index _ => checkKey engine.rooms room key = .ok () →
    index ≤ (engine.lists.list room ns key).length → engine.lists.nextId room < u64Max
  | .readProjection projectionId limit pageToken => room ∈ engine.rooms → projectionId ≠ "" →
    ∀ projection, (engine.queries.projections room).lookup projectionId = some projection →
      parseOffset pageToken + max limit 1 ≤ u64Max ∧
        parseOffset pageToken ≤ projection.rows.length
  | _ => True

variable {engine next : HostEngine} {call : HostCall}

theorem isSome_run (numbered : engine.texts.Numbered) (hashed : engine.checkpoints.Hashed) :
    (engine.run env room nowUnixMs command).isSome ↔ engine.Returns room command := by
  cases command <;> simp only [run, Returns, isSome_map, isSome_some]
  case mapSet => exact isSome_mapSet
  case mapDelete => exact isSome_mapDelete
  case applyTopologyPromotion => exact isSome_applyTopologyPromotion
  case textInsert => exact Texts.isSome_textInsert
  case textGet => exact iff_of_true numbered.isSome_textGet trivial
  case textGetCanonical => exact iff_of_true numbered.isSome_textGet trivial
  case listPush => exact isSome_listPush
  case listInsert => exact isSome_listInsert
  case listDelete => exact iff_of_true isSome_listDelete trivial
  case listMove => exact iff_of_true isSome_listMove trivial
  case requestUpload => exact iff_of_true Blobs.isSome_requestUpload trivial
  case readProjection => exact Queries.isSome_readProjection
  case describeArchive => exact iff_of_true hashed.isSome_describeArchive trivial
  case replayReadRange => exact iff_of_true Graphs.isSome_replayReadRange trivial

/-- What holds of the tables in every run and keeps calls from panicking. -/
structure Sound (engine : HostEngine) : Prop where
  numbered : engine.texts.Numbered
  hashed : engine.checkpoints.Hashed

theorem Sound.new : Sound .new := ⟨.empty, nofun⟩

theorem Sound.step (sound : engine.Sound) (stepped : engine.step env call = some next) :
    next.Sound :=
  ⟨sound.numbered.step stepped,
    kept_checkpoints (hashed_kept env.crypto) stepped sound.hashed⟩

theorem Sound.isSome_step (sound : engine.Sound) : (engine.step env call).isSome ↔
    (call.envelope.roomId ≠ "" → engine.Returns call.envelope.roomId call.envelope.command) := by
  unfold HostEngine.step apply
  rw [isSome_map]
  split
  · rename_i unnamed
    simp [unnamed]
  · rename_i named
    rw [isSome_run sound.numbered sound.hashed]
    simp [named]

end HostEngine

/-- A sequence of calls returns from each of them exactly when none asks for a page
behind the rows of a projection or needs a number that its counter no longer has. -/
theorem host_calls_return_iff (env : HostEnv) (calls : List HostCall) :
    (exec (HostEngine.step env) .new calls).isSome ↔
      Along (HostEngine.step env) (fun engine call => call.envelope.roomId ≠ "" →
        engine.Returns call.envelope.roomId call.envelope.command) .new calls :=
  exec_isSome_iff_along (fun _ _ _ stepped sound => HostEngine.Sound.step sound stepped)
    (fun sound => HostEngine.Sound.isSome_step sound) .new

def readPastRows : List HostCall :=
  [⟨0, "r", .ensureRoom⟩, ⟨0, "r", .registerQuerySpec "q" "1" .null⟩,
    ⟨0, "r", .buildProjection "p" "q" none⟩, ⟨0, "r", .readProjection "p" 1 (some "offset:1")⟩]

theorem read_past_rows_panics :
    (exec (HostEngine.step .sample) .new readPastRows).isNone := by
  decide +kernel

end NodalMerge.Host
