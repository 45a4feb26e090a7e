import NodalMerge.Host.Returns

namespace NodalMerge.Host

open Checkpoints Finmap Function Machine Option

namespace Checkpoints

/-- The row of a key in the latest snapshot of a room. -/
def latestRow (table : Checkpoints) (room key : String) : Option Value :=
  (table.roomLatestSnapshot room).bind fun snapshot => snapshot.rows.lookup key

/-- An entry is in the live map of a room. -/
def Live (table : Checkpoints) (room ns key : String) : Prop :=
  ((table.liveMap room).lookup (scopedMapKey ns key)).isSome = true

/-- The snapshot with the present number has the rows of the room; before the first change
there are none. -/
structure Recorded (table : Checkpoints) : Prop where
  first : ∀ room snapshot, (table.canonicalSnapshots room).lookup 0 = some snapshot →
    snapshot.rows = ∅
  latest : ∀ room, table.canonicalRows room =
    (((table.canonicalSnapshots room).lookup (table.canonicalSeq room)).map
      CanonicalSnapshotState.rows).getD ∅

theorem Recorded.empty : Recorded .empty :=
  ⟨nofun, fun _ => rfl⟩

variable {table : Checkpoints}

theorem Recorded.latestRow (recorded : table.Recorded)
    (room key : String) : table.latestRow room key = (table.canonicalRows room).lookup key := by
  rw [recorded.latest room, Checkpoints.latestRow, roomLatestSnapshot]
  cases present : (table.canonicalSnapshots room).lookup (table.canonicalSeq room) with
  | some snapshot => rfl
  | none =>
    cases initial : (table.canonicalSnapshots room).lookup 0 with
    | none => rfl
    | some snapshot =>
      change snapshot.rows.lookup key = _
      rw [recorded.first room snapshot initial]
      rfl

theorem Recorded.record (recorded : table.Recorded)
    (made : table.recordRows crypto room rows = some after) : after.Recorded := by
  obtain ⟨-, rfl⟩ := recordRows_eq_some_iff.mp made
  constructor
  · intro otherRoom snapshot found
    obtain ⟨-, inserted⟩ | ⟨-, before⟩ := lookup_update_cases found
    · obtain ⟨clash, -⟩ | ⟨-, before⟩ := lookup_insert_cases inserted
      · cases clash
      · exact recorded.first _ _ before
    · exact recorded.first _ _ before
  · intro otherRoom
    by_cases same : otherRoom = room
    · subst same
      dsimp only [Checkpoints.recorded]
      rw [update_self, update_self, update_self, lookup_insert]
      rfl
    · dsimp only [Checkpoints.recorded]
      rw [update_of_ne same, update_of_ne same, update_of_ne same]
      exact recorded.latest otherRoom

theorem Recorded.ensure (recorded : table.Recorded) (crypto : Crypto)
    (room : String) : (table.ensureRoom crypto room).Recorded := by
  have initial : (((table.canonicalSnapshots room).lookup 0).getD (initialSnapshot crypto)).rows
      = ∅ := by
    cases stored : (table.canonicalSnapshots room).lookup 0 with
    | none => rfl
    | some snapshot => exact recorded.first room snapshot stored
  constructor
  · intro otherRoom snapshot found
    obtain ⟨-, inserted⟩ | ⟨-, before⟩ := lookup_update_cases found
    · obtain ⟨-, rfl⟩ | ⟨clash, -⟩ := lookup_insert_cases inserted
      · exact initial
      · exact absurd rfl clash
    · exact recorded.first _ _ before
  · intro otherRoom
    change table.canonicalRows otherRoom = _
    rw [recorded.latest otherRoom]
    by_cases same : otherRoom = room
    · subst same
      simp only [ensureRoom, setLive, update_self, lookup_insert_ite]
      split
      · rename_i unchanged
        rw [unchanged]
        cases stored : (table.canonicalSnapshots otherRoom).lookup 0 with
        | none => rfl
        | some snapshot => rfl
      · rfl
    · simp [ensureRoom, setLive, same]

theorem Recorded.frontier (recorded : table.Recorded) (room : String)
    (seq : Nat) (heads : List String) : (table.setSnapshotFrontier room seq heads).Recorded := by
  have rows (otherRoom : String) (number : Nat) :
      (((table.setSnapshotFrontier room seq heads).canonicalSnapshots otherRoom).lookup number).map
        CanonicalSnapshotState.rows =
      ((table.canonicalSnapshots otherRoom).lookup number).map CanonicalSnapshotState.rows := by
    by_cases same : otherRoom = room
    · subst same
      simp only [setSnapshotFrontier, update_self]
      split
      · rename_i stored present
        rw [lookup_insert_ite]
        split
        · rename_i here
          rw [here, present]
          rfl
        · rfl
      · rfl
    · simp [setSnapshotFrontier, same]
  constructor
  · intro otherRoom snapshot found
    have mapped := rows otherRoom 0
    rw [found] at mapped
    obtain ⟨stored, present, same⟩ := map_eq_some_iff.mp mapped.symm
    exact same.symm.trans (recorded.first otherRoom stored present)
  · intro otherRoom
    change table.canonicalRows otherRoom = _
    rw [recorded.latest otherRoom]
    exact congrArg (Option.getD · ∅) (rows otherRoom _).symm

theorem recorded_kept (crypto : Crypto) : Kept crypto Recorded where
  live _ _ recorded := ⟨recorded.first, recorded.latest⟩
  record made recorded := recorded.record made
  ensure room recorded := recorded.ensure crypto room
  frontier room seq heads recorded := recorded.frontier room seq heads
  promotions _ recorded := ⟨recorded.first, recorded.latest⟩

variable {table after : Checkpoints} {room ns key : String} {value : Value}

theorem mapSet_rows (accepted : checkKey rooms room key = .ok ())
    (plain : startsWith "_" key = false)
    (wrote : table.mapSet crypto rooms room ns key value = some (after, result)) :
    after.canonicalRows room = (table.canonicalRows room).insert key value := by
  simp only [Checkpoints.mapSet, accepted, plain, Bool.false_eq_true, ↓reduceIte] at wrote
  obtain ⟨recorded, made, same⟩ := map_eq_some_iff.mp wrote
  cases same
  obtain ⟨-, rfl⟩ := recordRows_eq_some_iff.mp made
  simp [Checkpoints.recorded]

theorem mapDelete_rows (accepted : checkKey rooms room key = .ok ())
    (plain : startsWith "_" key = false)
    (wrote : table.mapDelete crypto rooms room ns key = some (after, result)) :
    (table.Live room ns key → after.canonicalRows room = (table.canonicalRows room).erase key) ∧
      (¬ table.Live room ns key → after.canonicalRows room = table.canonicalRows room) := by
  simp only [Checkpoints.mapDelete, accepted, plain, Bool.not_false, Bool.and_true] at wrote
  obtain ⟨recorded, made, same⟩ := map_eq_some_iff.mp wrote
  cases same
  split at made
  · rename_i live
    obtain ⟨-, rfl⟩ := recordRows_eq_some_iff.mp made
    refine ⟨fun _ => ?_, fun gone => absurd live gone⟩
    simp [Checkpoints.recorded]
  · rename_i gone
    cases made
    exact ⟨fun live => absurd live gone, fun _ => rfl⟩

/-- The entries other than one keep their rows. -/
def OthersKept (table after : Checkpoints) (room ns key : String) : Prop :=
  ∀ otherNs otherKey, (otherNs, otherKey) ≠ (ns, key) → table.Live room otherNs otherKey →
    after.latestRow room otherKey = table.latestRow room otherKey

/-- No entry of another namespace has the key. -/
def Alone (table : Checkpoints) (room ns key : String) : Prop :=
  ∀ otherNs, otherNs ≠ ns → ¬ table.Live room otherNs key

/-- When only the row of the key may change, the entries that see it are those of other
namespaces with that key. -/
theorem othersKept_iff (recorded : table.Recorded) (recordedAfter : after.Recorded)
    (elsewhere : ∀ otherKey, otherKey ≠ key →
      (after.canonicalRows room).lookup otherKey = (table.canonicalRows room).lookup otherKey) :
    table.OthersKept after room ns key ↔ table.Alone room ns key ∨
      (after.canonicalRows room).lookup key = (table.canonicalRows room).lookup key := by
  simp only [OthersKept, recorded.latestRow, recordedAfter.latestRow]
  constructor
  · intro kept
    by_cases alone : table.Alone room ns key
    · exact .inl alone
    · right
      simp only [Alone, not_forall, not_not] at alone
      obtain ⟨otherNs, different, live⟩ := alone
      apply kept otherNs key _ live
      intro same
      exact different (congrArg Prod.fst same)
  · intro condition otherNs otherKey different live
    by_cases sameKey : otherKey = key
    · subst sameKey
      have otherSpace : otherNs ≠ ns := fun same => different (by rw [same])
      obtain alone | same := condition
      · exact absurd live (alone otherNs otherSpace)
      · exact same
    · exact elsewhere otherKey sameKey

end Checkpoints

namespace HostEngine

/-- After a write or delete of an entry, the other entries have the rows they had; and
after a delete there is no row for the entry. -/
def Tracks (engine next : HostEngine) (room : String) : HostCommand → Prop
  | .mapSet ns key _ => startsWith "_" key = false →
    engine.checkpoints.OthersKept next.checkpoints room ns key
  | .mapDelete ns key => startsWith "_" key = false →
    (room ≠ "" → checkKey engine.rooms room key = .ok () →
      next.checkpoints.latestRow room key = none) ∧
    engine.checkpoints.OthersKept next.checkpoints room ns key
  | _ => True

/-- A write changes its row only where no other namespace has the key, and where a delete
meets a row, it finds its entry in the live map and is alone with the key. -/
def Apart (engine : HostEngine) (room : String) : HostCommand → Prop
  | .mapSet ns key value => startsWith "_" key = false →
    checkKey engine.rooms room key = .ok () → engine.checkpoints.Alone room ns key ∨
      (engine.checkpoints.canonicalRows room).lookup key = some value
  | .mapDelete ns key => startsWith "_" key = false →
    checkKey engine.rooms room key = .ok () →
      (engine.checkpoints.canonicalRows room).lookup key = none ∨
        (engine.checkpoints.Live room ns key ∧ engine.checkpoints.Alone room ns key)
  | _ => True

variable {engine next : HostEngine} {room ns key : String} {call : HostCall} {value : Value}

theorem tracks_of_unchanged (empty : room = "") : engine.Tracks engine room command := by
  have kept (ns key : String) :
      engine.checkpoints.OthersKept engine.checkpoints room ns key := fun _ _ _ _ => rfl
  cases command <;> first
    | trivial
    | exact fun _ => kept _ _
    | exact fun _ => ⟨fun named => absurd empty named, kept _ _⟩

section
variable (recorded : engine.checkpoints.Recorded)
include recorded

theorem tracks_mapSet_iff (recordedNext : next.checkpoints.Recorded)
    (ran : engine.run env room nowUnixMs (.mapSet ns key value) = some (next, result)) :
    engine.Tracks next room (.mapSet ns key value) ↔
      engine.Apart room (.mapSet ns key value) := by
  obtain ⟨⟨after, _⟩, wrote, same⟩ := map_eq_some_iff.mp ran
  cases same
  apply imp_congr_right
  intro plain
  cases check : checkKey engine.rooms room key with
  | error error =>
    simp only [Checkpoints.mapSet, check] at wrote
    cases wrote
    simp only [reduceCtorEq, false_implies, iff_true]
    exact fun _ _ _ _ => rfl
  | ok checked =>
    have rows := mapSet_rows check plain wrote
    change engine.checkpoints.OthersKept after room ns key ↔ _
    rw [othersKept_iff recorded recordedNext, rows, lookup_insert, eq_comm]
    · simp
    · intro otherKey different
      rw [rows, lookup_insert_of_ne _ different]

theorem tracks_mapDelete_iff (recordedNext : next.checkpoints.Recorded) (named : room ≠ "")
    (ran : engine.run env room nowUnixMs (.mapDelete ns key) = some (next, result)) :
    engine.Tracks next room (.mapDelete ns key) ↔ engine.Apart room (.mapDelete ns key) := by
  obtain ⟨⟨after, _⟩, wrote, same⟩ := map_eq_some_iff.mp ran
  cases same
  apply imp_congr_right
  intro plain
  cases check : checkKey engine.rooms room key with
  | error error =>
    simp only [Checkpoints.mapDelete, check] at wrote
    cases wrote
    simp only [reduceCtorEq, false_implies, implies_true, true_and, iff_true]
    exact fun _ _ _ _ => rfl
  | ok checked =>
    obtain ⟨ifLive, ifGone⟩ := mapDelete_rows check plain wrote
    have elsewhere : ∀ otherKey, otherKey ≠ key → (after.canonicalRows room).lookup otherKey =
        (engine.checkpoints.canonicalRows room).lookup otherKey := by
      intro otherKey different
      by_cases live : engine.checkpoints.Live room ns key
      · rw [ifLive live, lookup_erase_ne different]
      · rw [ifGone live]
    change (_ → _ → after.latestRow room key = none) ∧
      engine.checkpoints.OthersKept after room ns key ↔ _
    rw [othersKept_iff recorded recordedNext elsewhere,
      Checkpoints.Recorded.latestRow recordedNext]
    simp only [named, ne_eq, not_false_eq_true, true_implies]
    by_cases live : engine.checkpoints.Live room ns key
    · rw [ifLive live, lookup_erase]
      simp only [live, true_and, or_comm, eq_comm]
    · rw [ifGone live]
      simp [live]

/-- A call that returns leaves the rows tracking the live map exactly when its entry is
apart from the others. -/
theorem tracks_iff (stepped : engine.step env call = some next) :
    engine.Tracks next call.envelope.roomId call.envelope.command ↔
      (call.envelope.roomId ≠ "" →
        engine.Apart call.envelope.roomId call.envelope.command) := by
  have recordedNext := kept_checkpoints (recorded_kept env.crypto) stepped recorded
  obtain ⟨⟨after, result⟩, applied, rfl⟩ := map_eq_some_iff.mp stepped
  unfold apply at applied
  split at applied
  · rename_i unnamed
    cases applied
    exact iff_of_true (tracks_of_unchanged unnamed) fun named => absurd unnamed named
  · rename_i named
    rw [forall_prop_of_true named]
    generalize call.envelope.command = command at applied
    cases command <;> first
      | exact Iff.rfl
      | skip
    case mapSet => exact tracks_mapSet_iff recorded recordedNext applied
    case mapDelete => exact tracks_mapDelete_iff recorded recordedNext named applied

end

end HostEngine

/-- The canonical rows track the live map along a run exactly when the writes and deletes
that return stay apart from the entries of other namespaces and from promoted rows. -/
theorem canonical_rows_track_iff (env : HostEnv) (calls : List HostCall) :
    Along (HostEngine.step env) (fun engine call => ∀ next, engine.step env call = some next →
        engine.Tracks next call.envelope.roomId call.envelope.command) .new calls ↔
      Along (HostEngine.step env) (fun engine call => call.envelope.roomId ≠ "" →
        engine.Returns call.envelope.roomId call.envelope.command →
        engine.Apart call.envelope.roomId call.envelope.command) .new calls := by
  have kept : ∀ engine call next, HostEngine.step env engine call = some next →
      engine.Sound ∧ engine.checkpoints.Recorded → next.Sound ∧ next.checkpoints.Recorded := by
    intro engine call next stepped ⟨sound, recorded⟩
    exact ⟨sound.step stepped,
      HostEngine.kept_checkpoints (recorded_kept env.crypto) stepped recorded⟩
  apply along_congr kept
  · intro engine call ⟨sound, recorded⟩
    have returns : (engine.step env call).isSome ↔ _ := sound.isSome_step
    constructor
    · intro tracks named returned
      obtain ⟨next, stepped⟩ := isSome_iff_exists.mp (returns.mpr fun _ => returned)
      exact (HostEngine.tracks_iff recorded stepped).mp (tracks next stepped) named
    · intro apart next stepped
      apply (HostEngine.tracks_iff recorded stepped).mpr
      intro named
      exact apart named (returns.mp (isSome_iff_exists.mpr ⟨next, stepped⟩) named)
  · exact ⟨.new, .empty⟩

/-- Two namespaces with one key. -/
def sharedKey : List HostCall :=
  [⟨0, "r", .ensureRoom⟩, ⟨0, "r", .mapSet "a" "k" (.bool true)⟩,
    ⟨0, "r", .mapSet "b" "k" (.bool false)⟩]

theorem other_namespace_changes_row :
    ¬ Along (HostEngine.step .sample) (fun engine call => ∀ next,
      engine.step .sample call = some next →
        engine.Tracks next call.envelope.roomId call.envelope.command) .new sharedKey := by
  intro along
  have third := ((along.2 _ rfl).2 _ rfl).1 _ rfl
  have kept := third (by decide +kernel) "a" "k" (by decide) (by
    unfold Checkpoints.Live
    decide +kernel)
  have shown := congrArg (Option.map Value.text) kept
  exact absurd shown (by decide +kernel)

end NodalMerge.Host
