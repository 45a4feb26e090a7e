import NodalMerge.Library.Loop
import Mathlib.Data.Finset.Basic
import Mathlib.Data.Int.DivMod
import Mathlib.Data.List.Nodup
import Mathlib.Tactic

/-! A row keeps the columns that some statement reads or writes. -/

namespace NodalMerge

open Function List Loop

/-- `AssetState`. -/
inductive AssetState where
  | uploading
  | active
  | grace
  | sweepCandidate
  | pinned
  | pendingDelete
  | deleted
  | quarantined
  deriving DecidableEq

/-- Nanoseconds since the epoch. -/
abbrev SystemTime := Int

/-- Whole milliseconds since the epoch, cut off towards it. -/
def millis (time : SystemTime) : Int := time.tdiv 1000000

/-- `to_unix_millis`: the count is cast to an `i64`. -/
def toUnixMillis (time : SystemTime) : Int := (millis time).bmod (2 ^ 64)

/-- The milliseconds of the time fit in an `i64`. -/
def FitsMillis (time : SystemTime) : Prop := -2 ^ 63 ≤ millis time ∧ millis time < 2 ^ 63

instance decidableFitsMillis (time : SystemTime) : Decidable (FitsMillis time) :=
  inferInstanceAs (Decidable (_ ∧ _))

theorem toUnixMillis_eq (fits : FitsMillis time) : toUnixMillis time = millis time := by
  obtain ⟨low, high⟩ := fits
  unfold toUnixMillis
  rw [Int.bmod_eq_of_le] <;> omega

/-- `SystemTime::checked_sub`: seconds are an `i64`. -/
def checkedSub (time : SystemTime) (duration : Nat) : Option SystemTime :=
  if -2 ^ 63 * 1000000000 ≤ time - duration then some (time - duration) else none

/-- The bucket and the key of an object. -/
abbrev ObjectRef := String × String

/-- A row of `gc_assets`. -/
structure AssetRecord where
  hash : String
  objectKey : String
  bucket : String
  namespaceName : String
  firstSeenAt : Int
  lastSeenAt : Int
  state : AssetState
  pendingDeleteAt : Option Int
  deletedAt : Option Int
  lastMarkedRunId : Option String
  markCount : Nat
  isAdminPinned : Bool
  updatedAt : Int
  deriving DecidableEq

namespace AssetRecord

def object (row : AssetRecord) : ObjectRef := (row.bucket, row.objectKey)

/-- The `VALUES` of `UPSERT_ACTIVE_SEEN_SQL`. -/
def inserted (object : ObjectRef) (runId hash : String) (nowMs : Int) : AssetRecord where
  hash
  objectKey := object.2
  bucket := object.1
  namespaceName := "blobs"
  firstSeenAt := nowMs
  lastSeenAt := nowMs
  state := .active
  pendingDeleteAt := none
  deletedAt := none
  lastMarkedRunId := some runId
  markCount := 1
  isAdminPinned := false
  updatedAt := nowMs

/-- The `DO UPDATE SET` of `UPSERT_ACTIVE_SEEN_SQL`. -/
def seen (row : AssetRecord) (runId : String) (nowMs : Int) : AssetRecord :=
  { row with
    lastSeenAt := nowMs
    state := .active
    pendingDeleteAt := none
    lastMarkedRunId := some runId
    markCount := row.markCount + 1
    updatedAt := nowMs }

/-- The `SET` of `set_pending_delete`. -/
def pended (row : AssetRecord) (atMs : Int) : AssetRecord :=
  { row with state := .pendingDelete, pendingDeleteAt := some atMs, updatedAt := atMs }

/-- The `SET` of `set_deleted`: the row keeps its `pending_delete_at`. -/
def dropped (row : AssetRecord) (atMs : Int) : AssetRecord :=
  { row with state := .deleted, deletedAt := some atMs, updatedAt := atMs }

end AssetRecord

/-- The table: the hash is its primary key. -/
structure AssetTable where
  rows : List AssetRecord
  keyed : (rows.map AssetRecord.hash).Nodup

namespace AssetTable

/-- `UPDATE … WHERE hash = ?`. -/
def update (table : AssetTable) (hash : String) (change : AssetRecord → AssetRecord)
    (same : ∀ row, (change row).hash = row.hash) : AssetTable where
  rows := table.rows.map fun row => if row.hash = hash then change row else row
  keyed := by
    have hashes : AssetRecord.hash ∘ (fun row => if row.hash = hash then change row else row) =
        AssetRecord.hash := by
      funext row
      simp only [comp_apply]
      split
      · exact same row
      · rfl
    rw [map_map, hashes]
    exact table.keyed

variable {table : AssetTable} {hash : String}

theorem mem_update : row ∈ (table.update hash change same).rows ↔
    (row ∈ table.rows ∧ row.hash ≠ hash) ∨ ∃ old ∈ table.rows, old.hash = hash ∧ change old = row := by
  simp only [update, mem_map]
  constructor
  · intro found
    obtain ⟨old, member, rfl⟩ := found
    split
    · rename_i here
      exact Or.inr ⟨old, member, here, rfl⟩
    · rename_i elsewhere
      exact Or.inl ⟨member, elsewhere⟩
  · intro found
    rcases found with ⟨member, elsewhere⟩ | ⟨old, member, here, rfl⟩
    · exact ⟨row, member, if_neg elsewhere⟩
    · exact ⟨old, member, if_pos here⟩

/-- `UPSERT_ACTIVE_SEEN_SQL`. -/
def upsertActiveSeen (object : ObjectRef) (runId hash : String) (nowMs : Int)
    (table : AssetTable) : AssetTable :=
  if known : hash ∈ table.rows.map AssetRecord.hash then
    table.update hash (fun row => row.seen runId nowMs) fun _ => rfl
  else
    { rows := table.rows ++ [AssetRecord.inserted object runId hash nowMs]
      keyed := by
        rw [map_append, nodup_append]
        refine ⟨table.keyed, nodup_singleton _, fun first member second single => ?_⟩
        rw [mem_singleton.mp single]
        intro equal
        rw [equal] at member
        exact known member }

/-- `set_pending_delete`. -/
def setPendingDelete (hash : String) (time : SystemTime) (table : AssetTable) : AssetTable :=
  table.update hash (fun row => row.pended (toUnixMillis time)) fun _ => rfl

/-- `set_deleted`. -/
def setDeleted (hash : String) (time : SystemTime) (table : AssetTable) : AssetTable :=
  table.update hash (fun row => row.dropped (toUnixMillis time)) fun _ => rfl

theorem mem_setPendingDelete :
    row ∈ (table.setPendingDelete hash time).rows ↔ (row ∈ table.rows ∧ row.hash ≠ hash) ∨
      ∃ old ∈ table.rows, old.hash = hash ∧ old.pended (toUnixMillis time) = row :=
  mem_update

theorem mem_setDeleted :
    row ∈ (table.setDeleted hash time).rows ↔ (row ∈ table.rows ∧ row.hash ≠ hash) ∨
      ∃ old ∈ table.rows, old.hash = hash ∧ old.dropped (toUnixMillis time) = row :=
  mem_update

/-- What an upsert leaves: the other rows, and an active row of the hash. -/
theorem mem_upsertActiveSeen
    (member : row ∈ (table.upsertActiveSeen object runId hash nowMs).rows) :
    (row ∈ table.rows ∧ row.hash ≠ hash) ∨
      (row.hash = hash ∧ row.state = .active ∧ row.lastMarkedRunId = some runId) := by
  unfold upsertActiveSeen at member
  split at member
  · rcases mem_update.mp member with kept | ⟨old, -, here, rfl⟩
    · exact Or.inl kept
    · exact Or.inr ⟨here, rfl, rfl⟩
  · rename_i fresh
    rcases mem_append.mp member with old | single
    · refine Or.inl ⟨old, fun here => fresh ?_⟩
      rw [← here]
      exact mem_map_of_mem old
    · rw [mem_singleton.mp single]
      exact Or.inr ⟨rfl, rfl, rfl⟩

/-- Every row points at the object that the key scheme gives to its hash. -/
def Located (keyScheme : String → ObjectRef) (table : AssetTable) : Prop :=
  ∀ row ∈ table.rows, row.object = keyScheme row.hash

section
variable (located : table.Located keyScheme)
include located

theorem Located.update (object : ∀ row, (change row).object = row.object) :
    (table.update hash change same).Located keyScheme := by
  intro row member
  rcases mem_update.mp member with ⟨old, -⟩ | ⟨old, kept, -, rfl⟩
  · exact located row old
  · rw [object, same]
    exact located old kept

theorem Located.upsertActiveSeen :
    (table.upsertActiveSeen (keyScheme hash) runId hash nowMs).Located keyScheme := by
  unfold AssetTable.upsertActiveSeen
  split
  · exact located.update fun _ => rfl
  · intro row member
    rcases mem_append.mp member with old | single
    · exact located row old
    · rw [mem_singleton.mp single]
      rfl

theorem Located.setDeleted : (table.setDeleted hash time).Located keyScheme :=
  located.update fun _ => rfl

end

/-- `asset_state`. -/
def assetState (table : AssetTable) (hash : String) : Option AssetState :=
  (table.rows.find? fun row => row.hash = hash).map AssetRecord.state

theorem assetState_eq_some_iff :
    table.assetState hash = some state ↔ ∃ row ∈ table.rows, row.hash = hash ∧ row.state = state := by
  unfold assetState
  rw [Option.map_eq_some_iff]
  constructor
  · intro found
    obtain ⟨row, first, rfl⟩ := found
    exact ⟨row, mem_of_find?_eq_some first, by simpa using List.find?_some first, rfl⟩
  · intro found
    obtain ⟨row, member, rfl, rfl⟩ := found
    obtain ⟨first, picked⟩ : ∃ first, table.rows.find? (fun other => other.hash = row.hash) = some first :=
      Option.isSome_iff_exists.mp (List.find?_isSome.mpr ⟨row, member, by simp⟩)
    have equal : first.hash = row.hash := by simpa using List.find?_some picked
    rw [inj_on_of_nodup_map table.keyed (mem_of_find?_eq_some picked) member equal] at picked
    exact ⟨row, picked, rfl⟩

/-- The state of a hash depends on the rows of the hash only. -/
theorem assetState_congr {other : AssetTable}
    (same : ∀ row, row.hash = hash → (row ∈ table.rows ↔ row ∈ other.rows)) :
    table.assetState hash = other.assetState hash := by
  ext state
  rw [assetState_eq_some_iff, assetState_eq_some_iff]
  refine exists_congr fun row => ?_
  constructor
  · intro found
    exact ⟨(same row found.2.1).mp found.1, found.2⟩
  · intro found
    exact ⟨(same row found.2.1).mpr found.1, found.2⟩

section

theorem assetState_upsertActiveSeen_self :
    (table.upsertActiveSeen object runId hash nowMs).assetState hash = some .active := by
  unfold upsertActiveSeen
  split
  · rename_i known
    obtain ⟨row, member, here⟩ := mem_map.mp known
    refine assetState_eq_some_iff.mpr ⟨row.seen runId nowMs, mem_update.mpr ?_, here, rfl⟩
    exact Or.inr ⟨row, member, here, rfl⟩
  · refine assetState_eq_some_iff.mpr ⟨.inserted object runId hash nowMs, ?_, rfl, rfl⟩
    exact mem_append_right _ (mem_singleton_self _)

theorem assetState_update_of_ne (apart : other ≠ hash) :
    (table.update hash change same).assetState other = table.assetState other := by
  apply assetState_congr
  intro row here
  rw [mem_update]
  constructor
  · intro found
    rcases found with ⟨member, -⟩ | ⟨old, -, there, rfl⟩
    · exact member
    · rw [same] at here
      exact absurd (here.symm.trans there) apart
  · intro member
    exact Or.inl ⟨member, here ▸ apart⟩

theorem assetState_upsertActiveSeen_of_ne (apart : other ≠ hash) :
    (table.upsertActiveSeen object runId hash nowMs).assetState other = table.assetState other := by
  unfold upsertActiveSeen
  split
  · exact assetState_update_of_ne apart
  · apply assetState_congr
    intro row here
    rw [mem_append, mem_singleton, or_iff_left]
    rintro rfl
    exact apart here.symm

theorem assetState_setDeleted_self (known : table.assetState hash = some state) :
    (table.setDeleted hash time).assetState hash = some .deleted := by
  obtain ⟨row, member, here, -⟩ := assetState_eq_some_iff.mp known
  refine assetState_eq_some_iff.mpr ⟨row.dropped (toUnixMillis time), mem_setDeleted.mpr ?_, here, rfl⟩
  exact Or.inr ⟨row, member, here, rfl⟩

theorem assetState_setDeleted_of_ne (apart : other ≠ hash) :
    (table.setDeleted hash time).assetState other = table.assetState other :=
  assetState_update_of_ne apart

end

/-- `upsert_active_seen_batch`: one transaction for all hashes. -/
def upsertActiveSeenBatch (keyScheme : String → ObjectRef) (runId : String) (hashes : List String)
    (nowMs : Int) (table : AssetTable) : AssetTable :=
  hashes.foldl (fun table hash => table.upsertActiveSeen (keyScheme hash) runId hash nowMs) table

theorem mem_upsertActiveSeenBatch
    (member : row ∈ (table.upsertActiveSeenBatch keyScheme runId hashes nowMs).rows) :
    (row ∈ table.rows ∧ row.hash ∉ hashes) ∨
      (row.hash ∈ hashes ∧ row.state = .active ∧ row.lastMarkedRunId = some runId) := by
  induction hashes generalizing table with
  | nil => exact Or.inl ⟨member, not_mem_nil⟩
  | cons head rest ih =>
    rcases ih member with ⟨early, other⟩ | ⟨later, marked⟩
    · rcases mem_upsertActiveSeen early with ⟨old, apart⟩ | ⟨here, marked⟩
      · exact Or.inl ⟨old, not_mem_cons_of_ne_of_not_mem apart other⟩
      · exact Or.inr ⟨here ▸ mem_cons_self, marked⟩
    · exact Or.inr ⟨mem_cons_of_mem _ later, marked⟩

/-- The `WHERE` of `iter_unmarked_candidates`. -/
def Unmarked (runId : String) (row : AssetRecord) : Prop :=
  row.state ≠ .deleted ∧ row.lastMarkedRunId ≠ some runId

/-- The `WHERE` of `iter_pending_older_than`. -/
def PendingOlderThan (cutoffMs : Int) (row : AssetRecord) : Prop :=
  row.state = .pendingDelete ∧ ∃ stamp ∈ row.pendingDeleteAt, stamp ≤ cutoffMs

instance decidableUnmarked (runId : String) (row : AssetRecord) : Decidable (Unmarked runId row) :=
  inferInstanceAs (Decidable (_ ∧ _))

instance decidablePendingOlderThan (cutoffMs : Int) (row : AssetRecord) :
    Decidable (PendingOlderThan cutoffMs row) :=
  inferInstanceAs (Decidable (_ ∧ _))

end AssetTable

def AssetTable.iterUnmarkedCandidates (order : Listing AssetRecord) (runId : String) (table : AssetTable) :
    List AssetRecord :=
  order.arrange (table.rows.filter (Unmarked runId))

def AssetTable.iterPendingOlderThan (order : Listing AssetRecord) (cutoff : SystemTime) (table : AssetTable) :
    List AssetRecord :=
  order.arrange (table.rows.filter (PendingOlderThan (toUnixMillis cutoff)))

theorem AssetTable.mem_iterPendingOlderThan {table : AssetTable} :
    row ∈ table.iterPendingOlderThan order cutoff ↔
      row ∈ table.rows ∧ PendingOlderThan (toUnixMillis cutoff) row := by
  rw [iterPendingOlderThan, (order.perm _).mem_iff, mem_filter, decide_eq_true_iff]

end NodalMerge
