import NodalMerge.Gc.Inventory

namespace NodalMerge

open AssetTable List Loop

/-- `GcRunMode`. -/
inductive GcRunMode where
  | dryRun
  | markOnly
  | sweepSoft
  | sweepHard
  deriving DecidableEq

/-- `GcCoordinatorConfig`, with the key scheme of the inventory. -/
structure GcConfig where
  graceWindow : Nat
  maxDeletesPerRun : Nat
  requireHeadBeforeDelete : Bool
  keyScheme : String → ObjectRef

/-- `local_key_scheme`. -/
def localKeyScheme (hash : String) : ObjectRef := ("local", hash)

/-- `GcCoordinatorConfig::default`, on local storage. -/
def GcConfig.default : GcConfig where
  graceWindow := 24 * 60 * 60 * 1000000000
  maxDeletesPerRun := 100
  requireHeadBeforeDelete := true
  keyScheme := localKeyScheme

/-- The calls of a run that may fail. `deleteReply` is a delete that takes place
and is still reported as failed. -/
inductive StoreCall where
  | startRun
  | collectLiveHashes
  | upsertActiveSeenBatch
  | iterUnmarkedCandidates
  | isPinned (hash : String)
  | setPendingDelete (hash : String)
  | iterPendingOlderThan
  | isPinnedAgain (hash : String)
  | head (hash : String)
  | delete (hash : String)
  | deleteReply (hash : String)
  | setDeleted (hash : String)
  | applyDelta
  deriving DecidableEq

/-- `GcError`. -/
inductive GcError where
  | backend (call : StoreCall)
  | invariant (message : String)
  deriving DecidableEq

/-- One call of `run_once`, with what the world answers to it: the run id, or
`none` where `start_run` fails; the live set; the pins; the failing calls. -/
structure GcRun where
  mode : GcRunMode
  now : SystemTime
  runId : Option String
  live : List String
  pinned : String → Bool
  fails : StoreCall → Bool
  softOrder : Listing AssetRecord
  hardOrder : Listing AssetRecord

/-- `GcRunDelta`; nothing counts errors. -/
structure GcRunDelta where
  markedCount : Nat
  newlyPendingCount : Nat
  hardDeletedCount : Nat
  skippedPinnedCount : Nat
  deriving DecidableEq

structure GcStore where
  assets : AssetTable
  objects : Finset ObjectRef

def GcStore.empty : GcStore := ⟨⟨[], nodup_nil⟩, ∅⟩

/-- A run on its way: the rows it moved to `PendingDelete` and the rows whose
objects it deleted are noted as it goes. -/
structure Progress where
  store : GcStore
  delta : GcRunDelta
  pended : List AssetRecord
  removed : List AssetRecord

namespace Progress

def start (store : GcStore) : Progress := ⟨store, ⟨0, 0, 0, 0⟩, [], []⟩

def skipPinned (progress : Progress) : Progress :=
  { progress with
    delta := { progress.delta with skippedPinnedCount := progress.delta.skippedPinnedCount + 1 } }

def setPendingDelete (row : AssetRecord) (now : SystemTime) (progress : Progress) : Progress :=
  { progress with
    store := { progress.store with assets := progress.store.assets.setPendingDelete row.hash now }
    delta := { progress.delta with newlyPendingCount := progress.delta.newlyPendingCount + 1 }
    pended := progress.pended ++ [row] }

def deleteObject (row : AssetRecord) (progress : Progress) : Progress :=
  { progress with
    store := { progress.store with objects := progress.store.objects.erase row.object }
    removed := progress.removed ++ [row] }

def setDeleted (row : AssetRecord) (now : SystemTime) (progress : Progress) : Progress :=
  { progress with
    store := { progress.store with assets := progress.store.assets.setDeleted row.hash now } }

def countDeleted (progress : Progress) : Progress :=
  { progress with
    delta := { progress.delta with hardDeletedCount := progress.delta.hardDeletedCount + 1 } }

end Progress

namespace GcRun

/-- One row of `sweep_soft`. -/
def softTurn (run : GcRun) (progress : Progress) (row : AssetRecord) : Flow Progress GcError :=
  if row.pendingDeleteAt.isSome ∨ row.state = .pendingDelete then .next progress
  else if row.isAdminPinned then .next progress.skipPinned
  else if run.fails (.isPinned row.hash) then .fail progress (.backend (.isPinned row.hash))
  else if run.pinned row.hash then .next progress.skipPinned
  else if run.fails (.setPendingDelete row.hash) then
    .fail progress (.backend (.setPendingDelete row.hash))
  else .next (progress.setPendingDelete row run.now)

/-- `sweep_soft`. -/
def sweepSoft (run : GcRun) (runId : String) (progress : Progress) : Progress × Option GcError :=
  if run.fails .iterUnmarkedCandidates then (progress, some (.backend .iterUnmarkedCandidates))
  else each run.softTurn progress
    (progress.store.assets.iterUnmarkedCandidates run.softOrder runId)

/-- The end of a row of `sweep_hard`: the object is deleted, then the row. -/
def deleteTurn (run : GcRun) (state : Progress × Nat) (row : AssetRecord) :
    Flow (Progress × Nat) GcError :=
  if run.fails (.delete row.hash) then .fail state (.backend (.delete row.hash))
  else
    let removed := state.1.deleteObject row
    if run.fails (.deleteReply row.hash) then
      .fail (removed, state.2) (.backend (.deleteReply row.hash))
    else if run.fails (.setDeleted row.hash) then
      .fail (removed, state.2) (.backend (.setDeleted row.hash))
    else .next ((removed.setDeleted row run.now).countDeleted, state.2 - 1)

/-- One row of `sweep_hard`; the number is `remaining`. -/
def hardTurn (cfg : GcConfig) (run : GcRun) (state : Progress × Nat) (row : AssetRecord) :
    Flow (Progress × Nat) GcError :=
  let (progress, remaining) := state
  if remaining = 0 then .stop state
  else if row.isAdminPinned then .next (progress.skipPinned, remaining)
  else if run.fails (.isPinnedAgain row.hash) then
    .fail state (.backend (.isPinnedAgain row.hash))
  else if run.pinned row.hash then .next (progress.skipPinned, remaining)
  else if cfg.requireHeadBeforeDelete then
    if run.fails (.head row.hash) then .fail state (.backend (.head row.hash))
    else if row.object ∉ progress.store.objects then
      if run.fails (.setDeleted row.hash) then .fail state (.backend (.setDeleted row.hash))
      else .next (progress.setDeleted row run.now, remaining)
    else run.deleteTurn state row
  else run.deleteTurn state row

/-- `sweep_hard`. -/
def sweepHard (cfg : GcConfig) (run : GcRun) (progress : Progress) : Progress × Option GcError :=
  match checkedSub run.now cfg.graceWindow with
  | none => (progress, some (.invariant "failed to compute grace cutoff"))
  | some cutoff =>
    if run.fails .iterPendingOlderThan then (progress, some (.backend .iterPendingOlderThan))
    else
      let (final, failure) := each (run.hardTurn cfg) (progress, cfg.maxDeletesPerRun)
        (progress.store.assets.iterPendingOlderThan run.hardOrder cutoff)
      (final.1, failure)

/-- An empty live set needs no transaction, so its batch cannot fail. -/
def batchFails (run : GcRun) : Bool := !run.live.isEmpty && run.fails .upsertActiveSeenBatch

def mark (cfg : GcConfig) (run : GcRun) (runId : String) (store : GcStore) : Progress :=
  let assets := store.assets.upsertActiveSeenBatch cfg.keyScheme runId run.live
    (toUnixMillis run.now)
  { Progress.start { store with assets } with delta := ⟨run.live.length, 0, 0, 0⟩ }

def applyDelta (run : GcRun) (progress : Progress) : Progress × Option GcError :=
  if run.fails .applyDelta then (progress, some (.backend .applyDelta)) else (progress, none)

/-- `run_inner`. -/
def runInner (cfg : GcConfig) (run : GcRun) (runId : String) (store : GcStore) :
    Progress × Option GcError :=
  if run.fails .collectLiveHashes then
    (Progress.start store, some (.backend .collectLiveHashes))
  else if run.batchFails then (Progress.start store, some (.backend .upsertActiveSeenBatch))
  else
    let marked := run.mark cfg runId store
    if run.mode = .dryRun ∨ run.mode = .markOnly then run.applyDelta marked
    else
      match run.sweepSoft runId marked with
      | (soft, some failure) => (soft, some failure)
      | (soft, none) =>
        if run.mode = .sweepHard then
          match run.sweepHard cfg soft with
          | (hard, some failure) => (hard, some failure)
          | (hard, none) => run.applyDelta hard
        else run.applyDelta soft

/-- `run_once`; `finish_run` writes the ledger of runs only. -/
def runOnce (cfg : GcConfig) (run : GcRun) (store : GcStore) : Progress × Option GcError :=
  match run.runId with
  | none => (Progress.start store, some (.backend .startRun))
  | some runId => run.runInner cfg runId store

variable {cfg : GcConfig} {run : GcRun} {runId : String}

/-- `sweep_soft` from one state to another: a tombstone is an old one or one of
this sweep, and only unmarked rows are given one. -/
structure SoftSpec (run : GcRun) (runId : String) (before after : Progress) : Prop where
  tombstone : ∀ row ∈ after.store.assets.rows, row.state = .pendingDelete →
    row ∈ before.store.assets.rows ∨ ((∃ listed ∈ after.pended, listed.hash = row.hash) ∧
      row.pendingDeleteAt = some (toUnixMillis run.now))
  pended : ∀ row ∈ after.pended, row ∈ before.store.assets.rows ∧ AssetTable.Unmarked runId row
  objects : after.store.objects = before.store.objects
  removed : after.removed = before.removed

theorem SoftSpec.refl (none : progress.pended = []) : SoftSpec run runId progress progress where
  tombstone _ member _ := Or.inl member
  pended := by simp [none]
  objects := rfl
  removed := rfl

theorem SoftSpec.setPendingDelete (spec : SoftSpec run runId before progress)
    (listed : row ∈ before.store.assets.rows) (unmarked : AssetTable.Unmarked runId row) :
    SoftSpec run runId before (progress.setPendingDelete row run.now) where
  tombstone other member pending := by
    rcases mem_setPendingDelete.mp member with ⟨old, -⟩ | ⟨old, -, here, rfl⟩
    · rcases spec.tombstone other old pending with kept | ⟨⟨earlier, noted, same⟩, stamp⟩
      · exact Or.inl kept
      · exact Or.inr ⟨⟨earlier, mem_append_left _ noted, same⟩, stamp⟩
    · refine Or.inr ⟨⟨row, ?_, here.symm⟩, rfl⟩
      exact mem_append_right _ (mem_singleton_self row)
  pended other member := by
    rcases mem_append.mp member with earlier | single
    · exact spec.pended other earlier
    · rw [mem_singleton.mp single]
      exact ⟨listed, unmarked⟩
  objects := spec.objects
  removed := spec.removed

/-- Counting a pinned row changes nothing that a sweep is about. -/
theorem SoftSpec.skipPinned (spec : SoftSpec run runId before progress) :
    SoftSpec run runId before progress.skipPinned :=
  ⟨spec.tombstone, spec.pended, spec.objects, spec.removed⟩

theorem sweepSoft_spec (none : progress.pended = []) :
    SoftSpec run runId progress (run.sweepSoft runId progress).1 := by
  unfold sweepSoft
  split
  · exact SoftSpec.refl none
  · apply each_invariant (fun _ spec => spec) _ (SoftSpec.refl none)
    intro row listed middle spec
    rw [iterUnmarkedCandidates, (Listing.perm _ _).mem_iff, mem_filter, decide_eq_true_iff] at listed
    obtain ⟨member, unmarked⟩ := listed
    unfold softTurn
    split
    · exact spec
    split
    · exact spec.skipPinned
    split
    · exact spec
    split
    · exact spec.skipPinned
    split
    · exact spec
    · exact spec.setPendingDelete member unmarked

/-- `sweep_hard` from one state to another: it deletes objects of aged
tombstones that are not pinned, and makes no tombstone. -/
structure HardSpec (cfg : GcConfig) (run : GcRun) (cutoff : SystemTime) (before after : Progress) :
    Prop where
  tombstone : ∀ row ∈ after.store.assets.rows, row.state = .pendingDelete →
    row ∈ before.store.assets.rows
  removed : ∀ row ∈ after.removed, row ∈ before.store.assets.rows ∧
    AssetTable.PendingOlderThan (toUnixMillis cutoff) row ∧
    row.isAdminPinned = false ∧ run.pinned row.hash = false
  bounded : after.removed.length ≤ cfg.maxDeletesPerRun
  objects : ∀ object ∈ before.store.objects, object ∈ after.store.objects ∨
    ∃ row ∈ after.removed, row.object = object
  pended : after.pended = before.pended

/-- The same in the middle of the loop, where `remaining` deletes are left. -/
def HardTurns (cfg : GcConfig) (run : GcRun) (cutoff : SystemTime) (before : Progress)
    (state : Progress × Nat) : Prop :=
  HardSpec cfg run cutoff before state.1 ∧ state.1.removed.length + state.2 ≤ cfg.maxDeletesPerRun

variable {cutoff : SystemTime}

theorem HardSpec.refl (none : progress.removed = []) : HardSpec cfg run cutoff progress progress where
  tombstone _ member _ := member
  removed := by simp [none]
  bounded := by simp [none]
  objects _ member := Or.inl member
  pended := rfl

theorem HardSpec.setDeleted (spec : HardSpec cfg run cutoff before progress) :
    HardSpec cfg run cutoff before (progress.setDeleted row run.now) where
  tombstone other member pending := by
    rcases mem_setDeleted.mp member with ⟨old, -⟩ | ⟨old, -, -, rfl⟩
    · exact spec.tombstone other old pending
    · cases pending
  removed := spec.removed
  bounded := spec.bounded
  objects := spec.objects
  pended := spec.pended

section
variable (turns : HardTurns cfg run cutoff before state)
include turns

theorem HardTurns.deleteObject (more : state.2 ≠ 0) (listed : row ∈ before.store.assets.rows)
    (aged : AssetTable.PendingOlderThan (toUnixMillis cutoff) row)
    (free : row.isAdminPinned = false ∧ run.pinned row.hash = false) :
    HardTurns cfg run cutoff before (state.1.deleteObject row, state.2 - 1) := by
  obtain ⟨spec, count⟩ := turns
  have length : (state.1.deleteObject row).removed.length = state.1.removed.length + 1 := by
    simp [Progress.deleteObject]
  have left : (state.1.deleteObject row).removed.length + (state.2 - 1) ≤ cfg.maxDeletesPerRun := by
    omega
  refine ⟨⟨spec.tombstone, ?_, (Nat.le_add_right _ _).trans left, ?_, spec.pended⟩, left⟩
  · intro other member
    rcases mem_append.mp member with earlier | single
    · exact spec.removed other earlier
    · rw [mem_singleton.mp single]
      exact ⟨listed, aged, free⟩
  · intro object present
    rcases spec.objects object present with kept | ⟨gone, noted, same⟩
    · by_cases here : object = row.object
      · refine Or.inr ⟨row, ?_, here.symm⟩
        exact mem_append_right _ (mem_singleton_self row)
      · exact Or.inl (Finset.mem_erase.mpr ⟨here, kept⟩)
    · exact Or.inr ⟨gone, mem_append_left _ noted, same⟩

theorem HardTurns.deleteTurn (more : state.2 ≠ 0) (listed : row ∈ before.store.assets.rows)
    (aged : AssetTable.PendingOlderThan (toUnixMillis cutoff) row)
    (free : row.isAdminPinned = false ∧ run.pinned row.hash = false) :
    (run.deleteTurn state row).Keeps (HardTurns cfg run cutoff before)
      fun state => HardSpec cfg run cutoff before state.1 := by
  have deleted := turns.deleteObject more listed aged free
  unfold GcRun.deleteTurn
  split
  · exact turns.1
  split
  · exact deleted.1
  split
  · exact deleted.1
  · exact ⟨⟨deleted.1.setDeleted.tombstone, deleted.1.removed, deleted.1.bounded,
      deleted.1.objects, deleted.1.pended⟩, deleted.2⟩

theorem HardTurns.hardTurn (listed : row ∈ before.store.assets.rows)
    (aged : AssetTable.PendingOlderThan (toUnixMillis cutoff) row) :
    (run.hardTurn cfg state row).Keeps (HardTurns cfg run cutoff before)
      fun state => HardSpec cfg run cutoff before state.1 := by
  have skipped : HardTurns cfg run cutoff before (state.1.skipPinned, state.2) :=
    ⟨⟨turns.1.tombstone, turns.1.removed, turns.1.bounded, turns.1.objects, turns.1.pended⟩, turns.2⟩
  unfold GcRun.hardTurn
  dsimp only
  split
  · exact turns.1
  rename_i more
  split
  · exact skipped
  rename_i unpinned
  split
  · exact turns.1
  split
  · exact skipped
  rename_i free
  have delete := turns.deleteTurn more listed aged ⟨by simpa using unpinned, by simpa using free⟩
  split
  · split
    · exact turns.1
    split
    · split
      · exact turns.1
      · exact ⟨turns.1.setDeleted, turns.2⟩
    · exact delete
  · exact delete

end

theorem sweepHard_spec (none : progress.removed = [])
    (sub : checkedSub run.now cfg.graceWindow = some cutoff) :
    HardSpec cfg run cutoff progress (run.sweepHard cfg progress).1 := by
  unfold sweepHard
  rw [sub]
  dsimp only
  split
  · exact HardSpec.refl none
  · have start : HardTurns cfg run cutoff progress (progress, cfg.maxDeletesPerRun) :=
      ⟨HardSpec.refl none, by simp [none]⟩
    apply @each_invariant _ _ _ _ _ _ (fun state => HardSpec cfg run cutoff progress state.1) _
      (fun _ turns => turns.1) _ start
    intro row listed state turns
    obtain ⟨member, aged⟩ := mem_iterPendingOlderThan.mp listed
    exact turns.hardTurn member aged

/-- The run names the hash: it collected a live set with it and marked the set. -/
def Marks (run : GcRun) (hash : String) : Prop :=
  run.runId.isSome ∧ run.fails .collectLiveHashes = false ∧ run.batchFails = false ∧ hash ∈ run.live

/-- The tombstone is one of the store that the run does not name, or one of the run. -/
def Tombstone (run : GcRun) (store : GcStore) (after : Progress) (row : AssetRecord) : Prop :=
  (row ∈ store.assets.rows ∧ ¬ run.Marks row.hash) ∨
    ((∃ listed ∈ after.pended, listed.hash = row.hash) ∧
      row.pendingDeleteAt = some (toUnixMillis run.now))

/-- A whole run. -/
structure RunSpec (cfg : GcConfig) (run : GcRun) (store : GcStore) (after : Progress) : Prop where
  tombstone : ∀ row ∈ after.store.assets.rows, row.state = .pendingDelete →
    run.Tombstone store after row
  removed : ∀ row ∈ after.removed, run.Tombstone store after row ∧ row.state = .pendingDelete ∧
    row.hash ∉ run.live ∧ row.isAdminPinned = false ∧ run.pinned row.hash = false ∧
    ∃ cutoff, checkedSub run.now cfg.graceWindow = some cutoff ∧
      ∃ stamp ∈ row.pendingDeleteAt, stamp ≤ toUnixMillis cutoff
  bounded : after.removed.length ≤ cfg.maxDeletesPerRun
  objects : ∀ object ∈ store.objects, object ∈ after.store.objects ∨
    ∃ row ∈ after.removed, row.object = object

/-- A run that fails before it has marked the live set. -/
theorem RunSpec.idle (unmarked : ∀ hash, ¬ run.Marks hash) :
    RunSpec cfg run store (Progress.start store) where
  tombstone row member _ := Or.inl ⟨member, unmarked row.hash⟩
  removed := by simp [Progress.start]
  bounded := by simp [Progress.start]
  objects _ member := Or.inl member

/-- The mark phase leaves no tombstone of a live hash. -/
theorem mark_tombstone (member : row ∈ (run.mark cfg runId store).store.assets.rows)
    (unmarked : row.state = .pendingDelete ∨ AssetTable.Unmarked runId row) :
    row ∈ store.assets.rows ∧ row.hash ∉ run.live := by
  rcases mem_upsertActiveSeenBatch member with kept | ⟨-, active, byRun⟩
  · exact kept
  · rcases unmarked with pending | ⟨-, other⟩
    · rw [active] at pending
      cases pending
    · exact absurd byRun other

theorem RunSpec.mark : RunSpec cfg run store (run.mark cfg runId store) where
  tombstone row member pending := by
    obtain ⟨old, unnamed⟩ := mark_tombstone member (Or.inl pending)
    exact Or.inl ⟨old, fun marks => unnamed marks.2.2.2⟩
  removed := by simp [GcRun.mark, Progress.start]
  bounded := by simp [GcRun.mark, Progress.start]
  objects _ member := Or.inl member

section
variable (spec : SoftSpec run runId (run.mark cfg runId store) soft)
include spec

/-- After the soft sweep every tombstone is of a hash that is not live. -/
theorem SoftSpec.not_live (member : row ∈ soft.store.assets.rows)
    (pending : row.state = .pendingDelete) :
    run.Tombstone store soft row ∧ row.hash ∉ run.live := by
  rcases spec.tombstone row member pending with kept | ⟨⟨listed, noted, same⟩, stamp⟩
  · obtain ⟨old, unnamed⟩ := mark_tombstone kept (Or.inl pending)
    exact ⟨Or.inl ⟨old, fun marks => unnamed marks.2.2.2⟩, unnamed⟩
  · obtain ⟨old, unmarked⟩ := spec.pended listed noted
    obtain ⟨-, unnamed⟩ := mark_tombstone old (Or.inr unmarked)
    exact ⟨Or.inr ⟨⟨listed, noted, same⟩, stamp⟩, same ▸ unnamed⟩

theorem SoftSpec.wholeRun : RunSpec cfg run store soft where
  tombstone row member pending := (spec.not_live member pending).1
  removed := by simp [spec.removed, GcRun.mark, Progress.start]
  bounded := by simp [spec.removed, GcRun.mark, Progress.start]
  objects object member := Or.inl (spec.objects ▸ member)

end

theorem HardSpec.wholeRun (early : SoftSpec run runId (run.mark cfg runId store) soft)
    (sub : checkedSub run.now cfg.graceWindow = some cutoff)
    (spec : HardSpec cfg run cutoff soft hard) : RunSpec cfg run store hard where
  tombstone row member pending := by
    have origin := (early.not_live (spec.tombstone row member pending) pending).1
    rwa [Tombstone, ← spec.pended] at origin
  removed row gone := by
    obtain ⟨listed, ⟨pending, aged⟩, unpinned, free⟩ := spec.removed row gone
    obtain ⟨origin, unnamed⟩ := early.not_live listed pending
    rw [Tombstone, ← spec.pended] at origin
    exact ⟨origin, pending, unnamed, unpinned, free, cutoff, sub, aged⟩
  bounded := spec.bounded
  objects object member := spec.objects object (early.objects ▸ member)

theorem applyDelta_fst : (run.applyDelta progress).1 = progress := by
  unfold applyDelta
  split <;> rfl

/-- The rest of a run of mode `SweepHard`. -/
theorem sweepHard_run (early : SoftSpec run runId (run.mark cfg runId store) soft) :
    RunSpec cfg run store (match run.sweepHard cfg soft with
      | (hard, some failure) => (hard, some failure)
      | (hard, none) => run.applyDelta hard).1 := by
  have spec : RunSpec cfg run store (run.sweepHard cfg soft).1 := by
    cases sub : checkedSub run.now cfg.graceWindow with
    | none =>
      unfold sweepHard
      rw [sub]
      exact early.wholeRun
    | some cutoff => exact (sweepHard_spec early.removed sub).wholeRun early sub
  rcases outcome : run.sweepHard cfg soft with ⟨hard, _ | failure⟩
  · rw [outcome] at spec
    rw [applyDelta_fst]
    exact spec
  · rw [outcome] at spec
    exact spec

theorem runInner_spec : RunSpec cfg run store (run.runInner cfg runId store).1 := by
  unfold runInner
  split
  · rename_i failed
    exact RunSpec.idle fun _ marks => by simp [marks.2.1] at failed
  split
  · rename_i failed
    exact RunSpec.idle fun _ marks => by simp [marks.2.2.1] at failed
  dsimp only
  split
  · rw [applyDelta_fst]
    exact RunSpec.mark
  have spec := @sweepSoft_spec run runId (run.mark cfg runId store) rfl
  rcases outcome : run.sweepSoft runId (run.mark cfg runId store) with ⟨soft, _ | failure⟩
  · rw [outcome] at spec
    dsimp only
    split
    · exact sweepHard_run spec
    · rw [applyDelta_fst]
      exact spec.wholeRun
  · rw [outcome] at spec
    exact spec.wholeRun

theorem runOnce_spec : RunSpec cfg run store (run.runOnce cfg store).1 := by
  unfold runOnce
  split
  · rename_i failed
    exact RunSpec.idle fun _ marks => by simp [Marks, failed] at marks
  · exact runInner_spec

/-- A run without a marked live set does nothing. -/
theorem runOnce_unmarked (failed : run.fails .collectLiveHashes = true ∨ run.batchFails = true) :
    (run.runOnce cfg store).1 = Progress.start store := by
  unfold runOnce
  split
  · rfl
  · unfold runInner
    split
    · rfl
    · rename_i collected
      rw [if_pos (failed.resolve_left collected)]

end GcRun

end NodalMerge
