import NodalMerge.Gc.Coordinator

namespace NodalMerge

/-- `UPLOAD_MARK_SENTINEL`. -/
def uploadMarkSentinel : String := "upload"

/-- What happens to the inventory, one after the other. -/
inductive GcEvent where
  | uploaded (hash : String) (now : SystemTime)
  | ran (run : GcRun)

namespace GcEvent

/-- An upload writes the object and then its row. -/
def apply (cfg : GcConfig) (store : GcStore) : GcEvent → GcStore
  | .uploaded hash now =>
    { assets := store.assets.upsertActiveSeen (cfg.keyScheme hash) uploadMarkSentinel hash
        (toUnixMillis now)
      objects := insert (cfg.keyScheme hash) store.objects }
  | .ran run => (run.runOnce cfg store).1.store

/-- An upload of the hash, or a run that has marked it as live. -/
def Marks (hash : String) : GcEvent → Prop
  | .uploaded other _ => other = hash
  | .ran run => run.Marks hash

/-- The same, where it is enough that a run has collected the hash. -/
def Collects (hash : String) : GcEvent → Prop
  | .uploaded other _ => other = hash
  | .ran run => run.runId.isSome ∧ run.fails .collectLiveHashes = false ∧ hash ∈ run.live

end GcEvent

namespace GcStore

def afterEvents (cfg : GcConfig) (start : GcStore) (events : List GcEvent) : GcStore :=
  events.foldl (GcEvent.apply cfg) start

/-- A soft sweep has made a tombstone of the hash, and no later event names it. -/
def TombstoneOf (names : String → GcEvent → Prop) (cfg : GcConfig) (start : GcStore)
    (events : List GcEvent) (hash : String) (sweep : GcRun) : Prop :=
  ∃ before later, events = before ++ .ran sweep :: later ∧
    (∃ row ∈ (sweep.runOnce cfg (start.afterEvents cfg before)).1.pended, row.hash = hash) ∧
    ∀ event ∈ later, ¬ names hash event

variable {start : GcStore} {hash : String} {sweep : GcRun}

theorem afterEvents_concat :
    start.afterEvents cfg (events ++ [event]) = event.apply cfg (start.afterEvents cfg events) := by
  simp [afterEvents]

theorem TombstoneOf.concat (tomb : TombstoneOf GcEvent.Marks cfg start events hash sweep)
    (unnamed : ¬ event.Marks hash) :
    TombstoneOf GcEvent.Marks cfg start (events ++ [event]) hash sweep := by
  obtain ⟨before, later, rfl, moved, silent⟩ := tomb
  refine ⟨before, later ++ [event], by simp, moved, fun other member => ?_⟩
  rcases List.mem_append.mp member with early | single
  · exact silent other early
  · rw [List.mem_singleton.mp single]
    exact unnamed

/-- Every tombstone of the table comes from a sweep, and carries its time. -/
def Accounted (cfg : GcConfig) (start : GcStore) (events : List GcEvent) : Prop :=
  ∀ row ∈ (start.afterEvents cfg events).assets.rows, row.state = .pendingDelete →
    ∃ sweep, TombstoneOf GcEvent.Marks cfg start events row.hash sweep ∧
      row.pendingDeleteAt = some (toUnixMillis sweep.now)

theorem Accounted.tombstone (accounted : Accounted cfg start events)
    (pending : row.state = .pendingDelete) (origin : run.Tombstone (start.afterEvents cfg events)
      (run.runOnce cfg (start.afterEvents cfg events)).1 row) :
    ∃ sweep, TombstoneOf GcEvent.Marks cfg start (events ++ [.ran run]) row.hash sweep ∧
      row.pendingDeleteAt = some (toUnixMillis sweep.now) := by
  rcases origin with ⟨old, unnamed⟩ | ⟨moved, stamp⟩
  · obtain ⟨sweep, tomb, stamp⟩ := accounted row old pending
    exact ⟨sweep, tomb.concat unnamed, stamp⟩
  · exact ⟨run, ⟨events, [], rfl, moved, by simp⟩, stamp⟩

theorem Accounted.concat (accounted : Accounted cfg start events) :
    Accounted cfg start (events ++ [event]) := by
  intro row member pending
  rw [afterEvents_concat] at member
  cases event with
  | uploaded other now =>
    rcases AssetTable.mem_upsertActiveSeen member with ⟨old, apart⟩ | ⟨-, active, -⟩
    · obtain ⟨sweep, tomb, stamp⟩ := accounted row old pending
      exact ⟨sweep, tomb.concat fun named => apart named.symm, stamp⟩
    · rw [active] at pending
      cases pending
  | ran run =>
    exact accounted.tombstone pending (GcRun.runOnce_spec.tombstone row member pending)

/-- No row of the store is a tombstone. -/
def WithoutTombstones (store : GcStore) : Prop :=
  ∀ row ∈ store.assets.rows, row.state ≠ .pendingDelete

theorem accounted_of_start (clean : start.WithoutTombstones) (events : List GcEvent) :
    Accounted cfg start events := by
  induction events using List.reverseRecOn with
  | nil => exact fun row member pending => absurd pending (clean row member)
  | append_singleton events event ih => exact ih.concat

end GcStore

open GcStore

/-- The deletes of one run are safe: each deleted object has been a tombstone for
the grace window, `names` tells which events put an end to a tombstone. -/
def GcRun.DeletesSafely (names : String → GcEvent → Prop) (cfg : GcConfig) (start : GcStore)
    (events : List GcEvent) (run : GcRun) : Prop :=
  ∀ row ∈ (run.runOnce cfg (start.afterEvents cfg events)).1.removed,
    row.hash ∉ run.live ∧ row.isAdminPinned = false ∧ run.pinned row.hash = false ∧
    ∃ sweep, TombstoneOf names cfg start (events ++ [.ran run]) row.hash sweep ∧
      millis sweep.now ≤ millis (run.now - cfg.graceWindow)

theorem staged_deletes_are_safe (cfg : GcConfig) (start : GcStore) (clean : start.WithoutTombstones)
    (events : List GcEvent) (run : GcRun)
    (times : ∀ other, .ran other ∈ events ++ [.ran run] → FitsMillis other.now)
    (cutoffTime : FitsMillis (run.now - cfg.graceWindow)) :
    run.DeletesSafely GcEvent.Marks cfg start events ∧
    (∀ object ∈ (start.afterEvents cfg events).objects,
      object ∈ (start.afterEvents cfg (events ++ [.ran run])).objects ∨
        ∃ row ∈ (run.runOnce cfg (start.afterEvents cfg events)).1.removed, row.object = object) ∧
    (run.runOnce cfg (start.afterEvents cfg events)).1.removed.length ≤ cfg.maxDeletesPerRun ∧
    (run.fails .collectLiveHashes = true ∨ run.batchFails = true →
      (run.runOnce cfg (start.afterEvents cfg events)).1.removed = [] ∧
        (run.runOnce cfg (start.afterEvents cfg events)).1.pended = []) := by
  have spec := @GcRun.runOnce_spec cfg run (start.afterEvents cfg events)
  refine ⟨fun row gone => ?_, ?_, spec.bounded, fun failed => ?_⟩
  · obtain ⟨origin, pending, unnamed, unpinned, free, cutoff, sub, stamp, stamped, aged⟩ :=
      spec.removed row gone
    obtain ⟨sweep, tomb, moved⟩ := (accounted_of_start clean events).tombstone pending origin
    refine ⟨unnamed, unpinned, free, sweep, tomb, ?_⟩
    obtain ⟨before, later, split, -, -⟩ := tomb
    have known : FitsMillis sweep.now := times sweep (by simp [split])
    have exact : cutoff = run.now - cfg.graceWindow := by
      unfold checkedSub at sub
      split at sub
      · exact (Option.some.inj sub).symm
      · cases sub
    rw [moved, Option.mem_def, Option.some.injEq] at stamped
    rwa [← stamped, exact, toUnixMillis_eq known, toUnixMillis_eq cutoffTime] at aged
  · rw [afterEvents_concat]
    exact spec.objects
  · rw [GcRun.runOnce_unmarked failed]
    exact ⟨rfl, rfl⟩

/-- A run without pins in which no call fails. -/
def GcRun.quiet (mode : GcRunMode) (now : SystemTime) (runId : String) (live : List String) :
    GcRun where
  mode
  now
  runId := some runId
  live
  pinned _ := false
  fails _ := false
  softOrder := .asStored
  hardOrder := .asStored

/-- A grace window of five milliseconds. -/
def GcConfig.brief : GcConfig := { GcConfig.default with graceWindow := 5000000 }

def softAtZero : GcRun := .quiet .sweepSoft 0 "gc-0-0" []

def hardAtTen : GcRun := .quiet .sweepHard 10000000 "gc-a-2" []

theorem expired_tombstone_is_deleted :
    (hardAtTen.runOnce .brief (GcStore.empty.afterEvents .brief
      [.uploaded "a" 0, .ran softAtZero])).1.removed.map AssetRecord.hash = ["a"] ∧
    hardAtTen.DeletesSafely GcEvent.Marks .brief .empty [.uploaded "a" 0, .ran softAtZero] := by
  refine ⟨by decide, ?_⟩
  have clean : GcStore.empty.WithoutTombstones := fun _ member => by cases member
  refine (staged_deletes_are_safe .brief .empty clean _ hardAtTen ?_ (by decide)).1
  intro other member
  have two : other = softAtZero ∨ other = hardAtTen := by simpa using member
  rcases two with rfl | rfl <;> decide

/-- The live set has the hash, but the transaction that marks it is rolled back. -/
def unmarkedAtOne : GcRun :=
  { GcRun.quiet .markOnly 1000000 "gc-1-1" ["a"] with
    fails call := call = .upsertActiveSeenBatch }

/-- The first instant whose milliseconds do not fit in an `i64`. -/
def hardAfterWrap : GcRun := .quiet .sweepHard (2 ^ 63 * 1000000) "gc-0-0" []

/-- The sweep that moved a hash is one of the events, where it stands. -/
theorem GcStore.TombstoneOf.cases {hash : String}
    (tomb : TombstoneOf names cfg start (first :: rest) hash sweep) :
    (first = .ran sweep ∧ (∃ row ∈ (sweep.runOnce cfg start).1.pended, row.hash = hash) ∧
      ∀ event ∈ rest, ¬ names hash event) ∨
    TombstoneOf names cfg (first.apply cfg start) rest hash sweep := by
  obtain ⟨before, later, split, moved, silent⟩ := tomb
  cases before with
  | nil =>
    obtain ⟨rfl, rfl⟩ := List.cons.inj split
    exact Or.inl ⟨rfl, moved, silent⟩
  | cons head before =>
    obtain ⟨rfl, rfl⟩ := List.cons.inj split
    exact Or.inr ⟨before, later, rfl, moved, silent⟩

theorem unmarked_or_wrapped_tombstone_is_deleted :
    ¬ hardAtTen.DeletesSafely GcEvent.Collects .brief .empty
      [.uploaded "a" 0, .ran softAtZero, .ran unmarkedAtOne] ∧
    ¬ hardAfterWrap.DeletesSafely GcEvent.Collects .brief .empty [.uploaded "a" 0] := by
  constructor
  · intro safe
    obtain ⟨row, gone, here⟩ : ∃ row ∈ (hardAtTen.runOnce .brief (GcStore.empty.afterEvents .brief
        [.uploaded "a" 0, .ran softAtZero, .ran unmarkedAtOne])).1.removed, row.hash = "a" := by
      decide
    obtain ⟨-, -, -, sweep, tomb, -⟩ := safe row gone
    rw [here] at tomb
    obtain ⟨impossible, -⟩ | tomb := tomb.cases
    · cases impossible
    -- The soft sweep is followed by the run that collects the hash; the later runs move nothing.
    obtain ⟨-, -, silent⟩ | tomb := tomb.cases
    · exact silent (.ran unmarkedAtOne) (by simp) ⟨rfl, rfl, by decide⟩
    obtain ⟨second, moved, -⟩ | tomb := tomb.cases
    · obtain rfl := GcEvent.ran.inj second
      revert moved
      decide
    obtain ⟨third, moved, -⟩ | ⟨before, later, split, -⟩ := tomb.cases
    · obtain rfl := GcEvent.ran.inj third
      revert moved
      decide
    · simp at split
  · intro safe
    obtain ⟨row, gone, here⟩ : ∃ row ∈ (hardAfterWrap.runOnce .brief (GcStore.empty.afterEvents .brief
        [.uploaded "a" 0])).1.removed, row.hash = "a" := by
      decide
    obtain ⟨-, -, -, sweep, tomb, old⟩ := safe row gone
    obtain ⟨impossible, -⟩ | tomb := tomb.cases
    · cases impossible
    obtain ⟨only, -, -⟩ | ⟨before, later, split, -⟩ := tomb.cases
    · obtain rfl := GcEvent.ran.inj only
      revert old
      decide
    · simp at split

end NodalMerge
