import NodalMerge.Gc.BlobSweep
import NodalMerge.Library.Machine

namespace NodalMerge

open BlobDir Function List Machine TwoPhase
open SweepOp (effect look)
open BlobDir (stampAfter persistBlob slot)

/-- A store with writes and sweeps of blobs. -/
structure SweptStore (Store Call : Type) where
  has : Store → Hash → Bool
  write : Hash → BlobEncoding → Store → Store
  perform : Store → Hash × SweepOp → Store
  trace : Int → Call → Store → SweepTrace
  live : Call → Finset Hash
  now : Call → Int

inductive StoreEvent (Call : Type) where
  | write (hash : Hash) (encoding : BlobEncoding) (time : Int)
  | sweep (call : Call)

/-- The store, with what has been seen of each blob since it was last written. -/
structure Chronicle (Store : Type) where
  store : Store
  history : Hash → History
  clock : Int

/-- The history of a hash after operations of a sweep on it. -/
def historyAfter (live : Bool) (now : Int) (ops : List SweepOp) (history : History) : History :=
  if ops = [] ∨ live then history else history.look now (decide (ops ≠ [.look]))

namespace SweptStore

variable {Store Call : Type} (backend : SweptStore Store Call) (grace : Int)

def sweep (call : Call) (store : Store) : Store :=
  (backend.trace grace call store).foldl backend.perform store

/-- The clock never goes back. -/
def step (chronicle : Chronicle Store) : StoreEvent Call → Option (Chronicle Store)
  | .write hash encoding time =>
    if chronicle.clock ≤ time then some
      { store := backend.write hash encoding chronicle.store
        history := update chronicle.history hash
          ((chronicle.history hash).restart time (backend.has chronicle.store hash))
        clock := time }
    else none
  | .sweep call =>
    if chronicle.clock ≤ backend.now call then some
      { store := backend.sweep grace call chronicle.store
        history hash := historyAfter (decide (hash ∈ backend.live call)) (backend.now call)
          (opsOn hash (backend.trace grace call chronicle.store)) (chronicle.history hash)
        clock := backend.now call }
    else none

/-- The store keeps a slot for every hash, each sweep follows the plan of the slot. -/
structure Follows (slot : Store → Hash → Slot) (Inv : Store → Prop) : Prop where
  has : ∀ store hash, backend.has store hash = (slot store hash).present
  write : ∀ store hash encoding, Inv store → Inv (backend.write hash encoding store) ∧
    ∀ other, slot (backend.write hash encoding store) other =
      if other = hash then { slot store hash with present := true } else slot store other
  kept : ∀ store call, Inv store → Inv (backend.sweep grace call store)
  absent : ∀ store call hash, Inv store → (slot store hash).present = false →
    opsOn hash (backend.trace grace call store) = []
  plan : ∀ store call hash, Inv store → (slot store hash).present = true →
    ∃ concrete : TwoPhase.Op → SweepOp, (∀ op, (concrete op).effect = some op) ∧
      opsOn hash (backend.trace grace call store) <+: .look ::
        ((slot store hash).plan grace (backend.now call) (decide (hash ∈ backend.live call))).map
          concrete
  swept : ∀ store call hash, Inv store → slot (backend.sweep grace call store) hash =
    ((opsOn hash (backend.trace grace call store)).filterMap effect).foldl Slot.apply
      (slot store hash)
  reaches : ∀ store live now hash, Inv store → (slot store hash).present = true →
    .remove ∈ (slot store hash).plan grace now (decide (hash ∈ live)) →
    ∃ call, backend.live call = live ∧ backend.now call = now ∧
      ∃ encoding, (hash, .remove encoding) ∈ backend.trace grace call store

variable {backend grace} {slot : Store → Hash → Slot} {Inv : Store → Prop}

/-- One slot under a sweep that follows its plan for a while. -/
theorem exists_visit (history : History) {now : Int} {live : Bool}
    (faithful : ∀ op, (concrete op).effect = some op) (looked : ops ≠ [])
    (cut : ops <+: .look :: (before.plan grace now live).map concrete) :
    ∃ count, (⟨(ops.filterMap effect).foldl Slot.apply before,
      historyAfter live now ops history⟩ : Track) =
        Track.visit grace now live count ⟨before, history⟩ := by
  cases ops with
  | nil => exact absurd rfl looked
  | cons first rest =>
    obtain ⟨rfl, later⟩ := cons_prefix_cons.mp cut
    have taken := prefix_iff_eq_take.mp later
    rw [← map_take] at taken
    generalize rest.length = count at taken
    subst taken
    refine ⟨count, ?_⟩
    have effects : (((before.plan grace now live).take count).map concrete).filterMap effect =
        (before.plan grace now live).take count := by
      have each : effect ∘ concrete = some := funext faithful
      rw [filterMap_map, each, filterMap_some]
    have acted : decide (look :: ((before.plan grace now live).take count).map concrete ≠
        [.look]) = !((before.plan grace now live).take count).isEmpty := by
      cases (before.plan grace now live).take count <;> simp
    rw [filterMap_cons_none rfl, effects, historyAfter, Track.visit, acted]
    simp

/-- What holds along every run: the slots are sound at the time of the clock. -/
structure Consistent (grace : Int) (slot : Store → Hash → Slot) (Inv : Store → Prop)
    (chronicle : Chronicle Store) : Prop where
  inv : Inv chronicle.store
  sound : ∀ hash, Track.Sound grace chronicle.clock
    ⟨slot chronicle.store hash, chronicle.history hash⟩

variable {chronicle final : Chronicle Store}

section
variable (follows : backend.Follows grace slot Inv)
include follows

theorem Follows.consistent_write (positive : 0 < grace)
    (consistent : Consistent grace slot Inv chronicle) {hash : Hash}
    (passed : chronicle.clock ≤ time) :
    Consistent grace slot Inv
      { store := backend.write hash encoding chronicle.store
        history := update chronicle.history hash
          ((chronicle.history hash).restart time (backend.has chronicle.store hash))
        clock := time } := by
  obtain ⟨kept, written⟩ := follows.write chronicle.store hash encoding consistent.inv
  refine ⟨kept, fun other => ?_⟩
  dsimp only
  rw [written, follows.has]
  by_cases here : other = hash
  · subst here
    rw [if_pos rfl, update_self]
    exact (consistent.sound other).write passed positive
  · rw [if_neg here, update_of_ne here]
    exact (consistent.sound other).later passed

theorem Follows.consistent_sweep (consistent : Consistent grace slot Inv chronicle)
    (passed : chronicle.clock ≤ backend.now call) : Consistent grace slot Inv
      { store := backend.sweep grace call chronicle.store
        history hash := historyAfter (decide (hash ∈ backend.live call)) (backend.now call)
          (opsOn hash (backend.trace grace call chronicle.store)) (chronicle.history hash)
        clock := backend.now call } := by
  refine ⟨follows.kept chronicle.store call consistent.inv, fun hash => ?_⟩
  dsimp only
  rw [follows.swept chronicle.store call hash consistent.inv]
  by_cases none : opsOn hash (backend.trace grace call chronicle.store) = []
  · rw [none]
    exact (consistent.sound hash).later passed
  cases there : (slot chronicle.store hash).present with
  | false => exact absurd (follows.absent chronicle.store call hash consistent.inv there) none
  | true =>
    obtain ⟨concrete, faithful, cut⟩ := follows.plan chronicle.store call hash consistent.inv there
    obtain ⟨count, visited⟩ := exists_visit (chronicle.history hash) faithful none cut
    rw [visited]
    exact (consistent.sound hash).visit passed there

/-- Every run keeps the slots sound. -/
theorem Follows.consistent (positive : 0 < grace) (start : Consistent grace slot Inv chronicle)
    (ran : exec (backend.step grace) chronicle events = some final) :
    Consistent grace slot Inv final := by
  refine exec_invariant (fun middle event next stepped consistent => ?_) start ran
  cases event with
  | write hash encoding time =>
    obtain ⟨passed, result⟩ := Option.ite_none_right_eq_some.mp stepped
    cases result
    exact follows.consistent_write positive consistent passed
  | sweep call =>
    obtain ⟨passed, result⟩ := Option.ite_none_right_eq_some.mp stepped
    cases result
    exact follows.consistent_sweep consistent passed

end

/-- Whatever the sweep deletes has been seen as not live by an earlier sweep, since it
was written and at least the grace ago. -/
def Justified (backend : SweptStore Store Call) (grace : Int) (chronicle : Chronicle Store)
    (call : Call) : Prop :=
  ∀ hash encoding, (hash, .remove encoding) ∈ backend.trace grace call chronicle.store →
    ∃ time ∈ (chronicle.history hash).seen,
      (chronicle.history hash).since ≤ time ∧ time + grace ≤ backend.now call

/-- Blobs that are due have a tombstone that is not older than they are, or a sweep
at least the grace ago has seen them and was cut off before it did anything. -/
def Unspoiled (slot : Store → Hash → Slot) (grace : Int) (chronicle : Chronicle Store)
    (live : Finset Hash) (now : Int) : Prop :=
  ∀ hash, (slot chronicle.store hash).present = true → hash ∉ live →
    ∀ stamp ∈ (slot chronicle.store hash).stamp, stamp + grace ≤ now →
      (chronicle.history hash).since ≤ stamp ∨
        ∃ time ∈ (chronicle.history hash).idle, time + grace ≤ now

theorem remove_mem_plan {slot : Slot} {now : Int} {live : Bool} :
    .remove ∈ slot.plan grace now live ↔
      live = false ∧ ∃ stamp ∈ slot.stamp, stamp + grace ≤ now := by
  obtain ⟨present, stamp⟩ := slot
  unfold Slot.plan
  rcases live with _ | _ <;> rcases stamp with _ | stamp
  · simp
  · by_cases aged : stamp + grace ≤ now <;> simp [aged]
  · simp
  · simp

theorem Follows.justified_iff (follows : backend.Follows grace slot Inv)
    (consistent : Consistent grace slot Inv chronicle) (live : Finset Hash) (now : Int) :
    (∀ call, backend.live call = live → backend.now call = now →
      backend.Justified grace chronicle call) ↔ Unspoiled slot grace chronicle live now := by
  constructor
  · intro justified hash there unused stamp buried aged
    have planned : .remove ∈ (slot chronicle.store hash).plan grace now (decide (hash ∈ live)) :=
      remove_mem_plan.mpr ⟨by simpa using unused, stamp, buried, aged⟩
    obtain ⟨call, sameLive, sameNow, encoding, removed⟩ :=
      follows.reaches chronicle.store live now hash consistent.inv there planned
    have seen := justified call sameLive sameNow hash encoding removed
    rw [sameNow] at seen
    exact ((consistent.sound hash).seen_iff there buried aged).mp seen
  · intro unspoiled call sameLive sameNow hash encoding removed
    subst sameLive sameNow
    have done := mem_opsOn.mpr removed
    cases there : (slot chronicle.store hash).present with
    | false =>
      rw [follows.absent chronicle.store call hash consistent.inv there] at done
      cases done
    | true =>
      obtain ⟨concrete, faithful, cut⟩ := follows.plan chronicle.store call hash consistent.inv there
      obtain ⟨op, planned, same⟩ : ∃ op ∈ (slot chronicle.store hash).plan grace (backend.now call)
          (decide (hash ∈ backend.live call)), concrete op = .remove encoding := by
        simpa using cut.subset done
      obtain rfl : op = .remove := by
        have effect := faithful op
        rw [same] at effect
        exact (Option.some.inj effect).symm
      obtain ⟨unused, stamp, buried, aged⟩ := remove_mem_plan.mp planned
      refine ((consistent.sound hash).seen_iff there buried aged).mpr ?_
      exact unspoiled hash there (by simpa using unused) stamp buried aged

end SweptStore

theorem foldl_effects (ops : List SweepOp) (slot : Slot) :
    (ops.filterMap effect).foldl Slot.apply slot =
      ⟨slot.present && ops.all fun op => !op.isRemove, ops.foldl stampAfter slot.stamp⟩ := by
  induction ops generalizing slot with
  | nil => simp
  | cons op rest ih =>
    cases op with
    | look =>
      rw [filterMap_cons_none rfl, ih]
      rfl
    | bury time =>
      exact ih _
    | unbury stamp =>
      exact ih _
    | remove encoding =>
      refine (ih { slot with present := false }).trans ?_
      simp [SweepOp.isRemove, stampAfter]

def dirBackend : SweptStore BlobDir DirSweep where
  has dir hash := holdsBlob dir.entries hash
  write := persistBlob
  perform := BlobDir.perform
  trace := BlobDir.blobGcSweep
  live := DirSweep.live
  now := DirSweep.now

def bucketBackend : SweptStore Bucket BucketSweep where
  has bucket hash := holdsBlob bucket.objects hash
  write hash _ := Bucket.putBlob hash .identity
  perform := Bucket.perform
  trace := Bucket.blobGcSweep
  live := BucketSweep.live
  now := BucketSweep.now

theorem dir_follows (positive : 0 < grace) :
    dirBackend.Follows grace slot fun dir => SingleEncoding dir.entries where
  has _ _ := rfl
  write dir hash encoding single := by
    dsimp only [dirBackend, persistBlob]
    split
    · rename_i there
      refine ⟨single, fun other => ?_⟩
      split
      · rename_i here
        subst here
        unfold slot
        rw [there]
      · rfl
    · rename_i gone
      refine ⟨single.append (not_holdsBlob (by simpa using gone)), fun other => ?_⟩
      unfold slot
      rw [holdsBlob_append]
      split
      · rename_i here
        subst here
        rfl
      · rfl
  kept dir call single := by
    dsimp only [SweptStore.sweep, dirBackend]
    rw [(foldl_perform _ dir).1]
    exact single.foldl _
  absent dir call hash single gone := opsOn_blobGcSweep_absent (not_holdsBlob gone)
  plan dir call hash single there := by
    obtain ⟨encoding, member⟩ := holdsBlob_iff.mp there
    refine ⟨concreteOp encoding ((dir.tombstones hash).getD 0), concreteOp_effect _ _, ?_⟩
    have cut := @BlobDir.opsOn_blobGcSweep grace dir hash encoding call single member
    rwa [turnOps_plan positive _ _ (holdsBlob dir.entries hash)] at cut
  swept dir call hash single := by
    dsimp only [SweptStore.sweep, dirBackend]
    rw [foldl_effects]
    unfold slot
    rw [(foldl_perform _ dir).2, (foldl_perform _ dir).1,
      holdsBlob_foldl single fun encoding removed => single.mem_of_dirSweep removed]
  reaches dir live now hash single there planned := by
    obtain ⟨encoding, member⟩ := holdsBlob_iff.mp there
    refine ⟨⟨live, now, .asStored, none⟩, rfl, rfl, encoding, mem_opsOn.mp ?_⟩
    have full : opsOn hash (dir.blobGcSweep grace ⟨live, now, .asStored, none⟩) = .look ::
        BlobDir.turnOps grace now encoding (decide (hash ∈ live)) (dir.tombstones hash) :=
      opsOn_sweepOps single member
    dsimp only [dirBackend]
    rw [full, turnOps_plan positive _ _ (holdsBlob dir.entries hash)]
    exact mem_cons_of_mem _ (mem_map.mpr ⟨.remove, planned, rfl⟩)

namespace Bucket

variable {live there : Bool}

/-- With at most one tombstone, a plan that is cut off leaves at most one. -/
theorem foldl_stampsAfter (few : stamps.length ≤ 1)
    (cut : ops <+: .look :: (Slot.plan grace now live ⟨there, stamps.max?⟩).map
      (concreteOp form (stamps.max?.getD 0))) :
    (ops.foldl stampsAfter stamps).length ≤ 1 ∧
      (ops.foldl stampsAfter stamps).max? = ops.foldl stampAfter stamps.max? := by
  cases ops with
  | nil => exact ⟨few, rfl⟩
  | cons first rest =>
    obtain ⟨rfl, later⟩ := cons_prefix_cons.mp cut
    have taken := prefix_iff_eq_take.mp later
    generalize rest.length = count at taken
    subst taken
    unfold Slot.plan
    match stamps with
    | [] => rcases live with _ | _ <;> rcases count with _ | count <;>
        simp [concreteOp, stampsAfter, stampAfter]
    | [stamp] =>
      by_cases due : stamp + grace ≤ now <;> rcases live with _ | _ <;>
        rcases count with _ | _ | count <;> simp [due, concreteOp, stampsAfter, stampAfter]

/-- What `persist_blob` and the sweeps leave in a bucket. -/
structure Plain (bucket : Bucket) : Prop where
  nodup : bucket.objects.Nodup
  identity : ∀ hash encoding, .blob hash encoding ∈ bucket.objects → encoding = .identity
  few : ∀ hash, (bucket.tombstones hash).length ≤ 1

theorem Plain.single {bucket : Bucket} (plain : bucket.Plain) : SingleEncoding bucket.objects where
  nodup := plain.nodup
  single hash first second here there := by
    rw [plain.identity hash first here, plain.identity hash second there]

def slot (bucket : Bucket) (hash : Hash) : Slot :=
  ⟨holdsBlob bucket.objects hash, (bucket.tombstones hash).max?⟩

variable {bucket : Bucket} {call : BucketSweep} {hash : Hash}

theorem Plain.opsOn_blobGcSweep (plain : bucket.Plain) (positive : 0 < grace)
    (there : holdsBlob bucket.objects hash = true) :
    opsOn hash (bucket.blobGcSweep grace call) <+: .look ::
      ((bucket.slot hash).plan grace call.now (decide (hash ∈ call.live))).map
        (concreteOp .identity ((bucket.tombstones hash).max?.getD 0)) := by
  obtain ⟨encoding, member⟩ := holdsBlob_iff.mp there
  obtain rfl := plain.identity hash encoding member
  unfold slot
  rw [← sweepAction_plan positive _ (plain.few hash)]
  exact Bucket.opsOn_blobGcSweep plain.single member

theorem Plain.stamps_swept (plain : bucket.Plain) (positive : 0 < grace) (hash : Hash) :
    ((opsOn hash (bucket.blobGcSweep grace call)).foldl stampsAfter
      (bucket.tombstones hash)).length ≤ 1 ∧
    ((opsOn hash (bucket.blobGcSweep grace call)).foldl stampsAfter (bucket.tombstones hash)).max? =
      (opsOn hash (bucket.blobGcSweep grace call)).foldl stampAfter
        (bucket.tombstones hash).max? := by
  cases there : holdsBlob bucket.objects hash with
  | false =>
    rw [opsOn_blobGcSweep_absent (not_holdsBlob there)]
    exact ⟨plain.few hash, rfl⟩
  | true => exact foldl_stampsAfter (plain.few hash) (plain.opsOn_blobGcSweep positive there)

end Bucket

theorem bucket_follows (positive : 0 < grace) :
    bucketBackend.Follows grace Bucket.slot Bucket.Plain where
  has _ _ := rfl
  write bucket hash encoding plain := by
    dsimp only [bucketBackend, Bucket.putBlob]
    split
    · rename_i member
      refine ⟨plain, fun other => ?_⟩
      split
      · rename_i here
        subst here
        unfold Bucket.slot
        rw [holdsBlob_iff.mpr ⟨_, member⟩]
      · rfl
    · rename_i absent
      have gone (form : BlobEncoding) : .blob hash form ∉ bucket.objects := fun member =>
        absent (plain.identity hash form member ▸ member)
      refine ⟨⟨(plain.single.append gone).nodup, fun other form member => ?_, plain.few⟩,
        fun other => ?_⟩
      · rcases mem_append.mp member with old | new
        · exact plain.identity other form old
        · simp only [mem_singleton, EntryName.blob.injEq] at new
          exact new.2
      · unfold Bucket.slot
        rw [holdsBlob_append]
        split
        · rename_i here
          subst here
          rfl
        · rfl
  kept bucket call plain := by
    dsimp only [SweptStore.sweep, bucketBackend]
    have left := (Bucket.foldl_perform (bucket.blobGcSweep grace call) bucket).1
    refine ⟨?_, fun hash encoding member => ?_, fun hash => ?_⟩
    · rw [left]
      exact (plain.single.foldl _).nodup
    · rw [left] at member
      exact plain.identity hash encoding (mem_foldl_entriesAfter.mp member).1
    · rw [(Bucket.foldl_perform _ bucket).2]
      exact (plain.stamps_swept positive hash).1
  absent bucket call hash plain gone := Bucket.opsOn_blobGcSweep_absent (not_holdsBlob gone)
  plan bucket call hash plain there :=
    ⟨_, concreteOp_effect _ _, plain.opsOn_blobGcSweep positive there⟩
  swept bucket call hash plain := by
    dsimp only [SweptStore.sweep, bucketBackend]
    rw [foldl_effects]
    unfold Bucket.slot
    rw [(Bucket.foldl_perform _ bucket).2, (plain.stamps_swept positive hash).2,
      (Bucket.foldl_perform _ bucket).1,
      holdsBlob_foldl plain.single fun encoding removed => plain.single.mem_of_bucketSweep removed]
  reaches bucket live now hash plain there planned := by
    obtain ⟨encoding, member⟩ := holdsBlob_iff.mp there
    obtain rfl := plain.identity hash encoding member
    obtain ⟨unused, stamp, buried, aged⟩ := SweptStore.remove_mem_plan.mp planned
    let call : BucketSweep := ⟨live, now, .asStored, .acting [.blob hash .identity]⟩
    obtain ⟨later, front⟩ : ∃ later, bucket.queue grace call (.blob hash .identity) =
        (hash, .remove .identity) :: later := by
      have newest : (bucket.tombstones hash).max? = some stamp := buried
      have old : grace ≤ max 0 (now - stamp) := by omega
      refine ⟨(bucket.tombstones hash).map fun other => (hash, .unbury other), ?_⟩
      rw [Bucket.queue, if_pos member]
      simp [Bucket.actionOps, call, Bucket.sweepAction, newest, old, of_decide_eq_false unused]
    refine ⟨call, rfl, rfl, .identity, mem_append_right _ ?_⟩
    simp [interleave, front]

def Chronicle.start {Store : Type} (store : Store) (clock : Int) : Chronicle Store :=
  ⟨store, fun _ => ⟨clock, [], []⟩, clock⟩

theorem consistent_start {Store : Type} {slot : Store → Hash → Slot} {Inv : Store → Prop}
    {store : Store} (kept : Inv store) (empty : ∀ hash, slot store hash = ⟨false, none⟩) :
    SweptStore.Consistent grace slot Inv (.start store clock) := by
  refine ⟨kept, fun hash => ?_⟩
  dsimp only [Chronicle.start]
  rw [empty hash]
  exact ⟨by simp, by simp, by simp, by simp, by simp⟩

theorem deletes_only_seen_iff {grace : Int} (positive : 0 < grace) (clock : Int) :
    (∀ events final, exec (dirBackend.step grace) (.start .empty clock) events = some final →
      ∀ live now, (∀ call : DirSweep, call.live = live → call.now = now →
          dirBackend.Justified grace final call) ↔
        SweptStore.Unspoiled BlobDir.slot grace final live now) ∧
    (∀ events final, exec (bucketBackend.step grace) (.start .empty clock) events = some final →
      ∀ live now, (∀ call : BucketSweep, call.live = live → call.now = now →
          bucketBackend.Justified grace final call) ↔
        SweptStore.Unspoiled Bucket.slot grace final live now) := by
  constructor
  · intro events final ran live now
    have follows := dir_follows positive
    have start : SweptStore.Consistent grace BlobDir.slot
        (fun dir => SingleEncoding dir.entries) (.start .empty clock) :=
      consistent_start ⟨nodup_nil, by simp [BlobDir.empty]⟩ fun _ => rfl
    exact follows.justified_iff (follows.consistent positive start ran) live now
  · intro events final ran live now
    have follows := bucket_follows positive
    have start : SweptStore.Consistent grace Bucket.slot Bucket.Plain (.start .empty clock) :=
      consistent_start ⟨nodup_nil, by simp [Bucket.empty], by simp [Bucket.empty]⟩ fun _ => rfl
    exact follows.justified_iff (follows.consistent positive start ran) live now

def zeroHash : Hash := Bytes.zero 32

/-- A sweep with nothing live. -/
def DirSweep.unused (now : Int) (stop : Option Nat) : DirSweep := ⟨∅, now, .asStored, stop⟩

def BucketSweep.unused (now : Int) (turns : Nat) : BucketSweep :=
  ⟨∅, now, .asStored, .acting (List.replicate turns (.blob zeroHash .identity))⟩

theorem eq_zeroHash {hash : Hash} {entries : List EntryName}
    (only : entries = [.blob zeroHash .identity]) (there : holdsBlob entries hash = true) :
    hash = zeroHash := by
  subst only
  obtain ⟨encoding, member⟩ := holdsBlob_iff.mp there
  simp only [mem_singleton, EntryName.blob.injEq] at member
  exact member.1

/-- The blob is written twice and a complete sweep comes after it; the next one may
delete the blob. -/
theorem second_sweep_is_justified :
    (∃ final, exec (dirBackend.step 5) (.start .empty 0) [.write zeroHash .identity 0,
        .write zeroHash .identity 1, .sweep (.unused 1 none)] = some final ∧
      (zeroHash, .remove .identity) ∈ final.store.blobGcSweep 5 (.unused 6 none) ∧
      dirBackend.Justified 5 final (.unused 6 none)) ∧
    (∃ final, exec (bucketBackend.step 5) (.start .empty 0) [.write zeroHash .identity 0,
        .write zeroHash .identity 1, .sweep (.unused 1 2)] = some final ∧
      (zeroHash, .remove .identity) ∈ final.store.blobGcSweep 5 (.unused 6 2) ∧
      bucketBackend.Justified 5 final (.unused 6 2)) := by
  have both := deletes_only_seen_iff (show (0 : Int) < 5 by decide) 0
  refine ⟨⟨_, rfl, by decide, ?_⟩, ⟨_, rfl, by decide, ?_⟩⟩
  · apply (both.1 [.write zeroHash .identity 0, .write zeroHash .identity 1,
      .sweep (.unused 1 none)] _ rfl ∅ 6).mpr
    · intro hash there _ stamp buried _
      obtain rfl := eq_zeroHash rfl there
      cases buried
      exact Or.inl (by decide)
    · rfl
    · rfl
  · apply (both.2 [.write zeroHash .identity 0, .write zeroHash .identity 1,
      .sweep (.unused 1 2)] _ rfl ∅ 6).mpr
    · intro hash there _ stamp buried _
      obtain rfl := eq_zeroHash rfl there
      cases buried
      exact Or.inl (by decide)
    · rfl
    · rfl

/-- The sweep at 5 stops between the blob and its tombstone; the blob that is
written at 6 goes at once. -/
theorem cut_off_sweep_dooms_rewrite :
    (∃ final, exec (dirBackend.step 5) (.start .empty 0)
        [.write zeroHash .identity 0, .sweep (.unused 0 none), .sweep (.unused 5 (some 2)),
          .write zeroHash .identity 6] = some final ∧
      ¬ dirBackend.Justified 5 final (.unused 6 none)) ∧
    (∃ final, exec (bucketBackend.step 5) (.start .empty 0)
        [.write zeroHash .identity 0, .sweep (.unused 0 1), .sweep (.unused 5 1),
          .write zeroHash .identity 6] = some final ∧
      ¬ bucketBackend.Justified 5 final (.unused 6 1)) := by
  refine ⟨⟨_, rfl, fun justified => ?_⟩, ⟨_, rfl, fun justified => ?_⟩⟩
  all_goals
    obtain ⟨time, seen, -⟩ := justified zeroHash .identity (by decide)
    exact not_mem_nil seen

end NodalMerge
