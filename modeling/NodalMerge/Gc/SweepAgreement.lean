import NodalMerge.Gc.SweepHistory

namespace NodalMerge

open BlobDir Bucket List Loop Machine
open BlobDir (perform turnOps stampAfter aged)
open Bucket (perform stampsAfter sweepAction looks)
open SweepOp (unbury isRemove remove)

def nanosOfMillis (time : Int) : Int := 1000000 * time

inductive TwinEvent where
  | write (hash : Hash) (inDir inBucket : BlobEncoding)
  | sweep (live : Finset Hash) (now : Int) (dirOrder bucketOrder : Listing EntryName)
      (turns : List EntryName)

structure TwinStores where
  dir : BlobDir
  bucket : Bucket

namespace TwinStores

variable (grace : Int)

def dirTrace (live : Finset Hash) (now : Int) (order : Listing EntryName) (twins : TwinStores) :
    SweepTrace :=
  twins.dir.blobGcSweep (nanosOfMillis grace) ⟨live, nanosOfMillis now, order, none⟩

def bucketTrace (live : Finset Hash) (now : Int) (order : Listing EntryName)
    (turns : List EntryName) (twins : TwinStores) : SweepTrace :=
  twins.bucket.blobGcSweep grace ⟨live, now, order, .acting turns⟩

/-- The turns bring every action of the sweep to its end. -/
def Completes (live : Finset Hash) (now : Int) (order : Listing EntryName)
    (turns : List EntryName) (twins : TwinStores) : Prop :=
  ∀ entry ∈ twins.bucket.objects,
    (interleave (twins.bucket.queue grace ⟨live, now, order, .acting turns⟩) turns).2 entry = []

instance decidableCompletes (live : Finset Hash) (now : Int) (order : Listing EntryName)
    (turns : List EntryName) (twins : TwinStores) :
    Decidable (twins.Completes grace live now order turns) :=
  inferInstanceAs (Decidable (∀ entry ∈ twins.bucket.objects, _ = []))

/-- No hash gets a second encoding, and no sweep is cut off. -/
def step (twins : TwinStores) : TwinEvent → Option TwinStores
  | .write hash inDir inBucket =>
    if holdsBlob twins.bucket.objects hash → .blob hash inBucket ∈ twins.bucket.objects then
      some ⟨twins.dir.persistBlob hash inDir, twins.bucket.putBlob hash inBucket⟩
    else none
  | .sweep live now dirOrder bucketOrder turns =>
    if twins.Completes grace live now bucketOrder turns then some
      { dir := (twins.dirTrace grace live now dirOrder).foldl perform twins.dir
        bucket := (twins.bucketTrace grace live now bucketOrder turns).foldl perform twins.bucket }
    else none

end TwinStores

/-- The same blobs, and each tombstone file from the newest tombstone of the bucket. -/
structure TwinStores.Alike (twins : TwinStores) : Prop where
  dir : SingleEncoding twins.dir.entries
  bucket : SingleEncoding twins.bucket.objects
  blobs : ∀ hash, holdsBlob twins.dir.entries hash = holdsBlob twins.bucket.objects hash
  tombstones : ∀ hash, twins.dir.tombstones hash =
    (twins.bucket.tombstones hash).max?.map nanosOfMillis

def Deletes (trace : SweepTrace) (hash : Hash) : Prop := ∃ encoding, (hash, .remove encoding) ∈ trace

section
variable {live : Bool} {stamps : List Int}

theorem foldl_unbury (paths : List Int) :
    (paths.map unbury).foldl stampsAfter stamps =
      stamps.filter fun stamp => stamp ∉ paths := by
  induction paths generalizing stamps with
  | nil => simp
  | cons path rest ih =>
    rw [map_cons, foldl_cons, ih, stampsAfter, filter_filter]
    refine filter_congr fun stamp _ => ?_
    simp only [mem_cons, not_or, Bool.decide_and, Bool.and_comm]

theorem foldl_unbury_self : (stamps.map unbury).foldl stampsAfter stamps = [] := by
  rw [foldl_unbury]
  simp

/-- Both stores do the same to a blob. -/
theorem turnOps_agrees (positive : 0 < grace) :
    (turnOps (nanosOfMillis grace) (nanosOfMillis now) inDir live
        (stamps.max?.map nanosOfMillis)).any isRemove =
      (sweepAction grace now inBucket live stamps).any isRemove ∧
    (turnOps (nanosOfMillis grace) (nanosOfMillis now) inDir live
        (stamps.max?.map nanosOfMillis)).foldl stampAfter (stamps.max?.map nanosOfMillis) =
      ((sweepAction grace now inBucket live stamps).foldl stampsAfter
        stamps).max?.map nanosOfMillis := by
  have unburied : (stamps.map unbury).any isRemove = false := by
    simp [isRemove]
  unfold turnOps sweepAction
  cases live with
  | true =>
    rw [foldl_unbury_self, unburied]
    cases stamps.max? <;> exact ⟨rfl, rfl⟩
  | false =>
    cases newest : stamps.max? with
    | none =>
      obtain rfl := List.max?_eq_none_iff.mp newest
      have nanos : nanosOfMillis grace ≠ 0 := by
        unfold nanosOfMillis
        omega
      simp [nanos, positive.ne', isRemove, stampsAfter, stampAfter]
    | some stamp =>
      have old : aged (nanosOfMillis grace) (nanosOfMillis now) (nanosOfMillis stamp) ↔
          grace ≤ max 0 (now - stamp) := by
        unfold aged nanosOfMillis
        omega
      dsimp only [Option.map_some]
      by_cases due : grace ≤ max 0 (now - stamp)
      · have cleared : (remove inBucket :: stamps.map .unbury).foldl stampsAfter
            stamps = [] := foldl_unbury_self
        rw [if_pos due, if_pos (old.mpr due), cleared]
        exact ⟨rfl, rfl⟩
      · rw [if_neg due, if_neg (mt old.mp due)]
        exact ⟨rfl, by rw [foldl_nil, foldl_nil, newest, Option.map_some]⟩

end

namespace TwinStores

variable {live : Finset Hash} {twins next : TwinStores} {hash : Hash}

theorem opsOn_dirTrace (alike : twins.Alike) (member : .blob hash encoding ∈ twins.dir.entries) :
    opsOn hash (twins.dirTrace grace live now dirOrder) = .look ::
      turnOps (nanosOfMillis grace) (nanosOfMillis now) encoding (decide (hash ∈ live))
        (twins.dir.tombstones hash) :=
  opsOn_sweepOps (alike.dir.perm (dirOrder.perm _)) ((dirOrder.perm _).mem_iff.mpr member)

/-- A sweep that comes to its end does the whole action. -/
theorem opsOn_bucketTrace (alike : twins.Alike)
    (completes : twins.Completes grace live now bucketOrder turns)
    (member : .blob hash encoding ∈ twins.bucket.objects) :
    opsOn hash (twins.bucketTrace grace live now bucketOrder turns) = .look ::
      sweepAction grace now encoding (decide (hash ∈ live)) (twins.bucket.tombstones hash) := by
  let call : BucketSweep := ⟨live, now, bucketOrder, .acting turns⟩
  have both := @opsOn_interleave hash (.blob hash encoding) turns (twins.bucket.queue grace call)
    fun other apart => opsOn_queue_of_ne fun form present => by
      rw [alike.bucket.single hash form encoding present member]
      exact apart
  rw [opsOn_queue member, completes _ member, opsOn_nil, append_nil] at both
  have seen : opsOn hash (looks (bucketOrder.arrange twins.bucket.objects)) = [.look] :=
    opsOn_looks (alike.bucket.perm (bucketOrder.perm _))
      ((bucketOrder.perm _).mem_iff.mpr member)
  refine opsOn_append.trans ?_
  rw [seen, both]
  rfl

theorem deletes_iff : Deletes trace hash ↔ (opsOn hash trace).any isRemove := by
  rw [any_eq_true]
  constructor
  · intro deleted
    obtain ⟨form, member⟩ := deleted
    exact ⟨_, mem_opsOn.mpr member, rfl⟩
  · intro found
    obtain ⟨op, member, removes⟩ := found
    cases op with
    | remove form => exact ⟨form, mem_opsOn.mp member⟩
    | _ => cases removes

section
variable (alike : twins.Alike)
include alike

/-- What a complete sweep does to one hash, in both stores. -/
theorem Alike.agree (positive : 0 < grace)
    (completes : twins.Completes grace live now bucketOrder turns) (hash : Hash) :
    (opsOn hash (twins.dirTrace grace live now dirOrder)).any isRemove =
      (opsOn hash (twins.bucketTrace grace live now bucketOrder turns)).any isRemove ∧
    (opsOn hash (twins.dirTrace grace live now dirOrder)).foldl stampAfter
        (twins.dir.tombstones hash) =
      ((opsOn hash (twins.bucketTrace grace live now bucketOrder turns)).foldl stampsAfter
        (twins.bucket.tombstones hash)).max?.map nanosOfMillis := by
  have same := alike.blobs hash
  cases there : holdsBlob twins.dir.entries hash with
  | false =>
    rw [there] at same
    have first : opsOn hash (twins.dirTrace grace live now dirOrder) = [] :=
      opsOn_blobGcSweep_absent (not_holdsBlob there)
    have second : opsOn hash (twins.bucketTrace grace live now bucketOrder turns) = [] :=
      opsOn_blobGcSweep_absent (not_holdsBlob same.symm)
    rw [first, second]
    exact ⟨rfl, alike.tombstones hash⟩
  | true =>
    rw [there] at same
    obtain ⟨inDir, entry⟩ := holdsBlob_iff.mp there
    obtain ⟨inBucket, object⟩ := holdsBlob_iff.mp same.symm
    rw [opsOn_dirTrace alike entry, opsOn_bucketTrace alike completes object, alike.tombstones hash]
    exact turnOps_agrees positive

theorem Alike.write
    (single : holdsBlob twins.bucket.objects hash → .blob hash inBucket ∈ twins.bucket.objects) :
    Alike ⟨twins.dir.persistBlob hash inDir, twins.bucket.putBlob hash inBucket⟩ := by
  unfold BlobDir.persistBlob Bucket.putBlob
  cases there : holdsBlob twins.bucket.objects hash with
  | true =>
    rw [if_pos ((alike.blobs hash).trans there), if_pos (single there)]
    exact alike
  | false =>
    have gone : holdsBlob twins.dir.entries hash = false := (alike.blobs hash).trans there
    rw [if_neg (by simp [gone]), if_neg (not_holdsBlob there inBucket)]
    refine ⟨alike.dir.append (not_holdsBlob gone), alike.bucket.append (not_holdsBlob there),
      fun other => ?_, alike.tombstones⟩
    rw [holdsBlob_append, holdsBlob_append, alike.blobs other]

theorem Alike.sweep (positive : 0 < grace)
    (completes : twins.Completes grace live now bucketOrder turns) : Alike
      { dir := (twins.dirTrace grace live now dirOrder).foldl perform twins.dir
        bucket := (twins.bucketTrace grace live now bucketOrder turns).foldl perform
          twins.bucket } := by
  obtain ⟨entries, stamps⟩ := foldl_perform (twins.dirTrace grace live now dirOrder) twins.dir
  obtain ⟨objects, keys⟩ :=
    foldl_perform (twins.bucketTrace grace live now bucketOrder turns) twins.bucket
  refine ⟨?_, ?_, fun hash => ?_, fun hash => ?_⟩
  · dsimp only
    rw [entries]
    exact alike.dir.foldl _
  · dsimp only
    rw [objects]
    exact alike.bucket.foldl _
  · dsimp only
    have fromDir (encoding : BlobEncoding)
        (removed : .remove encoding ∈ opsOn hash (twins.dirTrace grace live now dirOrder)) :
        .blob hash encoding ∈ twins.dir.entries := alike.dir.mem_of_dirSweep removed
    have fromBucket (encoding : BlobEncoding)
        (removed : .remove encoding ∈ opsOn hash (twins.bucketTrace grace live now bucketOrder turns)) :
        .blob hash encoding ∈ twins.bucket.objects := alike.bucket.mem_of_bucketSweep removed
    rw [entries, objects, holdsBlob_foldl alike.dir fromDir, holdsBlob_foldl alike.bucket fromBucket,
      ← not_any_eq_all_not, ← not_any_eq_all_not, alike.blobs hash,
      (alike.agree positive completes hash).1]
  · dsimp only
    rw [stamps, keys]
    exact (alike.agree positive completes hash).2

/-- Both stores stay alike. -/
theorem Alike.exec (positive : 0 < grace)
    (ran : Machine.exec (step grace) twins events = some next) : next.Alike := by
  refine exec_invariant (fun middle event after stepped alike => ?_) alike ran
  cases event with
  | write hash inDir inBucket =>
    obtain ⟨single, result⟩ := Option.ite_none_right_eq_some.mp stepped
    cases result
    exact alike.write single
  | sweep live now dirOrder bucketOrder turns =>
    obtain ⟨completes, result⟩ := Option.ite_none_right_eq_some.mp stepped
    cases result
    exact alike.sweep positive completes

end

end TwinStores

theorem sweeps_agree {grace : Int} (positive : 0 < grace) {start : TwinStores}
    (alike : start.Alike) {events : List TwinEvent} {twins : TwinStores}
    (ran : exec (TwinStores.step grace) start events = some twins) :
    (∀ hash, holdsBlob twins.dir.entries hash = holdsBlob twins.bucket.objects hash ∧
      ((twins.dir.tombstones hash).isSome ↔ twins.bucket.tombstones hash ≠ [])) ∧
    ∀ live now dirOrder bucketOrder turns, twins.Completes grace live now bucketOrder turns →
      ∀ hash, Deletes (twins.dirTrace grace live now dirOrder) hash ↔
        Deletes (twins.bucketTrace grace live now bucketOrder turns) hash := by
  have still := alike.exec positive ran
  refine ⟨fun hash => ⟨still.blobs hash, ?_⟩, ?_⟩
  · rw [still.tombstones hash, Option.isSome_map, Option.isSome_iff_ne_none, ne_eq,
      List.max?_eq_none_iff]
  · intro live now dirOrder bucketOrder turns completes hash
    rw [TwinStores.deletes_iff, TwinStores.deletes_iff, (still.agree positive completes hash).1]

def TwinStores.empty : TwinStores := ⟨.empty, .empty⟩

theorem TwinStores.empty_alike : TwinStores.empty.Alike where
  dir := ⟨nodup_nil, by simp [TwinStores.empty, BlobDir.empty]⟩
  bucket := ⟨nodup_nil, by simp [TwinStores.empty, Bucket.empty]⟩
  blobs _ := rfl
  tombstones _ := rfl

def writtenAndBuried : List TwinEvent :=
  [.write zeroHash .zstd .identity, .sweep ∅ 1 .asStored .asStored [.blob zeroHash .identity]]

/-- Compressed in the directory and plain in the bucket, the blob goes from both. -/
theorem sweeps_agree_on_blob :
    ∃ twins, exec (TwinStores.step 5) .empty writtenAndBuried = some twins ∧
      twins.Completes 5 ∅ 6 .asStored (List.replicate 2 (.blob zeroHash .identity)) ∧
      Deletes (twins.dirTrace 5 ∅ 6 .asStored) zeroHash ∧
      Deletes (twins.bucketTrace 5 ∅ 6 .asStored (List.replicate 2 (.blob zeroHash .identity)))
        zeroHash := by
  refine ⟨_, rfl, by decide, ⟨.zstd, by decide⟩, ?_⟩
  have ran : exec (TwinStores.step 5) .empty writtenAndBuried = some _ := rfl
  refine ((sweeps_agree (by decide) TwinStores.empty_alike ran).2 ∅ 6 .asStored .asStored _ ?_ _).mp ?_
  · decide
  · exact ⟨.zstd, by decide⟩

end NodalMerge
