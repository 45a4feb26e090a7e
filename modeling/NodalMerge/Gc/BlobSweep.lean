import NodalMerge.Crdt.Op
import NodalMerge.Library.Loop
import NodalMerge.Library.TwoPhase

/-! A sweep leaves the list of its operations; one that is cut off leaves the first of them. -/

namespace NodalMerge

open Function List Loop TwoPhase

/-- `BlobEncoding`. -/
inductive BlobEncoding where
  | identity
  | zstd
  deriving DecidableEq

/-- A name under `blake3/` as `parse_blob_entry_name` reads it; the others are
temporary files and foreign entries. -/
inductive EntryName where
  | blob (hash : Hash) (encoding : BlobEncoding)
  | other (name : String)
  deriving DecidableEq

/-- An operation of a sweep on one hash. -/
inductive SweepOp where
  | look
  | bury (time : Int)
  | unbury (stamp : Int)
  | remove (encoding : BlobEncoding)
  deriving DecidableEq

abbrev SweepTrace := List (Hash × SweepOp)

/-- What the operation means for the blob and its tombstone. -/
def SweepOp.effect : SweepOp → Option TwoPhase.Op
  | .look => none
  | .bury time => some (.bury time)
  | .unbury _ => some .unbury
  | .remove _ => some .remove

/-- The operations on one hash. -/
def opsOn (hash : Hash) (trace : SweepTrace) : List SweepOp :=
  trace.filterMap fun entry => if entry.1 = hash then some entry.2 else none

def holdsBlob (entries : List EntryName) (hash : Hash) : Bool :=
  decide (.blob hash .identity ∈ entries ∨ .blob hash .zstd ∈ entries)

/-- The names that are left after an operation. -/
def entriesAfter (entries : List EntryName) : Hash × SweepOp → List EntryName
  | (hash, .remove encoding) => entries.filter fun entry => entry ≠ .blob hash encoding
  | _ => entries

/-- The files under `blobs/blake3` and the times of those under `blobs/.tombstones`. -/
structure BlobDir where
  entries : List EntryName
  tombstones : Hash → Option Int

namespace BlobDir

def empty : BlobDir := ⟨[], fun _ => none⟩

/-- `persist_blob`: the encoding is chosen by the compression settings. -/
def persistBlob (hash : Hash) (encoding : BlobEncoding) (dir : BlobDir) : BlobDir :=
  if holdsBlob dir.entries hash then dir
  else { dir with entries := dir.entries ++ [.blob hash encoding] }

/-- The tombstone of a hash after an operation on it. -/
def stampAfter (stamp : Option Int) : SweepOp → Option Int
  | .bury time => some time
  | .unbury _ => none
  | _ => stamp

def perform (dir : BlobDir) (entry : Hash × SweepOp) : BlobDir where
  entries := entriesAfter dir.entries entry
  tombstones := update dir.tombstones entry.1
    (stampAfter (dir.tombstones entry.1) entry.2)

/-- The age of a tombstone, unless it lies in the future, against the grace. -/
def aged (grace now stamp : Int) : Prop := stamp ≤ now ∧ grace ≤ now - stamp

instance decidableAged (grace now stamp : Int) : Decidable (aged grace now stamp) :=
  inferInstanceAs (Decidable (_ ∧ _))

/-- What one turn of the loop does to a blob, given its tombstone. -/
def turnOps (grace now : Int) (encoding : BlobEncoding) (live : Bool) (tombstone : Option Int) :
    List SweepOp :=
  match live, tombstone with
  | true, none => []
  | true, some stamp => [.unbury stamp]
  | false, some stamp => if aged grace now stamp then [.remove encoding, .unbury stamp] else []
  | false, none => .bury now :: if grace = 0 then [.remove encoding, .unbury now] else []

/-- One entry of the loop. -/
def entryOps (live : Finset Hash) (grace now : Int) (dir : BlobDir) : EntryName → SweepTrace
  | .other _ => []
  | .blob hash encoding =>
    let ops := turnOps grace now encoding (decide (hash ∈ live)) (dir.tombstones hash)
    (SweepOp.look :: ops).map fun op => (hash, op)

def sweepOps (live : Finset Hash) (grace now : Int) : List EntryName → BlobDir → SweepTrace
  | [], _ => []
  | entry :: rest, dir =>
    let ops := dir.entryOps live grace now entry
    ops ++ sweepOps live grace now rest (ops.foldl perform dir)

end BlobDir

/-- A call of `DirPersistence::blob_gc_sweep`, and the number of operations after
which it is cut off. -/
structure DirSweep where
  live : Finset Hash
  now : Int
  order : Listing EntryName
  stop : Option Nat

def BlobDir.blobGcSweep (grace : Int) (call : DirSweep) (dir : BlobDir) : SweepTrace :=
  let ops := dir.sweepOps call.live grace call.now (call.order.arrange dir.entries)
  call.stop.elim ops ops.take

/-- The objects under `blake3`, and for each hash the times in the keys
`<hex>.<unix_millis>` of its tombstones. -/
structure Bucket where
  objects : List EntryName
  tombstones : Hash → List Int

namespace Bucket

def empty : Bucket := ⟨[], fun _ => []⟩

/-- A `PUT` of a blob; `persist_blob` puts the identity form. -/
def putBlob (hash : Hash) (encoding : BlobEncoding) (bucket : Bucket) : Bucket :=
  if .blob hash encoding ∈ bucket.objects then bucket
  else { bucket with objects := bucket.objects ++ [.blob hash encoding] }

/-- The tombstones of a hash after an operation on it. -/
def stampsAfter (stamps : List Int) : SweepOp → List Int
  | .bury time => if time ∈ stamps then stamps else stamps ++ [time]
  | .unbury stamp => stamps.filter fun other => other ≠ stamp
  | _ => stamps

def perform (bucket : Bucket) (entry : Hash × SweepOp) : Bucket where
  objects := entriesAfter bucket.objects entry
  tombstones := update bucket.tombstones entry.1
    (stampsAfter (bucket.tombstones entry.1) entry.2)

/-- The `SweepAction` for a blob, given its tombstones. -/
def sweepAction (grace now : Int) (encoding : BlobEncoding) (live : Bool) (stamps : List Int) :
    List SweepOp :=
  match live, stamps.max? with
  | true, _ => stamps.map .unbury
  | false, some newest =>
    if grace ≤ max 0 (now - newest) then .remove encoding :: stamps.map .unbury else []
  | false, none => .bury now :: if grace = 0 then [.remove encoding, .unbury now] else []

def actionOps (live : Finset Hash) (grace now : Int) (bucket : Bucket) : EntryName → SweepTrace
  | .other _ => []
  | .blob hash encoding =>
    (sweepAction grace now encoding (decide (hash ∈ live)) (bucket.tombstones hash)).map
      fun op => (hash, op)

end Bucket

/-- Actions side by side: each turn takes the next operation of one action. What
the actions have left comes with what was done. -/
def interleave (queue : EntryName → SweepTrace) : List EntryName → SweepTrace × (EntryName → SweepTrace)
  | [] => ([], queue)
  | entry :: turns =>
    match queue entry with
    | [] => interleave queue turns
    | op :: later =>
      let (done, left) := interleave (update queue entry later) turns
      (op :: done, left)

/-- How far a sweep of the bucket gets: into its listing, or into its actions. -/
inductive BucketStop where
  | listing (count : Nat)
  | acting (turns : List EntryName)

/-- A call of `S3BlobStore::blob_gc_sweep`. -/
structure BucketSweep where
  live : Finset Hash
  now : Int
  order : Listing EntryName
  stop : BucketStop

namespace Bucket

def looks : List EntryName → SweepTrace
  | [] => []
  | .blob hash _ :: rest => (hash, .look) :: looks rest
  | .other _ :: rest => looks rest

def queue (grace : Int) (call : BucketSweep) (bucket : Bucket) (entry : EntryName) : SweepTrace :=
  if entry ∈ bucket.objects then bucket.actionOps call.live grace call.now entry else []

def blobGcSweep (grace : Int) (call : BucketSweep) (bucket : Bucket) : SweepTrace :=
  let looked := looks (call.order.arrange bucket.objects)
  match call.stop with
  | .listing count => looked.take count
  | .acting turns => looked ++ (interleave (bucket.queue grace call) turns).1

end Bucket

section
variable {hash other : Hash} {trace : SweepTrace}

theorem opsOn_append {first second : SweepTrace} :
    opsOn hash (first ++ second) = opsOn hash first ++ opsOn hash second :=
  filterMap_append

@[simp] theorem opsOn_nil : opsOn hash [] = [] := rfl

theorem opsOn_cons : opsOn hash (entry :: trace) = opsOn hash [entry] ++ opsOn hash trace :=
  @opsOn_append hash [entry] trace

theorem opsOn_cons_self : opsOn hash ((hash, op) :: trace) = op :: opsOn hash trace := by
  simp [opsOn]

theorem opsOn_cons_of_ne (apart : other ≠ hash) :
    opsOn hash ((other, op) :: trace) = opsOn hash trace := by
  simp [opsOn, apart]

theorem mem_opsOn : op ∈ opsOn hash trace ↔ (hash, op) ∈ trace := by
  simp only [opsOn, mem_filterMap, Option.ite_none_right_eq_some, Option.some.injEq]
  constructor
  · intro found
    obtain ⟨⟨_, _⟩, member, rfl, rfl⟩ := found
    exact member
  · exact fun member => ⟨(hash, op), member, rfl, rfl⟩

theorem opsOn_map_self : opsOn hash (ops.map fun op => (hash, op)) = ops := by
  induction ops with
  | nil => rfl
  | cons op rest ih => rw [map_cons, opsOn_cons_self, ih]

/-- Nothing on the hash, if every operation is on another one. -/
theorem opsOn_eq_nil (elsewhere : ∀ entry ∈ trace, entry.1 ≠ hash) : opsOn hash trace = [] := by
  simpa [opsOn] using elsewhere

theorem opsOn_isPrefix {front : SweepTrace} (cut : front <+: trace) :
    opsOn hash front <+: opsOn hash trace := cut.filterMap _

theorem mem_entriesAfter :
    entry ∈ entriesAfter entries (hash, op) ↔
      entry ∈ entries ∧ ∀ encoding, op = .remove encoding → entry ≠ .blob hash encoding := by
  cases op <;> simp [entriesAfter]

theorem mem_foldl_entriesAfter :
    entry ∈ trace.foldl entriesAfter entries ↔
      entry ∈ entries ∧ ∀ hash encoding, (hash, .remove encoding) ∈ trace →
        entry ≠ .blob hash encoding := by
  induction trace generalizing entries with
  | nil => simp
  | cons head rest ih =>
    obtain ⟨first, op⟩ := head
    rw [foldl_cons, ih, mem_entriesAfter, and_assoc]
    refine and_congr_right fun _ => ⟨fun both other encoding member => ?_, fun all => ⟨?_, ?_⟩⟩
    · rcases mem_cons.mp member with same | later
      · cases same
        exact both.1 encoding rfl
      · exact both.2 other encoding later
    · rintro encoding rfl
      exact all first encoding mem_cons_self
    · exact fun other encoding later => all other encoding (mem_cons_of_mem _ later)

/-- What happens to one hash depends on the operations on it. -/
theorem foldl_update {State : Type} {after : State → SweepOp → State} {states : Hash → State} :
    trace.foldl (fun states entry =>
      update states entry.1 (after (states entry.1) entry.2)) states hash =
      (opsOn hash trace).foldl after (states hash) := by
  induction trace generalizing states with
  | nil => rfl
  | cons head rest ih =>
    obtain ⟨first, op⟩ := head
    rw [foldl_cons, ih]
    by_cases here : first = hash
    · subst here
      rw [opsOn_cons_self, update_self]
      rfl
    · rw [opsOn_cons_of_ne here, update_of_ne (Ne.symm here)]

end

theorem BlobDir.foldl_perform (trace : SweepTrace) (dir : BlobDir) :
    (trace.foldl perform dir).entries = trace.foldl entriesAfter dir.entries ∧
      ∀ hash, (trace.foldl perform dir).tombstones hash =
        (opsOn hash trace).foldl stampAfter (dir.tombstones hash) := by
  refine ⟨(foldl_hom entries fun _ _ => rfl).symm, fun hash => ?_⟩
  rw [← foldl_update]
  exact congrFun (foldl_hom tombstones fun _ _ => rfl).symm hash

theorem Bucket.foldl_perform (trace : SweepTrace) (bucket : Bucket) :
    (trace.foldl perform bucket).objects = trace.foldl entriesAfter bucket.objects ∧
      ∀ hash, (trace.foldl perform bucket).tombstones hash =
        (opsOn hash trace).foldl stampsAfter (bucket.tombstones hash) := by
  refine ⟨(foldl_hom objects fun _ _ => rfl).symm, fun hash => ?_⟩
  rw [← foldl_update]
  exact congrFun (foldl_hom tombstones fun _ _ => rfl).symm hash

/-- Each hash is stored under at most one encoding. -/
structure SingleEncoding (entries : List EntryName) : Prop where
  nodup : entries.Nodup
  single : ∀ hash first second, .blob hash first ∈ entries → .blob hash second ∈ entries →
    first = second

theorem SingleEncoding.sublist (single : SingleEncoding entries) (sub : fewer.Sublist entries) :
    SingleEncoding fewer where
  nodup := sub.nodup single.nodup
  single hash first second here there :=
    single.single hash first second (sub.subset here) (sub.subset there)

variable {entries : List EntryName} {hash : Hash}

theorem SingleEncoding.not_mem
    (single : SingleEncoding (.blob hash encoding :: entries)) (other : BlobEncoding) :
    .blob hash other ∉ entries := by
  intro later
  obtain rfl := single.single hash other encoding (mem_cons_of_mem _ later) mem_cons_self
  exact (nodup_cons.mp single.nodup).1 later

theorem SingleEncoding.perm (single : SingleEncoding entries) (perm : other.Perm entries) :
    SingleEncoding other where
  nodup := perm.nodup_iff.mpr single.nodup
  single hash first second here there :=
    single.single hash first second (perm.subset here) (perm.subset there)

theorem SingleEncoding.foldl (single : SingleEncoding entries)
    (trace : SweepTrace) : SingleEncoding (trace.foldl entriesAfter entries) := by
  induction trace generalizing entries with
  | nil => exact single
  | cons head rest ih =>
    obtain ⟨hash, op⟩ := head
    refine ih (single.sublist ?_)
    cases op <;> first | exact filter_sublist | exact List.Sublist.refl _

theorem holdsBlob_iff :
    holdsBlob entries hash = true ↔ ∃ encoding, .blob hash encoding ∈ entries := by
  unfold holdsBlob
  rw [decide_eq_true_iff]
  constructor
  · intro found
    rcases found with identity | zstd
    · exact ⟨.identity, identity⟩
    · exact ⟨.zstd, zstd⟩
  · intro found
    obtain ⟨encoding, member⟩ := found
    cases encoding
    · exact Or.inl member
    · exact Or.inr member

theorem not_holdsBlob (gone : holdsBlob entries hash = false)
    (encoding : BlobEncoding) : .blob hash encoding ∉ entries := by
  intro member
  rw [holdsBlob_iff.mpr ⟨encoding, member⟩] at gone
  cases gone

theorem SingleEncoding.append (single : SingleEncoding entries) (absent : ∀ other, .blob hash other ∉ entries) :
    SingleEncoding (entries ++ [.blob hash encoding]) where
  nodup := by
    rw [nodup_append]
    refine ⟨single.nodup, nodup_singleton _, fun entry member other last => ?_⟩
    rw [mem_singleton.mp last]
    rintro rfl
    exact absent encoding member
  single other first second here there := by
    simp only [mem_append, mem_singleton, EntryName.blob.injEq] at here there
    rcases here with here | ⟨rfl, rfl⟩ <;> rcases there with there | ⟨same, rfl⟩
    · exact single.single other first second here there
    · subst same
      exact absurd here (absent first)
    · exact absurd there (absent second)
    · rfl

theorem holdsBlob_append :
    holdsBlob (entries ++ [.blob hash encoding]) other =
      if other = hash then true else holdsBlob entries other := by
  rw [Bool.eq_iff_iff, holdsBlob_iff]
  split
  · rename_i here
    subst here
    simp
  · rename_i apart
    simp [holdsBlob_iff, apart]

def SweepOp.isRemove : SweepOp → Bool
  | .remove _ => true
  | _ => false

theorem holdsBlob_foldl (single : SingleEncoding entries)
    (right : ∀ encoding, .remove encoding ∈ opsOn hash trace → .blob hash encoding ∈ entries) :
    holdsBlob (trace.foldl entriesAfter entries) hash =
      (holdsBlob entries hash && (opsOn hash trace).all fun op => !op.isRemove) := by
  rw [Bool.eq_iff_iff, Bool.and_eq_true, holdsBlob_iff, holdsBlob_iff, all_eq_true]
  constructor
  · intro found
    obtain ⟨encoding, member⟩ := found
    obtain ⟨old, kept⟩ := mem_foldl_entriesAfter.mp member
    refine ⟨⟨encoding, old⟩, fun op done => ?_⟩
    cases op with
    | remove other =>
      obtain rfl := single.single hash other encoding (right other done) old
      exact absurd rfl (kept hash other (mem_opsOn.mp done))
    | _ => rfl
  · intro both
    obtain ⟨⟨encoding, old⟩, kept⟩ := both
    refine ⟨encoding, mem_foldl_entriesAfter.mpr ⟨old, fun other form done same => ?_⟩⟩
    obtain ⟨rfl, rfl⟩ := EntryName.blob.inj same
    simpa [SweepOp.isRemove] using kept _ (mem_opsOn.mpr done)

/-- The operation of a store with a given blob and tombstone. -/
def concreteOp (encoding : BlobEncoding) (stamp : Int) : TwoPhase.Op → SweepOp
  | .bury time => .bury time
  | .unbury => .unbury stamp
  | .remove => .remove encoding

theorem concreteOp_effect (encoding : BlobEncoding) (stamp : Int) (op : TwoPhase.Op) :
    (concreteOp encoding stamp op).effect = some op := by
  cases op <;> rfl

namespace BlobDir

variable {live : Finset Hash} {grace now : Int} {dir : BlobDir} {hash other : Hash}
  {entries : List EntryName}

def slot (dir : BlobDir) (hash : Hash) : Slot :=
  ⟨holdsBlob dir.entries hash, dir.tombstones hash⟩

theorem turnOps_plan (positive : 0 < grace) (alive : Bool) (tombstone : Option Int) (there : Bool) :
    turnOps grace now encoding alive tombstone =
      (Slot.plan grace now alive ⟨there, tombstone⟩).map (concreteOp encoding (tombstone.getD 0)) := by
  have old (stamp : Int) : aged grace now stamp ↔ stamp + grace ≤ now := by
    unfold aged
    omega
  unfold turnOps Slot.plan
  rcases alive with _ | _ <;> rcases tombstone with _ | stamp
  · simp [concreteOp, positive.ne']
  · by_cases due : stamp + grace ≤ now <;> simp [concreteOp, old, due]
  · rfl
  · rfl

theorem opsOn_entryOps_of_ne (apart : other ≠ hash) :
    opsOn hash (dir.entryOps live grace now (.blob other encoding)) = [] := by
  refine opsOn_eq_nil fun entry member => ?_
  obtain ⟨op, -, rfl⟩ := mem_map.mp member
  exact apart

theorem opsOn_sweepOps_absent (absent : ∀ encoding, .blob hash encoding ∉ entries) :
    opsOn hash (sweepOps live grace now entries dir) = [] := by
  induction entries generalizing dir with
  | nil => rfl
  | cons entry rest ih =>
    have later := @ih (((dir.entryOps live grace now entry).foldl perform dir))
      fun encoding member => absent encoding (mem_cons_of_mem _ member)
    rw [sweepOps, opsOn_append, later, append_nil]
    cases entry with
    | other name => rfl
    | blob first encoding =>
      apply opsOn_entryOps_of_ne
      rintro rfl
      exact absent encoding mem_cons_self

/-- Operations on other blobs do not change what the loop does to a blob. -/
theorem opsOn_sweepOps (single : SingleEncoding entries) (member : .blob hash encoding ∈ entries) :
    opsOn hash (sweepOps live grace now entries dir) = .look ::
      turnOps grace now encoding (decide (hash ∈ live)) (dir.tombstones hash) := by
  induction entries generalizing dir with
  | nil => cases member
  | cons entry rest ih =>
    have fewer := single.sublist (sublist_cons_self entry rest)
    rw [sweepOps, opsOn_append]
    by_cases here : entry = .blob hash encoding
    · subst here
      rw [opsOn_sweepOps_absent single.not_mem, append_nil]
      exact opsOn_map_self
    · have later : .blob hash encoding ∈ rest := by
        rcases mem_cons.mp member with same | later
        · exact absurd same.symm here
        · exact later
      have elsewhere : opsOn hash (dir.entryOps live grace now entry) = [] := by
        cases entry with
        | other name => rfl
        | blob first form =>
          apply opsOn_entryOps_of_ne
          rintro rfl
          exact single.not_mem encoding later
      rw [elsewhere, nil_append, ih fewer later, (foldl_perform _ dir).2, elsewhere]
      rfl

theorem blobGcSweep_isPrefix {call : DirSweep} :
    dir.blobGcSweep grace call <+:
      dir.sweepOps call.live grace call.now (call.order.arrange dir.entries) := by
  unfold blobGcSweep
  cases call.stop with
  | none => exact prefix_refl _
  | some count => exact take_prefix count _

theorem opsOn_blobGcSweep_absent (absent : ∀ encoding, .blob hash encoding ∉ dir.entries) :
    opsOn hash (dir.blobGcSweep grace call) = [] := by
  have cut := @opsOn_isPrefix hash _ _ (@blobGcSweep_isPrefix grace dir call)
  rw [opsOn_sweepOps_absent fun encoding member => absent encoding ((call.order.perm _).subset member)]
    at cut
  exact prefix_nil.mp cut

theorem opsOn_blobGcSweep {call : DirSweep} (single : SingleEncoding dir.entries)
    (member : .blob hash encoding ∈ dir.entries) :
    opsOn hash (dir.blobGcSweep grace call) <+: .look ::
      turnOps grace call.now encoding (decide (hash ∈ call.live)) (dir.tombstones hash) := by
  have cut := @opsOn_isPrefix hash _ _ (@blobGcSweep_isPrefix grace dir call)
  rwa [opsOn_sweepOps (single.perm (call.order.perm _)) ((call.order.perm _).mem_iff.mpr member)] at cut

end BlobDir

namespace Bucket

theorem sweepAction_plan (positive : 0 < grace) (alive : Bool) (few : stamps.length ≤ 1)
    (there : Bool) :
    sweepAction grace now encoding alive stamps =
      (Slot.plan grace now alive ⟨there, stamps.max?⟩).map
        (concreteOp encoding (stamps.max?.getD 0)) := by
  unfold sweepAction Slot.plan
  match stamps with
  | [] => cases alive <;> simp [concreteOp, positive.ne']
  | [stamp] =>
    have old : grace ≤ max 0 (now - stamp) ↔ stamp + grace ≤ now := by omega
    cases alive
    · by_cases due : stamp + grace ≤ now <;> simp [concreteOp, old, due]
    · simp [concreteOp]

end Bucket

/-- Done and left together are the queue, for a hash with one action. -/
theorem opsOn_interleave {entry : EntryName} {turns : List EntryName}
    {queue : EntryName → SweepTrace} (only : ∀ other, other ≠ entry → opsOn hash (queue other) = []) :
    opsOn hash (interleave queue turns).1 ++ opsOn hash ((interleave queue turns).2 entry) =
      opsOn hash (queue entry) := by
  induction turns generalizing queue with
  | nil => rfl
  | cons turn rest ih =>
    unfold interleave
    split
    · exact ih only
    · rename_i op later front
      have updated : ∀ other, other ≠ entry →
          opsOn hash (update queue turn later other) = [] := by
        intro other apart
        by_cases here : other = turn
        · subst here
          have none := only other apart
          rw [front, opsOn_cons, append_eq_nil_iff] at none
          rw [update_self, none.2]
        · rw [update_of_ne here]
          exact only other apart
      rw [opsOn_cons, append_assoc, ih updated]
      by_cases here : turn = entry
      · subst here
        rw [update_self, front, ← opsOn_cons]
      · have none := only turn here
        rw [front, opsOn_cons, append_eq_nil_iff] at none
        rw [none.1, update_of_ne (Ne.symm here), nil_append]

namespace Bucket

variable {call : BucketSweep} {bucket : Bucket} {listed : List EntryName}

theorem opsOn_looks_absent (absent : ∀ encoding, .blob hash encoding ∉ listed) :
    opsOn hash (looks listed) = [] := by
  induction listed with
  | nil => rfl
  | cons entry rest ih =>
    have later := ih fun encoding member => absent encoding (mem_cons_of_mem _ member)
    cases entry with
    | other name => exact later
    | blob first form =>
      rw [looks, opsOn_cons_of_ne, later]
      rintro rfl
      exact absent form mem_cons_self

theorem opsOn_looks (single : SingleEncoding listed) (member : .blob hash encoding ∈ listed) :
    opsOn hash (looks listed) = [.look] := by
  induction listed with
  | nil => cases member
  | cons entry rest ih =>
    have fewer := single.sublist (sublist_cons_self entry rest)
    rcases mem_cons.mp member with here | later
    · subst here
      rw [looks, opsOn_cons_self, opsOn_looks_absent single.not_mem]
    · cases entry with
      | other name => exact ih fewer later
      | blob first form =>
        rw [looks, opsOn_cons_of_ne, ih fewer later]
        rintro rfl
        exact single.not_mem encoding later

theorem opsOn_queue (member : .blob hash encoding ∈ bucket.objects) :
    opsOn hash (bucket.queue grace call (.blob hash encoding)) =
      sweepAction grace call.now encoding (decide (hash ∈ call.live)) (bucket.tombstones hash) := by
  rw [queue, if_pos member]
  exact opsOn_map_self

theorem opsOn_queue_of_ne
    (apart : ∀ encoding, .blob hash encoding ∈ bucket.objects → entry ≠ .blob hash encoding) :
    opsOn hash (bucket.queue grace call entry) = [] := by
  unfold queue
  split
  · rename_i member
    cases entry with
    | other name => rfl
    | blob first form =>
      refine opsOn_eq_nil fun op found => ?_
      obtain ⟨op, -, rfl⟩ := mem_map.mp found
      rintro rfl
      exact apart form member rfl
  · rfl

theorem opsOn_blobGcSweep_absent (absent : ∀ encoding, .blob hash encoding ∉ bucket.objects) :
    opsOn hash (bucket.blobGcSweep grace call) = [] := by
  have unseen : opsOn hash (looks (call.order.arrange bucket.objects)) = [] :=
    opsOn_looks_absent fun encoding member =>
      absent encoding ((call.order.perm _).subset member)
  unfold blobGcSweep
  dsimp only
  cases call.stop with
  | listing count =>
    have cut := @opsOn_isPrefix hash _ _
      ( take_prefix count (looks (call.order.arrange bucket.objects)))
    rw [unseen] at cut
    exact prefix_nil.mp cut
  | acting turns =>
    have quiet (entry : EntryName) : opsOn hash (bucket.queue grace call entry) = [] :=
      opsOn_queue_of_ne fun encoding member => absurd member (absent encoding)
    have both := @opsOn_interleave hash (.other "") turns (bucket.queue grace call) fun other _ =>
      quiet other
    rw [quiet] at both
    rw [opsOn_append, unseen, (append_eq_nil_iff.mp both).1]
    rfl

theorem opsOn_blobGcSweep (single : SingleEncoding bucket.objects)
    (member : .blob hash encoding ∈ bucket.objects) :
    opsOn hash (bucket.blobGcSweep grace call) <+: .look ::
      sweepAction grace call.now encoding (decide (hash ∈ call.live)) (bucket.tombstones hash) := by
  have seen : opsOn hash (looks (call.order.arrange bucket.objects)) = [.look] :=
    opsOn_looks (single.perm (call.order.perm _)) ((call.order.perm _).mem_iff.mpr member)
  unfold blobGcSweep
  dsimp only
  cases call.stop with
  | listing count =>
    have cut := @opsOn_isPrefix hash _ _
      ( take_prefix count (looks (call.order.arrange bucket.objects)))
    rw [seen] at cut
    exact cut.trans (prefix_append [SweepOp.look] _)
  | acting turns =>
    have both := @opsOn_interleave hash (.blob hash encoding) turns (bucket.queue grace call)
      fun other apart => opsOn_queue_of_ne fun form present => by
        rw [single.single hash form encoding present member]
        exact apart
    rw [opsOn_queue member] at both
    rw [opsOn_append, seen, ← both]
    exact prefix_append_right_inj [SweepOp.look] |>.mpr (prefix_append _ _)

end Bucket

theorem remove_mem_turnOps
    (removed : .remove form ∈ BlobDir.turnOps grace now encoding live tombstone) :
    form = encoding := by
  revert removed
  unfold BlobDir.turnOps
  cases live <;> cases tombstone <;> dsimp only <;> (try split) <;> simp

theorem remove_mem_sweepAction
    (removed : .remove form ∈ Bucket.sweepAction grace now encoding live stamps) :
    form = encoding := by
  revert removed
  unfold Bucket.sweepAction
  cases live <;> cases stamps.max? <;> (try split) <;> simp

/-- A sweep that leaves absent blobs alone and removes them in the form they have. -/
theorem mem_of_removed {ops : BlobEncoding → List SweepOp}
    (absent : (∀ form, .blob hash form ∉ entries) → opsOn hash trace = [])
    (planned : ∀ form, .blob hash form ∈ entries → opsOn hash trace <+: .look :: ops form)
    (own : ∀ form, .remove encoding ∈ ops form → encoding = form)
    (removed : .remove encoding ∈ opsOn hash trace) : .blob hash encoding ∈ entries := by
  cases there : holdsBlob entries hash with
  | false =>
    rw [absent (not_holdsBlob there)] at removed
    cases removed
  | true =>
    obtain ⟨form, member⟩ := holdsBlob_iff.mp there
    rcases mem_cons.mp ((planned form member).subset removed) with look | turn
    · cases look
    · rwa [own form turn]

theorem SingleEncoding.mem_of_dirSweep {dir : BlobDir} (single : SingleEncoding dir.entries) :
    .remove encoding ∈ opsOn hash (dir.blobGcSweep grace call) → .blob hash encoding ∈ dir.entries :=
  mem_of_removed BlobDir.opsOn_blobGcSweep_absent (fun _ => BlobDir.opsOn_blobGcSweep single)
    fun _ => remove_mem_turnOps

theorem SingleEncoding.mem_of_bucketSweep {bucket : Bucket}
    (single : SingleEncoding bucket.objects) :
    .remove encoding ∈ opsOn hash (bucket.blobGcSweep grace call) →
      .blob hash encoding ∈ bucket.objects :=
  mem_of_removed Bucket.opsOn_blobGcSweep_absent (fun _ => Bucket.opsOn_blobGcSweep single)
    fun _ => remove_mem_sweepAction

end NodalMerge
