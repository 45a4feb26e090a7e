import Mathlib.Data.List.Basic
import Mathlib.Tactic

namespace TwoPhase

open List

/-- The item and the time of its tombstone. -/
structure Slot where
  present : Bool
  stamp : Option Int
  deriving DecidableEq

inductive Op where
  | bury (time : Int)
  | unbury
  | remove
  deriving DecidableEq

def Slot.apply (slot : Slot) : Op → Slot
  | .bury time => { slot with stamp := some time }
  | .unbury => { slot with stamp := none }
  | .remove => { slot with present := false }

/-- What a sweep does about an item that is there. -/
def Slot.plan (grace now : Int) (live : Bool) (slot : Slot) : List Op :=
  match live, slot.stamp with
  | true, none => []
  | true, some _ => [.unbury]
  | false, none => [.bury now]
  | false, some stamp => if stamp + grace ≤ now then [.remove, .unbury] else []

/-- When the item was last written, when sweeps have seen it as unused since then,
and which of these did nothing about it. -/
structure History where
  since : Int
  seen : List Int
  idle : List Int

def History.look (now : Int) (acted : Bool) (history : History) : History where
  since := history.since
  seen := now :: history.seen
  idle := if acted then history.idle else now :: history.idle

/-- A write starts the history again. Of the sweeps before it only those at the same
time count, and these only if the item was there. -/
def History.restart (time : Int) (present : Bool) (history : History) : History where
  since := time
  seen := if present then history.seen.filter (time ≤ ·) else []
  idle := if present then history.idle.filter (time ≤ ·) else []

/-- An item with its history. -/
structure Track where
  slot : Slot
  history : History

namespace Track

def write (time : Int) (track : Track) : Track :=
  ⟨{ track.slot with present := true }, track.history.restart time track.slot.present⟩

/-- A sweep that carries out the first operations of its plan. -/
def visit (grace now : Int) (live : Bool) (count : Nat) (track : Track) : Track :=
  let done := (track.slot.plan grace now live).take count
  { slot := done.foldl Slot.apply track.slot
    history := if live then track.history else track.history.look now !done.isEmpty }

/-- What holds of an item at some time of the clock. A tombstone that is not older than
the last write comes from a sweep that has seen the item, and no sweep after it has done
anything about the item. -/
structure Sound (grace clock : Int) (track : Track) : Prop where
  orphan : track.slot.present = false → ∀ stamp ∈ track.slot.stamp, stamp + grace ≤ clock
  since : track.slot.present = true → track.history.since ≤ clock
  seen : ∀ time ∈ track.history.seen, track.history.since ≤ time ∧ time ≤ clock
  idle : ∀ time ∈ track.history.idle, time ∈ track.history.seen
  tombstone : track.slot.present = true → ∀ stamp ∈ track.slot.stamp,
    (track.history.since ≤ stamp → stamp ∈ track.history.seen) ∧
      ∀ time ∈ track.history.seen, stamp < time → time ∈ track.history.idle

variable {live : Bool} {count : Nat}

section
variable (sound : Sound grace clock track)
include sound

section
variable (passed : clock ≤ now)
include passed

theorem Sound.later : Sound grace now track where
  orphan gone stamp member := (sound.orphan gone stamp member).trans passed
  since there := (sound.since there).trans passed
  seen time member := ⟨(sound.seen time member).1, (sound.seen time member).2.trans passed⟩
  idle := sound.idle
  tombstone := sound.tombstone

theorem Sound.write (positive : 0 < grace) : Sound grace now (track.write now) := by
  refine ⟨nofun, fun _ => le_rfl, ?_, ?_, fun _ stamp member => ?_⟩
  all_goals
    unfold Track.write History.restart
    cases there : track.slot.present
  · simp
  · intro time member
    obtain ⟨member, kept⟩ := mem_filter.mp member
    exact ⟨of_decide_eq_true kept, (sound.seen time member).2.trans passed⟩
  · simp
  · intro time member
    obtain ⟨member, kept⟩ := mem_filter.mp member
    exact mem_filter.mpr ⟨sound.idle time member, kept⟩
  · have stale := sound.orphan there stamp member
    refine ⟨fun newer => ?_, by simp⟩
    dsimp only at newer
    omega
  · obtain ⟨noted, idle⟩ := sound.tombstone there stamp member
    refine ⟨fun newer => mem_filter.mpr ⟨noted ?_, decide_eq_true newer⟩,
      fun time member after => ?_⟩
    · exact (sound.since there).trans (passed.trans newer)
    · obtain ⟨member, kept⟩ := mem_filter.mp member
      exact mem_filter.mpr ⟨idle time member after, kept⟩

theorem Sound.look (there : track.slot.present = true) (acted : Bool) :
    (∀ time ∈ (track.history.look now acted).seen,
        (track.history.look now acted).since ≤ time ∧ time ≤ now) ∧
      ∀ time ∈ (track.history.look now acted).idle, time ∈ (track.history.look now acted).seen := by
  constructor
  · intro time member
    rcases mem_cons.mp member with rfl | earlier
    · exact ⟨(sound.since there).trans passed, le_rfl⟩
    · exact (sound.later passed).seen time earlier
  · intro time member
    cases acted with
    | true => exact mem_cons_of_mem _ (sound.idle time member)
    | false =>
      rcases mem_cons.mp member with rfl | earlier
      · exact mem_cons_self
      · exact mem_cons_of_mem _ (sound.idle time earlier)

/-- A look that does nothing keeps the tombstone as it is. -/
theorem Sound.look_idle (there : track.slot.present = true) :
    Sound grace now ⟨track.slot, track.history.look now false⟩ := by
  obtain ⟨seen, idle⟩ := sound.look passed there false
  refine ⟨fun gone => ?_, fun _ => (sound.since there).trans passed, seen, idle, fun _ stamp member => ?_⟩
  · rw [there] at gone
    cases gone
  · obtain ⟨noted, all⟩ := sound.tombstone there stamp member
    refine ⟨fun newer => mem_cons_of_mem _ (noted newer), fun time member after => ?_⟩
    rcases mem_cons.mp member with rfl | earlier
    · exact mem_cons_self
    · exact mem_cons_of_mem _ (all time earlier after)

theorem Sound.visit (there : track.slot.present = true) :
    Sound grace now (track.visit grace now live count) := by
  obtain ⟨⟨present, stamp⟩, history⟩ := track
  obtain rfl : present = true := there
  have since := (sound.since rfl).trans passed
  unfold Track.visit Slot.plan
  cases live with
  | true =>
    have later := sound.later passed
    rcases stamp with _ | stamp
    · simpa using later
    · rcases count with _ | count
      · simpa using later
      · exact ⟨fun gone => by simp [Slot.apply] at gone, fun _ => since, later.seen, sound.idle,
          fun _ stamp member => by simp [Slot.apply] at member⟩
  | false =>
    rcases stamp with _ | stamp
    · rcases count with _ | count
      · simpa using sound.look_idle passed rfl
      · obtain ⟨seen, idle⟩ := sound.look passed rfl true
        refine ⟨fun gone => by simp [Slot.apply] at gone, fun _ => since, by simpa using seen,
          by simpa using idle, fun _ stamp member => ?_⟩
        have now : now = stamp := by simpa [Slot.apply] using member
        subst now
        refine ⟨fun _ => mem_cons_self, fun time member after => ?_⟩
        exact absurd (seen time member).2 (not_le.mpr after)
    · by_cases aged : stamp + grace ≤ now
      · rcases count with _ | _ | count
        · simpa [aged] using sound.look_idle passed rfl
        · obtain ⟨seen, idle⟩ := sound.look passed rfl true
          refine ⟨fun _ other member => ?_, fun there => by simp [aged, Slot.apply] at there,
            by simpa [aged] using seen, by simpa [aged] using idle,
            fun there => by simp [aged, Slot.apply] at there⟩
          have same : stamp = other := by simpa [aged, Slot.apply] using member
          exact same ▸ aged
        · obtain ⟨seen, idle⟩ := sound.look passed rfl true
          exact ⟨fun _ other member => by simp [aged, Slot.apply] at member,
            fun there => by simp [aged, Slot.apply] at there, by simpa [aged] using seen,
            by simpa [aged] using idle, fun there => by simp [aged, Slot.apply] at there⟩
      · simpa [aged] using sound.look_idle passed rfl

end

/-- At an old tombstone: some sweep has seen the item as unused long enough ago
just when the tombstone is not older than the item, or such a sweep was idle. -/
theorem Sound.seen_iff (there : track.slot.present = true)
    (buried : track.slot.stamp = some stamp) (aged : stamp + grace ≤ now) :
    (∃ time ∈ track.history.seen, track.history.since ≤ time ∧ time + grace ≤ now) ↔
      track.history.since ≤ stamp ∨ ∃ time ∈ track.history.idle, time + grace ≤ now := by
  obtain ⟨noted, all⟩ := sound.tombstone there stamp buried
  constructor
  · rintro ⟨time, member, newer, early⟩
    by_cases after : stamp < time
    · exact Or.inr ⟨time, all time member after, early⟩
    · exact Or.inl (newer.trans (not_lt.mp after))
  · intro condition
    rcases condition with newer | ⟨time, idle, early⟩
    · exact ⟨stamp, noted newer, newer, aged⟩
    · have member := sound.idle time idle
      exact ⟨time, member, (sound.seen time member).1, early⟩

end

end Track

end TwoPhase
