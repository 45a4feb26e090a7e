import NodalMerge.Crdt.Op
import NodalMerge.Library.Machine

namespace NodalMerge

open List Machine

abbrev Usize := Fin (u64Max + 1)

/-- The part of `TextProjection` that `record_dirty_range` works on. -/
structure DirtyRanges where
  lastDirtyRange : Option (Nat × Nat)
  dirtyRanges : List (Nat × Nat)
  dirtyRangeMergeCount : Nat

namespace DirtyRanges

/-- The loop over the ranges, with the count of merges. -/
def mergeLoop (newStart newEnd count : Nat) : List (Nat × Nat) → List (Nat × Nat) × Nat
  | [] => ([(newStart, newEnd)], count)
  | (s, e) :: rest =>
    if saturatingAdd e 1 < newStart then
      let (merged, count) := mergeLoop newStart newEnd count rest
      ((s, e) :: merged, count)
    else if s > saturatingAdd newEnd 1 then ((newStart, newEnd) :: (s, e) :: rest, count)
    else mergeLoop (min newStart s) (max newEnd e) (saturatingAdd count 1) rest

def recordDirtyRange (dirty : DirtyRanges) (start stop : Usize) : DirtyRanges :=
  let newStart := min start.val stop.val
  let newEnd := max start.val stop.val
  let last := some (newStart, newEnd)
  let count := dirty.dirtyRangeMergeCount
  match dirty.dirtyRanges.getLast? with
  | none => ⟨last, [(newStart, newEnd)], count⟩
  | some (tailStart, tailEnd) =>
    if newStart ≤ saturatingAdd tailEnd 1 then
      ⟨last, dirty.dirtyRanges.dropLast ++ [(min newStart tailStart, max newEnd tailEnd)],
        saturatingAdd count 1⟩
    else if newStart ≥ tailEnd then ⟨last, dirty.dirtyRanges ++ [(newStart, newEnd)], count⟩
    else
      let (merged, count) := mergeLoop newStart newEnd count dirty.dirtyRanges
      ⟨last, merged, count⟩

/-- The ranges with everything recorded so far. -/
structure Log where
  dirty : DirtyRanges
  recorded : List (Nat × Nat)

namespace Log

def start : Log := ⟨⟨none, [], 0⟩, []⟩

def span (call : Usize × Usize) : Nat × Nat :=
  (min call.1.val call.2.val, max call.1.val call.2.val)

def record (log : Log) (call : Usize × Usize) : Option Log :=
  some ⟨log.dirty.recordDirtyRange call.1 call.2, log.recorded ++ [span call]⟩

def ranges (log : Log) : List (Nat × Nat) := log.dirty.dirtyRanges

def Covers (ranges : List (Nat × Nat)) (position : Nat) : Prop :=
  ∃ range ∈ ranges, range.1 ≤ position ∧ position < range.2

/-- A recorded range ends at the position and one starts behind it. -/
def Gap (recorded : List (Nat × Nat)) (position : Nat) : Prop :=
  position ∈ recorded.map Prod.snd ∧ position + 1 ∈ recorded.map Prod.fst

/-- One range ends before the other one starts. -/
def Before (one other : Nat × Nat) : Prop := one.1 ≤ one.2 ∧ one.2 < other.1

structure Coalesced (log : Log) : Prop where
  sorted : log.ranges.Pairwise Before
  covers : ∀ position, Covers log.recorded position → Covers log.ranges position
  exact : ∀ position, Covers log.ranges position →
    Covers log.recorded position ∨ Gap log.recorded position

/-- The call does not start before the last range, or it reaches that one and stays behind the
others. -/
def StaysBehind (log : Log) (call : Usize × Usize) : Prop :=
  ∀ front tail, log.ranges = front ++ [tail] → tail.1 ≤ (span call).1 ∨
    (tail.1 ≤ (span call).2 + 1 ∧ ∀ earlier ∈ front, earlier.2 < (span call).1)

/-- What every call keeps: a recorded range lies in a dirty one, and the ends of a dirty range
were recorded. -/
structure Noted (log : Log) : Prop where
  inside : ∀ range ∈ log.recorded, range.1 ≤ range.2 ∧
    ∃ dirty ∈ log.ranges, dirty.1 ≤ range.1 ∧ range.2 ≤ dirty.2
  order : ∀ dirty ∈ log.ranges, dirty.1 ≤ dirty.2
  starts : log.ranges.map Prod.fst ⊆ log.recorded.map Prod.fst
  stops : log.ranges.map Prod.snd ⊆ log.recorded.map Prod.snd

variable {log next : Log} {call : Usize × Usize} {front : List (Nat × Nat)} {tail new : Nat × Nat}

theorem span_le (call : Usize × Usize) : (span call).1 ≤ (span call).2 := by
  simp only [span]
  omega

/-- A call puts a range behind the others or extends the last one; the loop is never reached. -/
theorem record_cases (ran : log.record call = some next) :
    next.recorded = log.recorded ++ [span call] ∧
      (((∀ front tail, log.ranges = front ++ [tail] → tail.2 + 1 < (span call).1) ∧
        next.ranges = log.ranges ++ [span call]) ∨
      ∃ front tail, log.ranges = front ++ [tail] ∧ (span call).1 ≤ tail.2 + 1 ∧ next.ranges =
        front ++ [(min (span call).1 tail.1, max (span call).2 tail.2)]) := by
  cases ran
  refine ⟨rfl, ?_⟩
  have bound : min call.1.val call.2.val ≤ u64Max := by omega
  obtain empty | ⟨front, tail, split⟩ := eq_nil_or_concat' log.ranges
  · refine .inl ⟨by simp [empty], ?_⟩
    rw [ranges] at empty
    simp [ranges, recordDirtyRange, empty, span]
  · rw [ranges] at split
    simp only [ranges, recordDirtyRange, split, getLast?_append, getLast?_singleton,
      Option.some_or, dropLast_concat, saturatingAdd]
    split_ifs with touches behind
    · exact .inr ⟨front, tail, rfl, by simp only [span]; omega, rfl⟩
    · refine .inl ⟨fun _ _ same => ?_, rfl⟩
      obtain ⟨rfl, ⟨⟩⟩ := append_inj' same rfl
      simp only [span]
      omega
    · omega

/-- Either way the last range is one that takes in the new range and those it replaces. -/
theorem record_last (ran : log.record call = some next) : ∃ front rest last,
    log.ranges = front ++ rest ∧ next.ranges = front ++ [last] ∧
      (∀ range ∈ span call :: rest, last.1 ≤ range.1 ∧ range.2 ≤ last.2) ∧
      last.1 ∈ (span call :: rest).map Prod.fst ∧ last.2 ∈ (span call :: rest).map Prod.snd := by
  obtain ⟨-, ⟨-, ranges⟩ | ⟨front, tail, split, -, ranges⟩⟩ := record_cases ran
  · exact ⟨log.ranges, [], span call, (append_nil _).symm, ranges, by simp⟩
  · refine ⟨front, [tail], _, split, ranges, by simp, ?_, ?_⟩
    · simpa using min_choice (span call).1 tail.1
    · simpa using max_choice (span call).2 tail.2

theorem Noted.record (noted : Noted log) (ran : log.record call = some next) : Noted next := by
  obtain ⟨front, rest, last, split, ranges, takes, start, stop⟩ := record_last ran
  have recorded := (record_cases ran).1
  obtain ⟨inside, order, starts, stops⟩ := noted
  rw [split] at inside order starts stops
  obtain ⟨wider, longer⟩ := takes _ (.head _)
  constructor
  · intro range member
    rw [recorded, mem_append, mem_singleton] at member
    rw [ranges]
    obtain old | rfl := member
    · obtain ⟨proper, dirty, within, low, high⟩ := inside range old
      refine ⟨proper, ?_⟩
      obtain early | replaced := mem_append.mp within
      · exact ⟨dirty, mem_append_left _ early, low, high⟩
      · obtain ⟨wider, longer⟩ := takes dirty (mem_cons_of_mem _ replaced)
        exact ⟨last, by simp, wider.trans low, high.trans longer⟩
    · exact ⟨span_le call, last, by simp, wider, longer⟩
  · rw [ranges, forall_mem_append, forall_mem_singleton]
    exact ⟨fun dirty early => order dirty (mem_append_left _ early),
      wider.trans ((span_le call).trans longer)⟩
  · rw [ranges, recorded]
    grind
  · rw [ranges, recorded]
    grind

theorem Noted.covers (noted : Noted log) (position : Nat)
    (covered : Covers log.recorded position) : Covers log.ranges position := by
  obtain ⟨range, member, low, high⟩ := covered
  obtain ⟨-, dirty, within, wider, longer⟩ := noted.inside range member
  exact ⟨dirty, within, wider.trans low, high.trans_le longer⟩

/-- More is recorded, so what was exact stays so. -/
theorem Coalesced.exact_mono (coalesced : Coalesced log) (covered : Covers log.ranges position) :
    Covers (log.recorded ++ more) position ∨ Gap (log.recorded ++ more) position := by
  obtain ⟨range, member, bounds⟩ | ⟨stop, start⟩ := coalesced.exact position covered
  · exact .inl ⟨range, mem_append_left _ member, bounds⟩
  · rw [Gap, map_append, map_append]
    exact .inr ⟨mem_append_left _ stop, mem_append_left _ start⟩

theorem Coalesced.before (coalesced : Coalesced log) (split : log.ranges = front ++ [tail]) :
    ∀ earlier ∈ front, Before earlier tail := by
  have sorted := coalesced.sorted
  rw [split, pairwise_append] at sorted
  exact fun earlier member => sorted.2.2 earlier member tail (mem_singleton_self _)

/-- It is enough that the new last range is behind the others and exact. -/
theorem Coalesced.concat (coalesced : Coalesced log) (later : Noted next)
    (split : log.ranges = front ++ rest) (ranges : next.ranges = front ++ [last])
    (recorded : next.recorded = log.recorded ++ more) (less : ∀ earlier ∈ front, Before earlier last)
    (exact : ∀ position, last.1 ≤ position → position < last.2 →
      Covers (log.recorded ++ more) position ∨ Gap (log.recorded ++ more) position) :
    Coalesced next := by
  have sorted := coalesced.sorted
  rw [split, pairwise_append] at sorted
  refine ⟨?_, later.covers, fun position covered => ?_⟩
  · rw [ranges, pairwise_append]
    exact ⟨sorted.1, pairwise_singleton .., by simpa using less⟩
  · rw [recorded]
    obtain ⟨dirty, member, low, high⟩ := covered
    rw [ranges, mem_append, mem_singleton] at member
    obtain old | rfl := member
    · exact coalesced.exact_mono ⟨dirty, split ▸ mem_append_left _ old, low, high⟩
    · exact exact position low high

/-- What is behind the last range is behind all. -/
theorem Coalesced.behind (coalesced : Coalesced log) (noted : Noted log)
    (behind : ∀ front tail, log.ranges = front ++ [tail] → tail.2 + 1 < new.1) :
    ∀ earlier ∈ log.ranges, Before earlier new := by
  intro earlier member
  have order := noted.order earlier member
  obtain ⟨front, tail, split⟩ := (eq_nil_or_concat' log.ranges).resolve_left (ne_nil_of_mem member)
  have gap := behind front tail split
  have last := noted.order tail (by simp [split])
  rw [split, mem_append, mem_singleton] at member
  obtain early | rfl := member
  · have less := (coalesced.before split earlier early).2
    exact ⟨order, by omega⟩
  · exact ⟨order, by omega⟩

/-- The new range and the last one leave at most one position between them. -/
theorem Coalesced.exact_extend (coalesced : Coalesced log) (noted : Noted log)
    (split : log.ranges = front ++ [tail]) (touches : new.1 ≤ tail.2 + 1)
    (reaches : tail.1 ≤ new.2 + 1) (low : min new.1 tail.1 ≤ position)
    (high : position < max new.2 tail.2) :
    Covers (log.recorded ++ [new]) position ∨ Gap (log.recorded ++ [new]) position := by
  have start := noted.starts (mem_map_of_mem (by simp [split] : tail ∈ log.ranges))
  have stop := noted.stops (mem_map_of_mem (by simp [split] : tail ∈ log.ranges))
  by_cases inSpan : new.1 ≤ position ∧ position < new.2
  · exact .inl ⟨new, by simp, inSpan⟩
  by_cases inTail : tail.1 ≤ position ∧ position < tail.2
  · exact coalesced.exact_mono ⟨tail, by simp [split], inTail⟩
  right
  rw [Gap, map_append, map_append]
  have between : (position = tail.2 ∧ position + 1 = new.1) ∨
      (position = new.2 ∧ position + 1 = tail.1) := by omega
  obtain ⟨ends, starts⟩ | ⟨ends, starts⟩ := between
  · rw [starts, ends]
    exact ⟨mem_append_left _ stop, by simp⟩
  · rw [starts, ends]
    exact ⟨by simp, mem_append_left _ start⟩

/-- Otherwise the end of the new range is covered without being recorded. -/
theorem Coalesced.reaches (coalesced : Coalesced next) (noted : Noted log) (later : Noted next)
    (proper : new.1 ≤ new.2) (recorded : next.recorded = log.recorded ++ [new])
    (split : log.ranges = front ++ [tail])
    (ranges : next.ranges = front ++ [(min new.1 tail.1, max new.2 tail.2)])
    (behind : ∀ earlier ∈ front, earlier.2 < new.1) : tail.1 ≤ new.2 + 1 := by
  by_contra short
  have order := noted.order tail (by simp [split])
  have apart : ∀ range ∈ next.recorded, range.1 ≤ new.2 + 1 → range.2 ≤ new.2 := by
    intro range member low
    rw [recorded, mem_append, mem_singleton] at member
    obtain old | rfl := member
    · obtain ⟨-, dirty, within, wider, longer⟩ := noted.inside range old
      rw [split, mem_append, mem_singleton] at within
      obtain early | rfl := within
      · have := behind dirty early
        omega
      · omega
    · exact le_rfl
  have covered : Covers next.ranges new.2 :=
    ⟨_, by rw [ranges]; exact mem_append_right _ (.head _), by simp only; omega⟩
  obtain ⟨range, member, low, high⟩ | ⟨-, start⟩ := coalesced.exact _ covered
  · have := apart range member (by omega)
    omega
  · obtain ⟨range, member, same⟩ := mem_map.mp start
    have := apart range member same.le
    have := (later.inside range member).1
    omega

theorem coalesced_record_iff (noted : Noted log) (coalesced : Coalesced log)
    (ran : log.record call = some next) : Coalesced next ↔ StaysBehind log call := by
  have later := noted.record ran
  have proper := span_le call
  obtain ⟨recorded, ⟨behind, ranges⟩ | ⟨front, tail, split, touches, ranges⟩⟩ := record_cases ran
  · have less := coalesced.behind noted behind
    refine iff_of_true (coalesced.concat later (append_nil _).symm ranges recorded less ?_) ?_
    · exact fun position low high => .inl ⟨_, by simp, low, high⟩
    · intro front tail split
      obtain ⟨order, less⟩ := less tail (by simp [split])
      exact .inl (by omega)
  constructor
  · intro kept front' tail' same
    obtain ⟨rfl, ⟨⟩⟩ := append_inj' (split.symm.trans same) rfl
    by_cases starts : tail.1 ≤ (span call).1
    · exact .inl starts
    · have behind : ∀ earlier ∈ front, earlier.2 < (span call).1 := by
        intro earlier member
        have := (kept.before ranges earlier member).2
        omega
      exact .inr ⟨kept.reaches noted later proper recorded split ranges behind, behind⟩
  · intro stays
    have less := coalesced.before split
    refine coalesced.concat later split ranges recorded (fun earlier member => ?_) ?_
    · obtain ⟨order, less⟩ := less earlier member
      obtain starts | ⟨-, behind⟩ := stays front tail split
      · exact ⟨order, by simp only; omega⟩
      · have := behind earlier member
        exact ⟨order, by simp only; omega⟩
    · have reaches : tail.1 ≤ (span call).2 + 1 := by
        obtain starts | ⟨reaches, -⟩ := stays front tail split
        · omega
        · exact reaches
      exact fun _ => coalesced.exact_extend noted split touches reaches

end Log

end DirtyRanges

open DirtyRanges

/-- The ranges stay coalesced along a run of calls exactly when no call starts before the last
range, other than to reach it from behind all others. -/
theorem dirty_ranges_coalesced_iff (calls : List (Usize × Usize)) :
    Always Log.record Log.Coalesced .start calls ↔
      Along Log.record Log.StaysBehind .start calls := by
  have total : ∀ log, ∃ final, exec Log.record log calls = some final := by
    induction calls with
    | nil => exact fun log => ⟨log, rfl⟩
    | cons call rest ih => exact fun log => ih _
  obtain ⟨final, ran⟩ := total .start
  refine always_iff_along (fun _ _ _ stepped noted => Log.Noted.record noted stepped)
    Log.coalesced_record_iff ⟨nofun, nofun, nofun, nofun⟩ ?_ ran
  exact ⟨.nil, fun _ => id, fun _ => .inl⟩

/-- The last call reaches back over the first range. -/
theorem dirty_ranges_overlap :
    ¬ Always Log.record Log.Coalesced .start [(4, 5), (10, 11), (2, 3)] := by
  intro always
  have sorted := (((always.2 _ rfl).2 _ rfl).2 _ rfl).sorted
  rw [show Log.ranges _ = [(4, 5), (2, 11)] from rfl] at sorted
  simp [Log.Before] at sorted

end NodalMerge
