import Mathlib.Data.Finset.Basic
import Mathlib.Data.List.Basic
import Mathlib.Tactic

namespace LinkedLog

open List

variable {Entry Id : Type} (id : Entry → Id) (parents : Entry → List Id)

/-- Every entry is new when appended and links only to entries already there. -/
inductive Linked : List Entry → Prop where
  | nil : Linked []
  | append (linked : Linked log) (fresh : id entry ∉ log.map id)
      (known : ∀ parent ∈ parents entry, parent ∈ log.map id) : Linked (log ++ [entry])

/-- An identifier of the log that no entry links to. -/
def IsTip (log : List Entry) (tip : Id) : Prop :=
  tip ∈ log.map id ∧ ∀ entry ∈ log, tip ∉ parents entry

/-- `Reaches log origin target`: following links from `origin` arrives at `target`. -/
inductive Reaches (log : List Entry) : Id → Id → Prop where
  | self : Reaches log origin origin
  | link (member : entry ∈ log) (edge : parent ∈ parents entry)
      (rest : Reaches log parent target) : Reaches log (id entry) target

/-- Identifiers that are known, or whose entry is fit and links to such identifiers only. -/
inductive Grounded (known : Id → Prop) (fit : Entry → Prop) : Id → Prop where
  | known (present : known target) : Grounded known fit target
  | placed (good : fit entry) (below : ∀ parent ∈ parents entry, Grounded known fit parent) :
      Grounded known fit (id entry)

variable {id parents}

variable {target : Id} {log : List Entry}

/-- A set that holds the known identifiers, and every fit entry whose links it
holds, holds all grounded ones. -/
theorem Grounded.mem_of_closed {known stored : Id → Prop}
    (grounded : Grounded id parents known fit target)
    (base : ∀ target, known target → stored target)
    (closed : ∀ entry, fit entry → (∀ parent ∈ parents entry, stored parent) → stored (id entry)) :
    stored target := by
  induction grounded with
  | known present => exact base _ present
  | placed good below ih => exact closed _ good ih

theorem Grounded.known_or_fit {known : Id → Prop}
    (grounded : Grounded id parents known fit target) :
    known target ∨ ∃ entry, fit entry ∧ id entry = target := by
  cases grounded with
  | known present => exact .inl present
  | placed good below => exact .inr ⟨_, good, rfl⟩

section
variable (linked : Linked id parents log)
include linked

theorem Linked.closed (member : entry ∈ log) (edge : parent ∈ parents entry) :
    parent ∈ log.map id := by
  induction linked with
  | nil => simp at member
  | @append log last linked fresh known ih =>
    rw [map_append, mem_append]
    rcases mem_append.mp member with earlier | same
    · exact .inl (ih earlier)
    · obtain rfl : entry = last := by simpa using same
      exact .inl (known parent edge)

/-- Induction along the links. -/
theorem Linked.forall_of_parents {Holds : Entry → Prop}
    (step : ∀ entry ∈ log, (∀ parent ∈ log, id parent ∈ parents entry → Holds parent) → Holds entry)
    : ∀ entry ∈ log, Holds entry := by
  induction linked with
  | nil => exact fun entry absent => (not_mem_nil absent).elim
  | @append log last linked fresh known ih =>
    -- Nothing in the log links to the last entry.
    have unlinked : ∀ entry ∈ log ++ [last], id last ∉ parents entry := by
      intro entry member edge
      rcases mem_append.mp member with earlier | same
      · exact fresh (linked.closed earlier edge)
      · exact fresh (known _ (mem_singleton.mp same ▸ edge))
    have onward : ∀ entry ∈ log ++ [last],
        (∀ parent ∈ log, id parent ∈ parents entry → Holds parent) → Holds entry := by
      intro entry member below
      refine step entry member fun parent inLog edge => ?_
      rcases mem_append.mp inLog with earlier | same
      · exact below parent earlier edge
      · exact (unlinked entry member (mem_singleton.mp same ▸ edge)).elim
    have earlier := ih fun entry member => onward entry (mem_append_left _ member)
    intro entry member
    exact onward entry member fun parent inLog _ => earlier parent inLog

theorem Linked.nodup : (log.map id).Nodup := by
  induction linked with
  | nil => simp
  | append linked fresh known ih =>
    rw [map_append, nodup_append]
    refine ⟨ih, by simp, ?_⟩
    intro first member second last same
    subst same
    obtain rfl : first = id _ := by simpa using last
    exact fresh member

end

theorem Reaches.mono (path : Reaches id parents log origin target)
    (subset : ∀ entry ∈ log, entry ∈ other) : Reaches id parents other origin target := by
  induction path with
  | self => exact .self
  | link member edge rest ih => exact .link (subset _ member) edge ih

section
variable (linked : Linked id parents log)
include linked

/-- No entry links to an identifier that is only being appended. -/
theorem Linked.isTip_last (fresh : id entry ∉ log.map id)
    (known : ∀ parent ∈ parents entry, parent ∈ log.map id) :
    IsTip id parents (log ++ [entry]) (id entry) := by
  refine ⟨by simp, ?_⟩
  intro other member edge
  rcases mem_append.mp member with earlier | same
  · exact fresh (linked.closed earlier edge)
  · obtain rfl : other = entry := by simpa using same
    exact fresh (known _ edge)

/-- The tips after an append: the appended entry, and the tips it does not link to. -/
theorem Linked.isTip_append (fresh : id entry ∉ log.map id)
    (known : ∀ parent ∈ parents entry, parent ∈ log.map id) :
    IsTip id parents (log ++ [entry]) tip ↔
      tip = id entry ∨ (IsTip id parents log tip ∧ tip ∉ parents entry) := by
  constructor
  · rintro ⟨member, unlinked⟩
    have rest : ∀ other ∈ log, tip ∉ parents other :=
      fun other earlier => unlinked other (mem_append_left _ earlier)
    rw [map_append, mem_append] at member
    rcases member with earlier | last
    · exact .inr ⟨⟨earlier, rest⟩, unlinked entry (by simp)⟩
    · exact .inl (by simpa using last)
  · rintro (rfl | ⟨⟨member, unlinked⟩, unlinkedLast⟩)
    · exact linked.isTip_last fresh known
    · refine ⟨by simp [mem_map.mp member], ?_⟩
      intro other present
      rcases mem_append.mp present with earlier | last
      · exact unlinked other earlier
      · obtain rfl : other = entry := by simpa using last
        exact unlinkedLast

/-- Every entry of a log lies below one of its tips. -/
theorem Linked.reached_from_tip (member : target ∈ log.map id) :
    ∃ tip, IsTip id parents log tip ∧ Reaches id parents log tip target := by
  induction linked generalizing target with
  | nil => simp at member
  | @append log entry linked fresh known ih =>
    have lastTip := linked.isTip_last fresh known
    have inside : ∀ other ∈ log, other ∈ log ++ [entry] := fun _ => mem_append_left _
    rw [map_append, mem_append] at member
    rcases member with earlier | last
    · obtain ⟨tip, isTip, path⟩ := ih earlier
      by_cases covered : tip ∈ parents entry
      · exact ⟨id entry, lastTip, .link (by simp) covered (path.mono inside)⟩
      · exact ⟨tip, (linked.isTip_append fresh known).mpr (.inr ⟨isTip, covered⟩), path.mono inside⟩
    · obtain rfl : target = id entry := by simpa using last
      exact ⟨id entry, lastTip, .self⟩

end

/-- Two logs agree when entries with one identifier have the same links. -/
def Agree (id : Entry → Id) (parents : Entry → List Id) (first second : List Entry) : Prop :=
  ∀ one ∈ first, ∀ two ∈ second, id one = id two → parents one = parents two

theorem Reaches.mem_of_agree (path : Reaches id parents first origin target)
    (agree : Agree id parents first second) (linked : Linked id parents second)
    (member : origin ∈ second.map id) : target ∈ second.map id := by
  induction path with
  | self => exact member
  | link entryMember edge rest ih =>
    obtain ⟨copy, present, same⟩ := mem_map.mp member
    rw [agree _ entryMember copy present same.symm] at edge
    exact ih (linked.closed present edge)

/-- A log that holds the tips of another one holds all of it. -/
theorem Linked.subset_of_tips (linked₁ : Linked id parents first)
    (linked₂ : Linked id parents second) (agree : Agree id parents first second)
    (tips : ∀ tip, IsTip id parents first tip → tip ∈ second.map id) :
    ∀ target ∈ first.map id, target ∈ second.map id := by
  intro target member
  obtain ⟨tip, isTip, path⟩ := linked₁.reached_from_tip member
  exact path.mem_of_agree agree linked₂ (tips tip isTip)

theorem Linked.front {front : List Entry} (linked : Linked id parents (front ++ back)) :
    Linked id parents front := by
  induction back using reverseRecOn with
  | nil => simpa using linked
  | append_singleton back last ih =>
    rw [← append_assoc] at linked
    generalize whole : front ++ back ++ [last] = log at linked
    cases linked with
    | nil => simp at whole
    | append linked fresh known =>
      obtain ⟨rfl, -⟩ := append_inj' whole rfl
      exact ih linked

theorem Linked.entry {front : List Entry} {entry : Entry}
    (linked : Linked id parents (front ++ entry :: back)) :
    id entry ∉ front.map id ∧ ∀ parent ∈ parents entry, parent ∈ front.map id := by
  rw [append_cons] at linked
  generalize whole : front ++ [entry] = log at linked
  have first := linked.front
  generalize whole : front ++ [entry] = log at first
  cases first with
  | nil => simp at whole
  | append linked fresh known =>
    obtain ⟨rfl, same⟩ := append_inj' whole rfl
    obtain rfl := (List.cons.inj same).1
    exact ⟨fresh, known⟩

/-- An entry may be put anywhere behind the entries it links to. -/
theorem Linked.insert {front back : List Entry} {entry : Entry}
    (linked : Linked id parents (front ++ back)) (fresh : id entry ∉ (front ++ back).map id)
    (known : ∀ parent ∈ parents entry, parent ∈ front.map id) :
    Linked id parents (front ++ entry :: back) := by
  induction back using reverseRecOn with
  | nil =>
    rw [append_nil] at linked fresh
    exact linked.append fresh known
  | append_singleton back last ih =>
    rw [← append_assoc] at linked fresh
    obtain ⟨lastFresh, lastKnown⟩ := linked.entry
    have earlier := ih linked.front fun member =>
      fresh (by rw [map_append]; exact mem_append_left _ member)
    rw [← cons_append, ← append_assoc]
    refine earlier.append ?_ fun parent edge => ?_
    · intro member
      simp only [map_append, map_cons, mem_append, mem_cons] at member
      rcases member with inFront | same | inBack
      · exact lastFresh (by simp only [map_append, mem_append]; exact .inl inFront)
      · exact fresh (by simp [← same])
      · exact lastFresh (by simp only [map_append, mem_append]; exact .inr inBack)
    · have before := lastKnown parent edge
      simp only [map_append, mem_append, map_cons, mem_cons] at before ⊢
      tauto

/-- A set of entries that contains what its members link to may come first. -/
theorem Linked.partition (linked : Linked id parents log)
    (chosen : Entry → Bool) (closed : ∀ entry ∈ log, chosen entry = true →
      ∀ other ∈ log, id other ∈ parents entry → chosen other = true) :
    Linked id parents (log.filter chosen ++ log.filter fun entry => !chosen entry) := by
  induction linked with
  | nil => exact .nil
  | @append log entry linked fresh known ih =>
    have within := ih fun other member isChosen third inLog =>
      closed other (mem_append_left _ member) isChosen third (mem_append_left _ inLog)
    have absent : id entry ∉ (log.filter chosen ++ log.filter fun entry => !chosen entry).map id := by
      intro member
      obtain ⟨other, inside, same⟩ := mem_map.mp member
      refine fresh (mem_map.mpr ⟨other, ?_, same⟩)
      rcases mem_append.mp inside with first | second
      · exact mem_of_mem_filter first
      · exact mem_of_mem_filter second
    cases isChosen : chosen entry with
    | true =>
      have chosenParents : ∀ parent ∈ parents entry, parent ∈ (log.filter chosen).map id := by
        intro parent edge
        obtain ⟨other, inLog, rfl⟩ := mem_map.mp (known parent edge)
        refine mem_map_of_mem (mem_filter.mpr ⟨inLog, ?_⟩)
        exact closed entry (by simp) isChosen other (mem_append_left _ inLog) edge
      simpa [filter_append, isChosen] using within.insert absent chosenParents
    | false =>
      have anywhere : ∀ parent ∈ parents entry,
          parent ∈ (log.filter chosen ++ log.filter fun entry => !chosen entry).map id := by
        intro parent edge
        obtain ⟨other, inLog, rfl⟩ := mem_map.mp (known parent edge)
        refine mem_map_of_mem ?_
        cases side : chosen other with
        | true => exact mem_append_left _ (mem_filter.mpr ⟨inLog, side⟩)
        | false => exact mem_append_right _ (mem_filter.mpr ⟨inLog, by simp [side]⟩)
      simpa [filter_append, isChosen] using within.append absent anywhere

theorem Reaches.trans (first : Reaches id parents log origin middle)
    (second : Reaches id parents log middle target) : Reaches id parents log origin target := by
  induction first with
  | self => exact second
  | link member edge rest ih => exact .link member edge (ih second)

/-- Entries may be replaced by others with the same identifier and links. -/
theorem Linked.map (linked : Linked id parents log)
    (same : ∀ entry ∈ log, id (copy entry) = id entry ∧ parents (copy entry) = parents entry) :
    Linked id parents (log.map copy) := by
  induction linked with
  | nil => exact .nil
  | @append log entry linked fresh known ih =>
    have earlier := fun other member => same other (mem_append_left [entry] member)
    have ids : (log.map copy).map id = log.map id := by
      rw [map_map]
      exact map_congr_left fun other member => (earlier other member).1
    obtain ⟨sameId, sameParents⟩ := same entry (by simp)
    rw [map_append]
    refine (ih earlier).append ?_ ?_
    · rwa [ids, sameId]
    · rwa [ids, sameParents]

/-- What an entry reaches comes before it. -/
theorem Linked.reached_before {front : List Entry} {entry : Entry}
    (linked : Linked id parents (front ++ entry :: back))
    (path : Reaches id parents (front ++ entry :: back) (id entry) target) :
    target = id entry ∨ target ∈ front.map id := by
  have whole := linked
  rw [append_cons] at linked
  have agree : Agree id parents (front ++ entry :: back) (front ++ [entry]) := by
    intro one inWhole two inFront same
    have inside : two ∈ front ++ entry :: back := by
      rw [append_cons]
      exact mem_append_left _ inFront
    rw [inj_on_of_nodup_map whole.nodup inWhole inside same]
  have member := path.mem_of_agree agree linked.front (by simp)
  simpa [or_comm] using member

/-- The entries that one entry reaches may come first, directly before it. -/
theorem Linked.ancestors_first {entry : Entry} (linked : Linked id parents log)
    (member : entry ∈ log) : ∃ front back, Linked id parents (front ++ entry :: back) ∧
      (front ++ entry :: back).Perm log ∧
      ∀ other ∈ front, Reaches id parents log (id entry) (id other) := by
  classical
  obtain ⟨before, behind, rfl⟩ := append_of_mem member
  let reached (other : Entry) : Bool :=
    decide (Reaches id parents (before ++ entry :: behind) (id entry) (id other))
  have parted := linked.partition reached fun one inLog isReached two _ edge => by
    simp only [reached, decide_eq_true_eq] at isReached ⊢
    exact isReached.trans (.link inLog edge .self)
  have behindUnreached : behind.filter reached = [] := by
    rw [filter_eq_nil_iff]
    intro other later isReached
    have nodup := linked.nodup
    rw [map_append, map_cons, nodup_append, nodup_cons] at nodup
    rcases linked.reached_before (of_decide_eq_true isReached) with same | earlier
    · exact nodup.2.1.1 (same ▸ mem_map_of_mem later)
    · exact nodup.2.2 _ earlier _ (.tail _ (mem_map_of_mem later)) rfl
  have entryReached : reached entry = true := decide_eq_true .self
  have chosen : (before ++ entry :: behind).filter reached = before.filter reached ++ [entry] := by
    rw [filter_append, filter_cons, if_pos entryReached, behindUnreached]
  refine ⟨before.filter reached, (before ++ entry :: behind).filter fun other => !reached other,
    ?_, ?_, fun other inside => of_decide_eq_true (mem_filter.mp inside).2⟩
  · rw [append_cons, ← chosen]
    exact parted
  · rw [append_cons, ← chosen]
    exact filter_append_perm reached _

/-- What holds of every entry given those before it, after an append. -/
theorem forall_split_concat_iff {Holds : List Entry → Entry → Prop} :
    (∀ front entry back, log ++ [last] = front ++ entry :: back → Holds front entry) ↔
      (∀ front entry back, log = front ++ entry :: back → Holds front entry) ∧ Holds log last := by
  constructor
  · intro all
    refine ⟨fun front entry back split => ?_, all log last [] rfl⟩
    exact all front entry (back ++ [last]) (by rw [split]; simp)
  · rintro ⟨all, final⟩ front entry back split
    cases back using reverseRecOn with
    | nil =>
      obtain ⟨rfl, same⟩ := append_inj' split rfl
      rw [← (List.cons.inj same).1]
      exact final
    | append_singleton back tail _ =>
      rw [← cons_append, ← append_assoc] at split
      exact all front entry back (append_inj' split rfl).1

end LinkedLog
