import NodalMerge.Server.Promotion

namespace NodalMerge

open Function List Machine Option PromotionPhase Promotions StateGraph

/-- The record of a proposal or of a validation. -/
structure PromotionRecord.Drafted (record : PromotionRecord) : Prop where
  unapplied : record.lifecycle ≠ .applied
  recorded : record.lifecycle = .validated →
    ∃ hash, record.parentCanonicalHashAtValidate = some hash

namespace PromotionPhase

/-- The proposal whose record the next step reads, to go on with it. -/
def asks : PromotionPhase → Option String
  | .rechecking proposalId _ => some proposalId
  | .validating proposalId => some proposalId
  | .applying proposalId => some proposalId
  | _ => none

/-- The proposal that is being proposed or validated from a record already read. -/
def writes : PromotionPhase → Option String
  | .inserting proposalId _ => some proposalId
  | .retracing proposalId _ => some proposalId
  | .recomparing proposalId _ => some proposalId
  | .rereading proposalId _ => some proposalId
  | .marking proposalId _ _ => some proposalId
  | _ => none

/-- The proposal that is being applied, with the record already read. -/
def applies : PromotionPhase → Option (String × PromotionRecord)
  | .checking proposalId record => some (proposalId, record)
  | .committing proposalId record => some (proposalId, record)
  | .measuring proposalId record => some (proposalId, record)
  | .recording proposalId record _ => some (proposalId, record)
  | _ => none

/-- The audit node is not committed yet. -/
def precedes : PromotionPhase → Option String
  | .checking proposalId _ => some proposalId
  | .committing proposalId _ => some proposalId
  | _ => none

/-- The audit node is committed and the record not yet written. -/
def follows : PromotionPhase → Option String
  | .measuring proposalId _ => some proposalId
  | .recording proposalId _ _ => some proposalId
  | _ => none

/-- The record that will be stored for a proposal or a validation. -/
def drafted : PromotionPhase → Option PromotionRecord
  | .rechecking _ record => some record
  | .inserting _ record => some record
  | .marking _ record _ => some record
  | _ => none

/-- The request holds no record of a proposal. -/
structure Free (phase : PromotionPhase) : Prop where
  writes : phase.writes = none
  applies : phase.applies = none

/-- The request has nothing to store either. -/
structure Closed (phase : PromotionPhase) : Prop extends phase.Free where
  drafted : phase.drafted = none

/-- What the request will store is a proposal or a validation. -/
def Drafts (phase : PromotionPhase) : Prop := ∀ record ∈ phase.drafted, record.Drafted

variable {phase : PromotionPhase}

theorem Closed.drafts (closed : phase.Closed) : phase.Drafts := by
  intro record inside
  rw [closed.drafted] at inside
  cases inside

theorem applies_of_writes
    (writes : phase.writes = some proposalId) : phase.applies = none := by
  cases phase <;> first | rfl | cases writes

theorem applies_of_precedes
    (precedes : phase.precedes = some proposalId) :
    ∃ record, phase.applies = some (proposalId, record) := by
  cases phase <;> first | cases precedes; exact ⟨_, rfl⟩ | cases precedes

theorem applies_of_follows
    (follows : phase.follows = some proposalId) :
    ∃ record, phase.applies = some (proposalId, record) := by
  cases phase <;> first | cases follows; exact ⟨_, rfl⟩ | cases follows

theorem applies_of_asks
    (asks : phase.asks = some proposalId) : phase.applies = none := by
  cases phase <;> first | rfl | cases asks

theorem drafted_of_applies (applies : phase.applies = some held) : phase.drafted = none := by
  cases phase <;> first | rfl | cases applies

theorem follows_of_writes
    (writes : phase.writes = some proposalId) : phase.follows = none := by
  cases phase <;> first | rfl | cases writes

theorem follows_of_applies (free : phase.applies = none) :
    phase.follows = none := by
  cases phase <;> first | rfl | cases free

end PromotionPhase

namespace Promotions

/-- One step of a request, as far as the records are concerned. -/
inductive Advanced (env : PromotionEnv) (state : Promotions) :
    PromotionPhase → Promotions → PromotionPhase → Prop
  | rests {phase after : PromotionPhase} (uncommitted : phase.follows = none) (free : after.Free)
      (drafts : after.Drafts) : Advanced env state phase state after
  | opens {phase after : PromotionPhase} {proposalId : String}
      (asks : phase.asks = some proposalId) (writes : after.writes = some proposalId)
      (unapplied : ∀ record, state.store proposalId = some record → record.lifecycle ≠ .applied)
      (drafts : phase.Drafts → after.Drafts) : Advanced env state phase state after
  | holds {phase after : PromotionPhase} {proposalId : String}
      (held : phase.writes = some proposalId) (writes : after.writes = some proposalId)
      (drafts : after.Drafts) : Advanced env state phase state after
  | stores {phase after : PromotionPhase} {proposalId : String} {record : PromotionRecord}
      (held : phase.writes = some proposalId) (drafted : phase.drafted = some record)
      (closed : after.Closed) : Advanced env state phase (state.setStore proposalId record) after
  | takes {proposalId : String} {record : PromotionRecord}
      (found : state.store proposalId = some record) (validated : record.lifecycle = .validated) :
      Advanced env state (.applying proposalId) state (.checking proposalId record)
  | checks {proposalId : String} {record : PromotionRecord}
      (current : snapshotRoomCanonicalHash env (state.graphs record.parentRoomId) =
        .ok record.expectedParent) :
      Advanced env state (.checking proposalId record) state (.committing proposalId record)
  | fails {after : PromotionPhase} {proposalId : String} {record : PromotionRecord}
      {graph : StateGraph} (closed : after.Closed) :
      Advanced env state (.committing proposalId record)
        (state.setGraph record.parentRoomId graph) after
  | commits {proposalId : String} {record : PromotionRecord} {graph : StateGraph} :
      Advanced env state (.committing proposalId record)
        (state.setGraph record.parentRoomId graph) (.measuring proposalId record)
  | measures {proposalId : String} {record : PromotionRecord} {hash : String} :
      Advanced env state (.measuring proposalId record) state (.recording proposalId record hash)
  | loses {after : PromotionPhase} {proposalId : String} {record : PromotionRecord}
      {error : LineageRejected}
      (failed : snapshotRoomCanonicalHash env (state.graphs record.parentRoomId) = .error error)
      (closed : after.Closed) : Advanced env state (.measuring proposalId record) state after
  | records {after : PromotionPhase} {proposalId : String} {record : PromotionRecord}
      {hash : String} (closed : after.Closed) :
      Advanced env state (.recording proposalId record hash)
        (state.setStore proposalId (record.asApplied proposalId hash)) after

variable {state next : Promotions} {phase after : PromotionPhase}

theorem closed_answered :
    (PromotionPhase.answered answer).Closed := ⟨⟨rfl, rfl⟩, rfl⟩

theorem Advanced.closes (uncommitted : phase.follows = none) (closed : after.Closed) :
    Advanced env state phase state after :=
  .rests uncommitted closed.toFree closed.drafts

theorem Advanced.guarded {α : Type} {checked : Except PromotionRejected α}
    {follow : α → PromotionPhase} (uncommitted : phase.follows = none)
    (goes : ∀ value, checked = .ok value → Advanced env state phase state (follow value)) :
    Advanced env state phase state (guarded checked follow) := by
  cases checked with
  | error rejected => exact .closes uncommitted closed_answered
  | ok value => exact goes value rfl

theorem snapshot_ok {hash : String} (taken : state.snapshot env roomId = .ok hash) :
    snapshotRoomCanonicalHash env (state.graphs roomId) = .ok hash := by
  unfold snapshot at taken
  generalize snapshotRoomCanonicalHash env (state.graphs roomId) = measured at taken ⊢
  cases measured with
  | error error => cases taken
  | ok other => exact congrArg Except.ok (Except.ok.inj taken)

theorem setStore_self (state : Promotions) (proposalId : String) (record : PromotionRecord) :
    (state.setStore proposalId record).store proposalId = some record :=
  update_self ..

theorem setStore_of_ne (apart : other ≠ proposalId) (state : Promotions)
    (record : PromotionRecord) :
    (state.setStore proposalId record).store other = state.store other :=
  update_of_ne apart ..

theorem advanced_of_advance (stepped : state.advance env parents phase = some (next, after)) :
    Advanced env state phase next after := by
  cases phase with
  | idle => cases stepped
  | answered answer => cases stepped
  | panicked => cases stepped
  | recalling proposal key =>
    rw [advance] at stepped
    split at stepped
    · cases stepped
      exact .closes rfl ⟨⟨rfl, rfl⟩, rfl⟩
    · split at stepped
      all_goals
        cases stepped
        exact .closes rfl closed_answered
  | tracing proposal =>
    cases stepped
    refine .guarded rfl fun lineage _ => ?_
    split
    · exact .closes rfl closed_answered
    · exact .closes rfl ⟨⟨rfl, rfl⟩, rfl⟩
  | comparing proposal =>
    cases stepped
    refine .guarded rfl fun hash _ => ?_
    split
    · exact .closes rfl closed_answered
    · exact .closes rfl ⟨⟨rfl, rfl⟩, rfl⟩
  | reading proposal =>
    cases stepped
    refine .guarded rfl fun hash _ => .rests rfl ⟨rfl, rfl⟩ fun record inside => ?_
    rw [← Option.some.inj inside]
    exact ⟨nofun, nofun⟩
  | rechecking proposalId record =>
    rw [advance] at stepped
    split at stepped
    · next absent =>
      cases stepped
      refine .opens rfl rfl (fun record found => ?_) id
      rw [absent] at found
      cases found
    · split at stepped
      all_goals
        cases stepped
        exact .closes rfl closed_answered
  | inserting proposalId record =>
    cases stepped
    exact .stores rfl rfl closed_answered
  | validating proposalId =>
    rw [advance] at stepped
    split at stepped
    · cases stepped
      exact .closes rfl closed_answered
    · next record found =>
      split at stepped
      · cases stepped
        exact .closes rfl closed_answered
      · next unapplied =>
        cases stepped
        refine .opens rfl rfl (fun other same => ?_) nofun
        rwa [← Option.some.inj (found.symm.trans same)]
  | retracing proposalId record =>
    cases stepped
    exact .guarded rfl fun lineage _ => .holds rfl rfl nofun
  | recomparing proposalId record =>
    cases stepped
    refine .guarded rfl fun hash _ => ?_
    split
    · exact .closes rfl closed_answered
    · exact .holds rfl rfl nofun
  | rereading proposalId record =>
    cases stepped
    refine .guarded rfl fun hash _ => ?_
    split
    · exact .closes rfl closed_answered
    · refine .holds rfl rfl fun record inside => ?_
      rw [← Option.some.inj inside]
      exact ⟨nofun, fun _ => ⟨hash, rfl⟩⟩
  | marking proposalId record digest =>
    cases stepped
    exact .stores rfl rfl closed_answered
  | applying proposalId =>
    rw [advance] at stepped
    split at stepped
    · cases stepped
      exact .closes rfl closed_answered
    · next record found =>
      split at stepped
      · cases stepped
        exact .closes rfl closed_answered
      · next validated =>
        cases stepped
        exact .takes found validated
      · cases stepped
        exact .closes rfl closed_answered
  | checking proposalId record =>
    cases stepped
    refine .guarded rfl fun hash taken => ?_
    split
    · exact .closes rfl closed_answered
    · next current =>
      rw [not_not.mp current] at taken
      exact .checks (snapshot_ok taken)
  | committing proposalId record =>
    obtain ⟨order, -, outcome⟩ := map_eq_some_iff.mp stepped
    split at outcome
    · cases outcome
      have unchanged : Advanced env state (.committing proposalId record)
          (state.setGraph record.parentRoomId (state.graphs record.parentRoomId)) .panicked :=
        .fails ⟨⟨rfl, rfl⟩, rfl⟩
      rwa [setGraph, update_eq_self] at unchanged
    · cases outcome
      exact .fails closed_answered
    · cases outcome
      exact .commits
  | measuring proposalId record =>
    cases stepped
    unfold snapshot
    generalize taken : snapshotRoomCanonicalHash env (state.graphs record.parentRoomId) = measured
    cases measured with
    | error error => exact .loses taken closed_answered
    | ok hash => exact .measures
  | recording proposalId record hash =>
    cases stepped
    exact .records closed_answered

section
variable (env)

/-- Nothing comes between the steps of a request that applies a proposal: no other
request takes up the proposal while it is applied, it is not taken up for that while
another request is about to write it, the parent does not change between the check of
its hash and the commit, and it can be hashed after the commit. -/
def Undisturbed (state : Promotions) : PromotionAction → Prop
  | .advance request _ =>
    (∀ proposalId, (state.requests request).asks = some proposalId →
      ∀ other, ((state.requests other).applies.map Prod.fst) ≠ some proposalId) ∧
    (∀ proposalId, state.requests request = .applying proposalId →
      ∀ other, (state.requests other).writes ≠ some proposalId) ∧
    (∀ proposalId record, state.requests request = .committing proposalId record →
      ∀ other ≠ request, ∀ otherId otherRecord,
        state.requests other = .committing otherId otherRecord →
        otherRecord.parentRoomId ≠ record.parentRoomId) ∧
    ∀ proposalId record, state.requests request = .measuring proposalId record →
      ∃ hash, snapshotRoomCanonicalHash env (state.graphs record.parentRoomId) = .ok hash
  | .importNodes roomId _ _ => ∀ request proposalId record,
      state.requests request = .committing proposalId record → record.parentRoomId ≠ roomId
  | _ => True

/-- What holds of a request, given the store, the rooms and the audit nodes so far. -/
structure Fits (state : Promotions) (audits : List Audit) (phase : PromotionPhase) : Prop where
  drafts : phase.Drafts
  unapplied : ∀ proposalId, phase.writes = some proposalId →
    ∀ record, state.store proposalId = some record → record.lifecycle ≠ .applied
  copies : ∀ proposalId record, phase.applies = some (proposalId, record) →
    state.store proposalId = some record ∧ record.lifecycle = .validated
  unaudited : ∀ proposalId, phase.precedes = some proposalId →
    ∀ audit ∈ audits, audit.proposalId ≠ proposalId
  checked : ∀ proposalId record, phase = .committing proposalId record →
    snapshotRoomCanonicalHash env (state.graphs record.parentRoomId) = .ok record.expectedParent

/-- Two requests of which one applies a proposal that the other has taken up as well. -/
def Meets (one other : PromotionPhase) : Prop :=
  ∃ proposalId record, one.applies = some (proposalId, record) ∧
    (other.writes = some proposalId ∨ ∃ copy, other.applies = some (proposalId, copy))

/-- What holds in every run of undisturbed requests. -/
structure Orderly (state : Promotions) (audits : List Audit) : Prop where
  fits : ∀ request, Fits env state audits (state.requests request)
  apart : ∀ one other, one ≠ other → ¬ Meets (state.requests one) (state.requests other)
  stored : ∀ proposalId record, state.store proposalId = some record →
    record.lifecycle = .validated → ∃ hash, record.parentCanonicalHashAtValidate = some hash
  audited : ∀ audit ∈ audits,
    (∃ record, state.store audit.proposalId = some record ∧ record.lifecycle = .applied) ∨
      ∃ request, (state.requests request).follows = some audit.proposalId
  once : (audits.map Audit.proposalId).Nodup
  honest : ∀ audit ∈ audits, ∃ hash, audit.before = .ok hash ∧ audit.recorded = some hash

end

variable {audits added : List Audit} {request : Nat}

/-- Where the request gets meets no other request. -/
def Clear (state : Promotions) (request : Nat) (after : PromotionPhase) : Prop :=
  ∀ other ≠ request, ¬ Meets after (state.requests other) ∧ ¬ Meets (state.requests other) after

/-- Requests and audit nodes do not matter to a request that fits. -/
theorem Fits.congr (fits : Fits env state audits phase) (store : next.store = state.store)
    (graphs : next.graphs = state.graphs) : Fits env next audits phase :=
  ⟨fits.drafts, store ▸ fits.unapplied, store ▸ fits.copies, fits.unaudited,
    graphs ▸ fits.checked⟩

/-- One request goes on and the others still fit. -/
theorem Orderly.advance (orderly : Orderly env state audits) (kept : next.requests = state.requests)
    (fits : Fits env next more after)
    (others : ∀ other ≠ request, Fits env state audits (state.requests other) →
      Fits env next more (state.requests other)) (clear : Clear state request after)
    (stored : ∀ proposalId record, next.store proposalId = some record →
      record.lifecycle = .validated → ∃ hash, record.parentCanonicalHashAtValidate = some hash)
    (audited : ∀ audit ∈ more,
      (∃ record, next.store audit.proposalId = some record ∧ record.lifecycle = .applied) ∨
        after.follows = some audit.proposalId ∨
        ∃ other ≠ request, (state.requests other).follows = some audit.proposalId)
    (once : (more.map Audit.proposalId).Nodup)
    (honest : ∀ audit ∈ more, ∃ hash, audit.before = .ok hash ∧ audit.recorded = some hash) :
    Orderly env (next.setRequest request after) more := by
  have here : (next.setRequest request after).requests request = after :=
    update_self ..
  have there (other : Nat) (apart : other ≠ request) :
      (next.setRequest request after).requests other = state.requests other :=
    (update_of_ne apart ..).trans (congrFun kept other)
  refine ⟨fun other => ?_, fun one other different => ?_, stored, fun audit inside => ?_, once,
    honest⟩
  · by_cases same : other = request
    · rw [same, here]
      exact fits.congr rfl rfl
    · rw [there other same]
      exact (others other same (orderly.fits other)).congr rfl rfl
  · by_cases isOne : one = request
    · subst isOne
      rw [here, there other different.symm]
      exact (clear other different.symm).1
    · by_cases isOther : other = request
      · subst isOther
        rw [here, there one isOne]
        exact (clear one isOne).2
      · rw [there one isOne, there other isOther]
        exact orderly.apart one other different
  · obtain applied | follows | ⟨other, apart, follows⟩ := audited audit inside
    · exact .inl applied
    · exact .inr ⟨request, (congrArg _ here).trans follows⟩
    · exact .inr ⟨other, (congrArg _ (there other apart)).trans follows⟩

section
variable (released : phase.applies = none)
include released

theorem clear_of_released
    (unread : ∀ proposalId, phase.writes = some proposalId → ∀ other ≠ request,
      ∀ copy, (state.requests other).applies ≠ some (proposalId, copy)) :
    Clear state request phase := by
  refine fun other different => ⟨?_, ?_⟩
  · intro ⟨proposalId, record, applies, _⟩
    rw [released] at applies
    cases applies
  · intro ⟨proposalId, record, reads, held⟩
    obtain writes | ⟨copy, applies⟩ := held
    · exact unread proposalId writes other different record reads
    · rw [released] at applies
      cases applies

theorem fits_of_released (drafts : phase.Drafts)
    (unapplied : ∀ proposalId, phase.writes = some proposalId →
      ∀ record, state.store proposalId = some record → record.lifecycle ≠ .applied) :
    Fits env state audits phase := by
  refine ⟨drafts, unapplied, fun proposalId record applies => ?_, fun proposalId precedes => ?_,
    fun proposalId record same => ?_⟩
  · rw [released] at applies
    cases applies
  · obtain ⟨record, applies⟩ := applies_of_precedes precedes
    rw [released] at applies
    cases applies
  · rw [same] at released
    cases released

end

section
variable (free : phase.Free)
include free

theorem not_writes_of_free (writes : phase.writes = some held) : False := by
  rw [free.writes] at writes
  cases writes

theorem clear_of_free : Clear state request phase :=
  clear_of_released free.applies fun _ writes => (not_writes_of_free free writes).elim

theorem fits_of_free (drafts : phase.Drafts) : Fits env state audits phase :=
  fits_of_released free.applies drafts fun _ writes => (not_writes_of_free free writes).elim

end

section
variable (fits : Fits env state audits phase)
include fits

/-- The request goes on with the record it applies. -/
theorem Fits.applying (held : phase.applies = some (proposalId, record))
    (still : after.applies = some (proposalId, record)) (store : later.store = state.store)
    (unaudited : ∀ proposalId, after.precedes = some proposalId →
      ∀ audit ∈ more, audit.proposalId ≠ proposalId)
    (checked : ∀ proposalId record, after = .committing proposalId record →
      snapshotRoomCanonicalHash env (later.graphs record.parentRoomId) =
        .ok record.expectedParent) : Fits env later more after := by
  refine ⟨fun draft drafted => ?_, fun otherId writes => ?_, fun otherId copy reads => ?_,
    unaudited, checked⟩
  · rw [drafted_of_applies still] at drafted
    cases drafted
  · rw [applies_of_writes writes] at still
    cases still
  · rw [store]
    exact fits.copies otherId copy (held.trans (still.symm.trans reads))

/-- The rooms change, except for the parent of a request that is about to commit. -/
theorem Fits.setGraph {graph : StateGraph}
    (elsewhere : ∀ proposalId record, phase = .committing proposalId record →
      record.parentRoomId ≠ roomId) : Fits env (state.setGraph roomId graph) audits phase := by
  refine ⟨fits.drafts, fits.unapplied, fits.copies, fits.unaudited,
    fun proposalId record same => ?_⟩
  rw [Promotions.setGraph]
  dsimp only
  rw [update_of_ne (elsewhere proposalId record same)]
  exact fits.checked proposalId record same

/-- A record is stored that no request holds, or one that is not applied. -/
theorem Fits.setStore (unwritten : phase.writes = some proposalId → record.lifecycle ≠ .applied)
    (unread : ∀ copy, phase.applies ≠ some (proposalId, copy)) :
    Fits env (state.setStore proposalId record) audits phase := by
  refine ⟨fits.drafts, fun other writes => ?_, fun other copy applies => ?_, fits.unaudited,
    fits.checked⟩
  · by_cases same : other = proposalId
    · subst same
      rw [setStore_self]
      intro stored isStored
      rw [← Option.some.inj isStored]
      exact unwritten writes
    · rw [setStore_of_ne same]
      exact fits.unapplied other writes
  · have apart : other ≠ proposalId := fun same => unread copy (same ▸ applies)
    rw [setStore_of_ne apart]
    exact fits.copies other copy applies

/-- Audit nodes of proposals that the request does not apply. -/
theorem Fits.append
    (unread : ∀ audit ∈ added, ∀ copy, phase.applies ≠ some (audit.proposalId, copy)) :
    Fits env state (audits ++ added) phase := by
  refine ⟨fits.drafts, fits.unapplied, fits.copies, fun proposalId precedes audit inside => ?_,
    fits.checked⟩
  obtain old | new := mem_append.mp inside
  · exact fits.unaudited proposalId precedes audit old
  · obtain ⟨record, applies⟩ := applies_of_precedes precedes
    exact fun same => unread audit new record (same ▸ applies)

end

variable {parents : List NodeId} {record : PromotionRecord}

theorem audits_of_follows (here : state.requests request = phase)
    (stepped : state.advance env parents phase = some (next, after))
    (uncommitted : after.follows = none ∨
      ∀ proposalId record, phase ≠ .committing proposalId record) :
    state.audits env (.advance request parents) = [] := by
  rw [Promotions.audits, here]
  split
  · next proposalId record =>
    rw [stepped]
    split
    · next same =>
      obtain ⟨-, rfl⟩ := Prod.mk.inj (Option.some.inj same)
      obtain absent | other := uncommitted
      · cases absent
      · exact absurd rfl (other proposalId record)
    · rfl
  · rfl

section
variable (orderly : Orderly env state audits)
include orderly

/-- A request goes on and neither the store nor the rooms change. -/
theorem Orderly.proceed (fits : Fits env state audits after) (clear : Clear state request after)
    (follows : (state.requests request).follows = none ∨
      (state.requests request).follows = after.follows) :
    Orderly env (state.setRequest request after) audits := by
  refine orderly.advance rfl fits (fun _ _ => id) clear orderly.stored (fun audit inside => ?_)
    orderly.once orderly.honest
  obtain applied | ⟨other, committed⟩ := orderly.audited audit inside
  · exact .inl applied
  · by_cases same : other = request
    · rw [same] at committed
      obtain uncommitted | still := follows
      · rw [uncommitted] at committed
        cases committed
      · exact .inr (.inl (still.symm.trans committed))
    · exact .inr (.inr ⟨other, same, committed⟩)

/-- A request stores a record that no other request has read to apply it, and goes
no further. -/
theorem Orderly.store (closed : after.Closed)
    (alone : ∀ other ≠ request, ∀ copy, (state.requests other).applies ≠ some (proposalId, copy))
    (unwritten : ∀ other ≠ request, (state.requests other).writes = some proposalId →
      record.lifecycle ≠ .applied) (recorded : record.lifecycle = .validated →
      ∃ hash, record.parentCanonicalHashAtValidate = some hash)
    (audited : ∀ audit ∈ audits, audit.proposalId = proposalId → record.lifecycle = .applied)
    (follows : ∀ other, (state.requests request).follows = some other → other = proposalId) :
    Orderly env ((state.setStore proposalId record).setRequest request after) audits := by
  refine orderly.advance rfl (fits_of_free closed.toFree closed.drafts)
    (fun other different fits => fits.setStore (unwritten other different) (alone other different))
    (clear_of_free closed.toFree) (fun other stored found => ?_) (fun audit inside => ?_)
    orderly.once orderly.honest
  · by_cases same : other = proposalId
    · subst same
      rw [setStore_self] at found
      rw [← Option.some.inj found]
      exact recorded
    · rw [setStore_of_ne same] at found
      exact orderly.stored other stored found
  · by_cases same : audit.proposalId = proposalId
    · refine .inl ⟨record, ?_, audited audit inside same⟩
      rw [same, setStore_self]
    · obtain ⟨stored, found, applied⟩ | ⟨other, committed⟩ := orderly.audited audit inside
      · exact .inl ⟨stored, (setStore_of_ne same ..).trans found, applied⟩
      · by_cases isRequest : other = request
        · exact absurd (follows _ (isRequest ▸ committed)) same
        · exact .inr (.inr ⟨other, isRequest, committed⟩)

/-- The parent of the request changes, and an audit node may be added. -/
theorem Orderly.graph {graph : StateGraph}
    (here : state.requests request = .committing proposalId record)
    (fits : Fits env (state.setGraph record.parentRoomId graph) (audits ++ added) after)
    (elsewhere : ∀ other ≠ request, ∀ otherId otherRecord,
      state.requests other = .committing otherId otherRecord →
      otherRecord.parentRoomId ≠ record.parentRoomId) (clear : Clear state request after)
    (own : ∀ audit ∈ added, audit.proposalId = proposalId ∧ after.follows = some proposalId ∧
      ∃ hash, audit.before = .ok hash ∧ audit.recorded = some hash)
    (once : (added.map Audit.proposalId).Nodup) :
    Orderly env ((state.setGraph record.parentRoomId graph).setRequest request after)
      (audits ++ added) := by
  have applies : (state.requests request).applies = some (proposalId, record) := by
    rw [here]
    rfl
  have alone (other : Nat) (different : other ≠ request) (copy : PromotionRecord)
      (reads : (state.requests other).applies = some (proposalId, copy)) : False :=
    orderly.apart other request different ⟨proposalId, copy, reads, .inr ⟨record, applies⟩⟩
  have unaudited : ∀ audit ∈ audits, audit.proposalId ≠ proposalId :=
    (orderly.fits request).unaudited proposalId (by rw [here]; rfl)
  refine orderly.advance rfl fits (fun other different fits => ?_) clear orderly.stored
    (fun audit inside => ?_) ?_ fun audit inside =>
      (mem_append.mp inside).elim (orderly.honest audit) fun new => (own audit new).2.2
  · apply Fits.append (fits.setGraph (elsewhere other different))
    intro audit new copy
    rw [(own audit new).1]
    exact alone other different copy
  · obtain old | new := mem_append.mp inside
    · obtain applied | ⟨other, committed⟩ := orderly.audited audit old
      · exact .inl applied
      · refine .inr (.inr ⟨other, ?_, committed⟩)
        intro same
        rw [same, here] at committed
        cases committed
    · refine .inr (.inl ?_)
      rw [(own audit new).1]
      exact (own audit new).2.1
  · rw [map_append]
    apply List.Nodup.append orderly.once once
    intro id old new
    obtain ⟨audit, inside, rfl⟩ := mem_map.mp old
    obtain ⟨other, isNew, same⟩ := mem_map.mp new
    exact unaudited audit inside (same.symm.trans (own other isNew).1)

/-- A request holds a record that nobody applies. -/
theorem Orderly.write (writes : after.writes = some proposalId) (drafts : after.Drafts)
    (unapplied : ∀ record, state.store proposalId = some record → record.lifecycle ≠ .applied)
    (unread : ∀ other ≠ request, ∀ copy, (state.requests other).applies ≠ some (proposalId, copy))
    (uncommitted : (state.requests request).follows = none) :
    Orderly env (state.setRequest request after) audits := by
  have released := applies_of_writes writes
  refine orderly.proceed (fits_of_released released drafts fun otherId same => ?_)
    (clear_of_released released fun otherId same => ?_) (.inl uncommitted)
  · rw [← Option.some.inj (writes.symm.trans same)]
    exact unapplied
  · rw [← Option.some.inj (writes.symm.trans same)]
    exact unread

/-- A request takes up a validated record that no other request holds. -/
theorem Orderly.take (found : state.store proposalId = some record)
    (validated : record.lifecycle = .validated)
    (unread : ∀ other copy, (state.requests other).applies ≠ some (proposalId, copy))
    (unwritten : ∀ other, (state.requests other).writes ≠ some proposalId)
    (uncommitted : (state.requests request).follows = none) :
    Orderly env (state.setRequest request (.checking proposalId record)) audits := by
  have clear : Clear state request (.checking proposalId record) := by
    refine fun other _ => ⟨fun ⟨otherId, copy, reads, held⟩ => ?_,
      fun ⟨otherId, copy, reads, held⟩ => ?_⟩
    · obtain ⟨rfl, -⟩ := Prod.mk.inj (Option.some.inj reads)
      obtain writes | ⟨_, applies⟩ := held
      · exact unwritten other writes
      · exact unread other _ applies
    · obtain writes | ⟨_, applies⟩ := held
      · cases writes
      · obtain ⟨rfl, -⟩ := Prod.mk.inj (Option.some.inj applies)
        exact unread other copy reads
  have fits : Fits env state audits (.checking proposalId record) := by
    refine ⟨nofun, nofun,
      fun otherId copy reads => ?_, fun otherId precedes audit inside same => ?_,
      nofun⟩
    · cases reads
      exact ⟨found, validated⟩
    · cases precedes
      obtain ⟨stored, isStored, applied⟩ | ⟨other, committed⟩ := orderly.audited audit inside
      · rw [same, found] at isStored
        rw [← Option.some.inj isStored, validated] at applied
        cases applied
      · obtain ⟨copy, reads⟩ := applies_of_follows committed
        exact unread other copy (same ▸ reads)
  exact orderly.proceed fits clear (.inl uncommitted)

/-- Nobody can have committed for a proposal that a request is about to write. -/
theorem Orderly.unaudited_of_writes (held : (state.requests request).writes = some proposalId) :
    ∀ audit ∈ audits, audit.proposalId ≠ proposalId := by
  intro audit inside same
  obtain ⟨stored, found, applied⟩ | ⟨other, committed⟩ := orderly.audited audit inside
  · exact (orderly.fits request).unapplied proposalId held stored (same ▸ found) applied
  · obtain ⟨copy, reads⟩ := applies_of_follows committed
    rw [same] at reads
    by_cases isRequest : other = request
    · rw [isRequest, applies_of_writes held] at reads
      cases reads
    · exact orderly.apart other request isRequest ⟨proposalId, copy, reads, .inl held⟩

/-- One step of a request. -/
theorem Orderly.advanced (undisturbed : Undisturbed env state (.advance request parents))
    (stepped : state.advance env parents (state.requests request) = some (next, after)) :
    Orderly env (next.setRequest request after)
      (audits ++ state.audits env (.advance request parents)) := by
  have fits := orderly.fits request
  have apart : Clear state request (state.requests request) := fun other different =>
    ⟨orderly.apart request other different.symm, orderly.apart other request different⟩
  obtain ⟨free, unwritten, elsewhere, measurable⟩ := undisturbed
  have writes := @Orderly.unaudited_of_writes env state audits request
  generalize here : state.requests request = phase
    at stepped fits apart free unwritten elsewhere measurable writes
  have unread (proposalId : String) (asks : phase.asks = some proposalId) (other : Nat)
      (copy : PromotionRecord) : (state.requests other).applies ≠ some (proposalId, copy) := by
    intro reads
    apply free proposalId asks other
    rw [reads]
    rfl
  have silent (uncommitted : after.follows = none ∨
      ∀ proposalId record, phase ≠ .committing proposalId record) :
      audits ++ state.audits env (.advance request parents) = audits := by
    rw [audits_of_follows here stepped uncommitted, append_nil]
  cases advanced_of_advance stepped with
  | rests uncommitted released drafts =>
    rw [silent (.inl (follows_of_applies released.applies))]
    exact orderly.proceed (fits_of_free released drafts) (clear_of_free released)
      (.inl (here ▸ uncommitted))
  | @opens _ _ proposalId asks opened unapplied drafts =>
    rw [silent (.inl (follows_of_writes opened))]
    exact orderly.write opened (drafts fits.drafts) unapplied
      (fun other _ => unread proposalId asks other)
      (here ▸ follows_of_applies (applies_of_asks asks))
  | @holds _ _ proposalId held still drafts =>
    rw [silent (.inl (follows_of_writes still))]
    refine orderly.write still drafts (fits.unapplied proposalId held)
      (fun other different copy reads => ?_) (here ▸ follows_of_writes held)
    exact (apart other different).2 ⟨proposalId, copy, reads, .inl held⟩
  | @stores _ _ proposalId record held drafted closed =>
    have draft := fits.drafts record drafted
    rw [silent (.inl (follows_of_applies closed.applies))]
    refine orderly.store closed (fun other different copy reads => ?_)
      (fun _ _ _ => draft.unapplied) draft.recorded
      (fun audit inside same => absurd same (writes orderly held audit inside))
      fun other follows => ?_
    · exact (apart other different).2 ⟨proposalId, copy, reads, .inl held⟩
    · rw [here, follows_of_writes held] at follows
      cases follows
  | @takes proposalId record found validated =>
    rw [silent (.inl rfl)]
    exact orderly.take found validated (unread proposalId rfl) (unwritten proposalId rfl)
      (here ▸ rfl)
  | @checks proposalId record current =>
    rw [silent (.inl rfl)]
    refine orderly.proceed (fits.applying rfl rfl rfl fits.unaudited
      fun otherId other same => ?_) apart (.inl (here ▸ rfl))
    obtain ⟨rfl, rfl⟩ := PromotionPhase.committing.inj same
    exact current
  | @fails _ proposalId record graph closed =>
    rw [audits_of_follows here stepped (.inl (follows_of_applies closed.applies))]
    exact orderly.graph here (fits_of_free closed.toFree closed.drafts)
      (elsewhere proposalId record rfl) (clear_of_free closed.toFree)
      nofun .nil
  | @commits proposalId record graph =>
    obtain ⟨found, validated⟩ := fits.copies proposalId record rfl
    obtain ⟨hash, recorded⟩ := orderly.stored proposalId record found validated
    have current := fits.checked proposalId record rfl
    rw [PromotionRecord.expectedParent, recorded] at current
    rw [Promotions.audits, here]
    dsimp only
    rw [stepped]
    have measuring (more : List Audit) : Fits env (state.setGraph record.parentRoomId graph) more
        (.measuring proposalId record) :=
      fits.applying rfl rfl rfl nofun
        nofun
    refine orderly.graph here (measuring _) (elsewhere proposalId record rfl) apart
      (fun audit inside => ?_) (nodup_singleton _)
    rw [mem_singleton.mp inside]
    refine ⟨rfl, rfl, hash, current, ?_⟩
    rw [found]
    exact recorded
  | @measures proposalId record hash =>
    rw [silent (.inr nofun)]
    exact orderly.proceed (fits.applying rfl rfl rfl nofun
      nofun) apart (.inr (here ▸ rfl))
  | @loses _ proposalId record error failed closed =>
    obtain ⟨hash, taken⟩ := measurable proposalId record rfl
    rw [failed] at taken
    cases taken
  | @records _ proposalId record hash closed =>
    rw [silent (.inl (follows_of_applies closed.applies))]
    refine orderly.store closed (fun other different copy reads => ?_)
      (fun other different writes => ?_) nofun
      (fun _ _ _ => rfl) fun other follows => ?_
    · exact (apart other different).2 ⟨proposalId, copy, reads, .inr ⟨record, rfl⟩⟩
    · exact absurd ⟨proposalId, record, rfl, .inl writes⟩ (apart other different).1
    · rw [here] at follows
      exact (Option.some.inj follows).symm

end

theorem openRequest_closed (message : PromotionRequest) : (openRequest message).Closed := by
  cases message with
  | propose message =>
    rw [openRequest]
    split
    · exact closed_answered
    · split
      · exact ⟨⟨rfl, rfl⟩, rfl⟩
      · exact ⟨⟨rfl, rfl⟩, rfl⟩
  | validate message =>
    rw [openRequest]
    split
    · exact closed_answered
    · exact ⟨⟨rfl, rfl⟩, rfl⟩
  | apply message =>
    rw [openRequest]
    split
    · exact closed_answered
    · exact ⟨⟨rfl, rfl⟩, rfl⟩

/-- The requests stay where they are, and still fit. -/
theorem Orderly.around (orderly : Orderly env state audits)
    (requests : next.requests = state.requests) (store : next.store = state.store)
    (fits : ∀ request, Fits env next audits (state.requests request)) :
    Orderly env next audits := by
  refine ⟨fun request => ?_, ?_, ?_, ?_, orderly.once, orderly.honest⟩
  · rw [requests]
    exact fits request
  · rw [requests]
    exact orderly.apart
  · rw [store]
    exact orderly.stored
  · rw [requests, store]
    exact orderly.audited

/-- One action. -/
theorem Orderly.step {action : PromotionAction} (orderly : Orderly env state audits)
    (undisturbed : Undisturbed env state action) (stepped : state.perform env action = some next) :
    Orderly env next (audits ++ state.audits env action) := by
  cases action with
  | send request message =>
    rw [perform] at stepped
    split at stepped
    · next idle =>
      cases stepped
      have closed := openRequest_closed message
      change Orderly env _ (audits ++ [])
      rw [append_nil]
      exact orderly.proceed (fits_of_free closed.toFree closed.drafts)
        (clear_of_free closed.toFree) (.inl (idle ▸ rfl))
    · cases stepped
  | advance request parents =>
    obtain ⟨⟨after, phase⟩, advanced, rfl⟩ := map_eq_some_iff.mp stepped
    exact orderly.advanced undisturbed advanced
  | importNodes roomId nowMs nodes =>
    cases stepped
    change Orderly env _ (audits ++ [])
    rw [append_nil]
    exact orderly.around rfl rfl fun request =>
      (orderly.fits request).setGraph (undisturbed request)
  | setPolicy roomId policy =>
    cases stepped
    change Orderly env _ (audits ++ [])
    rw [append_nil]
    refine orderly.around rfl rfl fun request => ?_
    have fits := orderly.fits request
    refine ⟨fits.drafts, fits.unapplied, fits.copies, fits.unaudited,
      fun proposalId record same => ?_⟩
    rw [← fits.checked proposalId record same]
    by_cases here : record.parentRoomId = roomId
    · rw [here]
      have changed : (state.setGraph roomId ((state.graphs roomId).setPolicy policy)).graphs
          roomId = (state.graphs roomId).setPolicy policy := update_self ..
      rw [changed]
      rfl
    · rw [setGraph]
      dsimp only
      rw [update_of_ne here]
  | relink roomId lineage =>
    cases stepped
    change Orderly env _ (audits ++ [])
    rw [append_nil]
    exact orderly.around rfl rfl fun request => (orderly.fits request).congr rfl rfl

/-- What is applied stays applied. -/
def StaysApplied (before after : Promotions) : Prop :=
  ∀ proposalId record, before.store proposalId = some record → record.lifecycle = .applied →
    ∃ later, after.store proposalId = some later ∧ later.lifecycle = .applied

theorem StaysApplied.refl : StaysApplied state state :=
  fun _ record found applied => ⟨record, found, applied⟩

theorem StaysApplied.trans (first : StaysApplied one other) (second : StaysApplied other last) :
    StaysApplied one last := by
  intro proposalId record found applied
  obtain ⟨later, found, applied⟩ := first proposalId record found applied
  exact second proposalId later found applied

theorem staysApplied_of_orderly (orderly : Orderly env state audits)
    (stepped : state.perform env action = some next) : StaysApplied state next := by
  intro proposalId record found applied
  have unchanged (same : next.store = state.store) :
      ∃ later, next.store proposalId = some later ∧ later.lifecycle = .applied :=
    ⟨record, same ▸ found, applied⟩
  cases action with
  | send request message =>
    rw [perform] at stepped
    split at stepped
    · cases stepped
      exact unchanged rfl
    · cases stepped
  | advance request parents =>
    obtain ⟨⟨after, phase⟩, advanced, rfl⟩ := map_eq_some_iff.mp stepped
    have classified := advanced_of_advance advanced
    have unapplied := (orderly.fits request).unapplied
    generalize state.requests request = phase at classified unapplied
    cases classified with
    | @stores _ _ otherId draft held drafted closed =>
      have apart : proposalId ≠ otherId := fun same =>
        unapplied otherId held record (same ▸ found) applied
      exact ⟨record, (setStore_of_ne apart ..).trans found, applied⟩
    | @records _ otherId copy hash closed =>
      by_cases same : proposalId = otherId
      · subst same
        exact ⟨_, setStore_self .., rfl⟩
      · exact ⟨record, (setStore_of_ne same ..).trans found, applied⟩
    | _ => exact unchanged rfl
  | _ =>
    cases stepped
    exact unchanged rfl

/-- No request has started. -/
def start (graphs : String → StateGraph) (lineages : String → Option RoomLineage)
    (store : String → Option PromotionRecord) : Promotions :=
  ⟨graphs, lineages, store, fun _ => .idle⟩

end Promotions

/-- As long as nothing comes between the steps of a request that applies a proposal,
every audit node is committed on the parent state that was validated, no proposal has
two of them, and an applied record stays applied. -/
theorem promotion_applied_once (env : PromotionEnv) (graphs : String → StateGraph)
    (lineages : String → Option RoomLineage) (store : String → Option PromotionRecord)
    (stored : ∀ proposalId record, store proposalId = some record →
      record.lifecycle = .validated → ∃ hash, record.parentCanonicalHashAtValidate = some hash)
    (actions : List PromotionAction) (final : Promotions)
    (ran : exec (Promotions.perform env) (.start graphs lineages store) actions = some final)
    (undisturbed : Along (Promotions.perform env) (Promotions.Undisturbed env)
      (.start graphs lineages store) actions) :
    (∀ audit ∈ outputs (Promotions.perform env) (Promotions.audits env)
        (.start graphs lineages store) actions,
      ∃ hash, audit.before = .ok hash ∧ audit.recorded = some hash) ∧
    ((outputs (Promotions.perform env) (Promotions.audits env) (.start graphs lineages store)
      actions).map Promotions.Audit.proposalId).Nodup ∧
    Throughout (Promotions.perform env) Promotions.StaysApplied (.start graphs lineages store)
      actions := by
  have closed : PromotionPhase.idle.Closed := ⟨⟨rfl, rfl⟩, rfl⟩
  have kept := exec_history_along (motive := fun front middle =>
      Promotions.Orderly env middle (outputs (Promotions.perform env) (Promotions.audits env)
        (.start graphs lineages store) front) ∧
      Throughout (Promotions.perform env) Promotions.StaysApplied (.start graphs lineages store)
        front) (fun front middle action next before isGood stepped => ?_)
      ⟨⟨fun _ => fits_of_free closed.toFree closed.drafts,
        fun _ _ apart => (clear_of_free closed.toFree _ apart.symm).1, stored,
        nofun, .nil, nofun⟩,
        throughout_nil .refl⟩ undisturbed ran
  · exact ⟨kept.1.honest, kept.1.once, kept.2⟩
  · intro ⟨orderly, stays⟩
    rw [outputs_concat before]
    exact ⟨orderly.step isGood stepped, stays.concat .refl .trans before stepped
      (staysApplied_of_orderly orderly stepped)⟩

def PromotionEnv.sample : PromotionEnv :=
  ⟨.sample, Crypto.sampleKey 1, id, fun proposalId _ => utf8 proposalId⟩

def validatedRecord (hash : String) : PromotionRecord where
  parentRoomId := "p"
  childRoomId := "c"
  childCheckpointHash := hash
  payloadRef := "payload"
  parentCanonicalHashAtPropose := hash
  parentCanonicalHashAtValidate := some hash
  lifecycle := .validated
  proposalDigest := "digest"
  validationDigest := some "digest"
  parentNewCanonicalHash := none
  auditKey := none

def sampleStore (hash : String) : String → Option PromotionRecord :=
  update (fun _ => none) "id" (some (validatedRecord hash))

/-- A parent with one node, and one validated proposal in the store. -/
def Promotions.sample (hash : String) : Promotions :=
  .start (update (fun _ => .empty) "p" loadedGraph) (fun _ => none) (sampleStore hash)

def applyMessage : PromotionRequest :=
  .apply fun field => if field = "proposal_id" then some "id" else none

def sampleHash : String := (snapshotRoomCanonicalHash .sample loadedGraph).toOption.getD ""

theorem sampleStore_recorded (hash proposalId : String) (record : PromotionRecord)
    (found : sampleStore hash proposalId = some record) :
    ∃ hash, record.parentCanonicalHashAtValidate = some hash := by
  by_cases same : proposalId = "id"
  · rw [sampleStore, same, update_self] at found
    exact ⟨hash, Option.some.inj found ▸ rfl⟩
  · rw [sampleStore, update_of_ne same] at found
    cases found

section
variable {state next : Promotions} {parents : List NodeId}

theorem requests_of_advance (stepped : state.perform env (.advance request parents) = some next)
    (apart : other ≠ request) : next.requests other = state.requests other := by
  obtain ⟨⟨after, phase⟩, advanced, rfl⟩ := map_eq_some_iff.mp stepped
  have kept : after.requests = state.requests := by
    generalize state.requests request = asked at advanced
    cases advanced_of_advance advanced <;> rfl
  exact (update_of_ne apart ..).trans (congrFun kept other)

/-- No other request has started. -/
theorem undisturbed_of_alone (alone : ∀ other ≠ request, state.requests other = .idle)
    (uncommitted : (state.requests request).follows = none) :
    Promotions.Undisturbed env state (.advance request parents) := by
  refine ⟨fun proposalId asks other => ?_, fun proposalId applying other => ?_,
    fun _ _ _ other different _ _ same => ?_, fun proposalId record measuring => ?_⟩
  · by_cases same : other = request
    · rw [same, applies_of_asks asks]
      exact nofun
    · rw [alone other same]
      exact nofun
  · by_cases same : other = request
    · rw [same, applying]
      exact nofun
    · rw [alone other same]
      exact nofun
  · rw [alone other different] at same
    cases same
  · rw [measuring] at uncommitted
    cases uncommitted

end

/-- One request applies the proposal. -/
def singleApply : List PromotionAction :=
  [.send 0 applyMessage, .advance 0 [], .advance 0 [], .advance 0 [sampleNode.id]]

theorem single_apply_commits_once :
    ∃ hash actions final, exec (Promotions.perform .sample) (.sample hash) actions = some final ∧
      (outputs (Promotions.perform .sample) (Promotions.audits .sample) (.sample hash)
        actions).map Promotions.Audit.proposalId = ["id"] ∧
      ∀ audit ∈ outputs (Promotions.perform .sample) (Promotions.audits .sample) (.sample hash)
        actions, ∃ hash, audit.before = .ok hash ∧ audit.recorded = some hash := by
  have uncommitted (count : Fin 4) : ((exec (Promotions.perform .sample) (.sample sampleHash)
      (singleApply.take count)).all fun state => (state.requests 0).follows.isNone) = true := by
    revert count
    decide +kernel
  have committed : (exec (Promotions.perform .sample) (.sample sampleHash) singleApply).isSome ∧
      (outputs (Promotions.perform .sample) (Promotions.audits .sample) (.sample sampleHash)
        singleApply).map Promotions.Audit.proposalId = ["id"] := by decide +kernel
  obtain ⟨final, ran⟩ := isSome_iff_exists.mp committed.1
  refine ⟨sampleHash, singleApply, final, ran, committed.2, (promotion_applied_once .sample _ _ _
    (fun proposalId record found _ => sampleStore_recorded sampleHash proposalId record found) _ _
    ran ?_).1⟩
  have free {state : Promotions} (count : Fin 4)
      (reached : exec (Promotions.perform .sample) (.sample sampleHash) (singleApply.take count) =
        some state) : (state.requests 0).follows = none := by
    have all := uncommitted count
    rw [reached] at all
    exact isNone_iff_eq_none.mp all
  refine ⟨trivial, fun first sent => ?_⟩
  have idle (other : Nat) (apart : other ≠ 0) : first.requests other = .idle := by
    cases sent
    exact update_of_ne apart ..
  have one := (@exec_singleton _ _ (Promotions.perform .sample) _ _).trans sent
  refine ⟨undisturbed_of_alone idle (free 1 one), fun second read => ?_⟩
  have idle (other : Nat) (apart : other ≠ 0) : second.requests other = .idle :=
    (requests_of_advance read apart).trans (idle other apart)
  have two := exec_concat_iff.mpr ⟨first, one, read⟩
  refine ⟨undisturbed_of_alone idle (free 2 two), fun third checked => ?_⟩
  have idle (other : Nat) (apart : other ≠ 0) : third.requests other = .idle :=
    (requests_of_advance checked apart).trans (idle other apart)
  exact ⟨undisturbed_of_alone idle (free 3 (exec_concat_iff.mpr ⟨second, two, checked⟩)),
    fun _ _ => trivial⟩

/-- The audit node on top of the one node of the parent. -/
def auditId : NodeId :=
  (((Enumeration.ofList? loadedGraph.leaves [sampleNode.id]).bind
    (loadedGraph.applyLocal Crypto.sample (Crypto.sampleKey 1) 0
      [.map (.set (auditKeyOf "id") (utf8 "id"))])).bind fun outcome =>
        outcome.2.toOption).getD (Bytes.zero 32)

/-- Two requests read the validated record and check the parent before either of them
commits. -/
def doubleApply : List PromotionAction :=
  [.send 0 applyMessage, .advance 0 [], .send 1 applyMessage, .advance 1 [], .advance 0 [],
    .advance 1 [], .advance 0 [sampleNode.id], .advance 1 [auditId]]

theorem concurrent_applies_commit_twice :
    ∃ hash actions final, exec (Promotions.perform .sample) (.sample hash) actions = some final ∧
      (outputs (Promotions.perform .sample) (Promotions.audits .sample) (.sample hash)
        actions).map Promotions.Audit.proposalId = ["id", "id"] := by
  have committed : (exec (Promotions.perform .sample) (.sample sampleHash) doubleApply).isSome ∧
      (outputs (Promotions.perform .sample) (Promotions.audits .sample) (.sample sampleHash)
        doubleApply).map Promotions.Audit.proposalId = ["id", "id"] := by decide +kernel
  obtain ⟨final, ran⟩ := isSome_iff_exists.mp committed.1
  exact ⟨sampleHash, doubleApply, final, ran, committed.2⟩

end NodalMerge
