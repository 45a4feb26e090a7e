import NodalMerge.Gc.StagedSafety
import NodalMerge.Library.Machine

namespace NodalMerge

open AssetTable List Machine
open Bool (false_eq_true)

/-- Where a hard sweep stands, by the call that comes next. -/
inductive SweepPhase where
  /-- `iter_pending_older_than` -/
  | waiting (cutoff : SystemTime)
  /-- `is_pinned` -/
  | scanning (row : AssetRecord) (rest : List AssetRecord) (remaining : Nat)
  /-- `head` -/
  | checking (row : AssetRecord) (rest : List AssetRecord) (remaining : Nat)
  /-- `delete` -/
  | deleting (row : AssetRecord) (rest : List AssetRecord) (remaining : Nat)
  /-- `set_deleted` -/
  | marking (row : AssetRecord) (rest : List AssetRecord) (remaining : Nat)
  | finished

namespace SweepPhase

/-- The head of the loop: rows that the inventory pins are passed without a call. -/
def scan : List AssetRecord → Nat → SweepPhase
  | [], _ => .finished
  | row :: rest, remaining =>
    if remaining = 0 then .finished
    else if row.isAdminPinned then scan rest remaining
    else .scanning row rest remaining

def begin (cfg : GcConfig) (run : GcRun) : SweepPhase :=
  (checkedSub run.now cfg.graceWindow).elim .finished .waiting

def nextCall : SweepPhase → Option StoreCall
  | .waiting _ => some .iterPendingOlderThan
  | .scanning row _ _ => some (.isPinnedAgain row.hash)
  | .checking row _ _ => some (.head row.hash)
  | .deleting row _ _ => some (.delete row.hash)
  | .marking row _ _ => some (.setDeleted row.hash)
  | .finished => none

/-- The next call and how the sweep goes on after it. -/
def answer (cfg : GcConfig) (run : GcRun) (store : GcStore) : SweepPhase → GcStore × SweepPhase
  | .waiting cutoff =>
    if run.fails .iterPendingOlderThan then (store, .finished)
    else (store, scan (store.assets.iterPendingOlderThan run.hardOrder cutoff) cfg.maxDeletesPerRun)
  | .scanning row rest remaining =>
    if run.fails (.isPinnedAgain row.hash) then (store, .finished)
    else if run.pinned row.hash then (store, scan rest remaining)
    else if cfg.requireHeadBeforeDelete then (store, .checking row rest remaining)
    else (store, .deleting row rest remaining)
  | .checking row rest remaining =>
    if run.fails (.head row.hash) then (store, .finished)
    else if row.object ∉ store.objects then (store, .marking row rest remaining)
    else (store, .deleting row rest remaining)
  | .deleting row rest remaining =>
    if run.fails (.delete row.hash) then (store, .finished)
    else
      let store := { store with objects := store.objects.erase row.object }
      if run.fails (.deleteReply row.hash) then (store, .finished)
      else (store, .marking row rest (remaining - 1))
  | .marking row rest remaining =>
    if run.fails (.setDeleted row.hash) then (store, .finished)
    else ({ store with assets := store.assets.setDeleted row.hash run.now }, scan rest remaining)
  | .finished => (store, .finished)

/-- The rows whose `set_deleted` may still come. -/
def todo : SweepPhase → List AssetRecord
  | .waiting _ => []
  | .scanning row rest _ => row :: rest
  | .checking row rest _ => row :: rest
  | .deleting row rest _ => row :: rest
  | .marking row rest _ => row :: rest
  | .finished => []

/-- The rows whose `delete` may still come. -/
def undeleted : SweepPhase → List AssetRecord
  | .marking _ rest _ => rest
  | phase => phase.todo

theorem nextCall_delete {phase : SweepPhase} {hash : String}
    (next : phase.nextCall = some (.delete hash)) :
    ∃ row rest remaining, phase = .deleting row rest remaining ∧ row.hash = hash := by
  cases phase with
  | deleting row rest remaining =>
    exact ⟨row, rest, remaining, rfl, StoreCall.delete.inj (Option.some.inj next)⟩
  | finished => cases next
  | _ => cases Option.some.inj next

theorem nextCall_setDeleted {phase : SweepPhase} {hash : String}
    (next : phase.nextCall = some (.setDeleted hash)) :
    ∃ row rest remaining, phase = .marking row rest remaining ∧ row.hash = hash := by
  cases phase with
  | marking row rest remaining =>
    exact ⟨row, rest, remaining, rfl, StoreCall.setDeleted.inj (Option.some.inj next)⟩
  | finished => cases next
  | _ => cases Option.some.inj next

/-- The sweep writes rows by `set_deleted` only. -/
theorem answer_assets (cfg : GcConfig) (run : GcRun) (store : GcStore) (phase : SweepPhase) :
    (phase.answer cfg run store).1.assets = store.assets ∨
      ∃ hash, (phase.answer cfg run store).1.assets = store.assets.setDeleted hash run.now := by
  cases phase with
  | marking row rest remaining =>
    dsimp only [answer]
    split
    · exact Or.inl rfl
    · exact Or.inr ⟨row.hash, rfl⟩
  | _ =>
    left
    dsimp only [answer]
    repeat' split
    all_goals rfl

theorem scan_todo (rows : List AssetRecord) (remaining : Nat) :
    (scan rows remaining).todo.Sublist rows ∧
      (scan rows remaining).undeleted = (scan rows remaining).todo ∧
      ∀ cutoff, scan rows remaining ≠ .waiting cutoff := by
  induction rows with
  | nil => exact ⟨List.Sublist.refl _, rfl, fun _ => by simp [scan]⟩
  | cons row rest ih =>
    unfold scan
    split
    · exact ⟨nil_sublist _, rfl, fun _ => by simp⟩
    split
    · exact ⟨ih.1.cons row, ih.2⟩
    · exact ⟨List.Sublist.refl _, rfl, fun _ => by simp⟩

end SweepPhase

/-- A step of an upload or the next call of the sweep. -/
inductive RaceAction where
  | write (hash : String)
  | upsert (hash : String) (now : SystemTime)
  | call (call : StoreCall)
  deriving DecidableEq

/-- The store, the sweep, and the uploads that have written their object only. -/
structure Race where
  store : GcStore
  phase : SweepPhase
  uploading : List String

namespace Race

def step (cfg : GcConfig) (run : GcRun) (race : Race) : RaceAction → Option Race
  | .write hash => some
    { race with
      store := { race.store with objects := insert (cfg.keyScheme hash) race.store.objects }
      uploading := hash :: race.uploading }
  | .upsert hash now =>
    if hash ∈ race.uploading then some
      { race with
        store := { race.store with
          assets := race.store.assets.upsertActiveSeen (cfg.keyScheme hash) uploadMarkSentinel hash
            (toUnixMillis now) }
        uploading := race.uploading.erase hash }
    else none
  | .call call =>
    if race.phase.nextCall = some call then
      let (store, phase) := race.phase.answer cfg run race.store
      some { race with store, phase }
    else none

/-- The race after the next call of the sweep. -/
def answered (cfg : GcConfig) (run : GcRun) (race : Race) : Race :=
  { race with
    store := (race.phase.answer cfg run race.store).1
    phase := (race.phase.answer cfg run race.store).2 }

theorem step_call {race after : Race} (stepped : race.step cfg run (.call call) = some after) :
    race.phase.nextCall = some call ∧ after = race.answered cfg run := by
  obtain ⟨enabled, result⟩ := Option.ite_none_right_eq_some.mp stepped
  exact ⟨enabled, (Option.some.inj result).symm⟩

/-- Before the sweep: rows point at the objects of their hashes, and the objects
of uploads on their way are there. -/
structure Ready (cfg : GcConfig) (run : GcRun) (race : Race) : Prop where
  phase : race.phase = .begin cfg run
  located : race.store.assets.Located cfg.keyScheme
  written : ∀ hash ∈ race.uploading, cfg.keyScheme hash ∈ race.store.objects

end Race

def Upserted (hash : String) (actions : List RaceAction) : Prop :=
  ∃ now, .upsert hash now ∈ actions

theorem upserted_append {hash : String} :
    Upserted hash (front ++ back) ↔ Upserted hash front ∨ Upserted hash back := by
  simp only [Upserted, mem_append, exists_or]

theorem upserted_call {hash : String} :
    Upserted hash (front ++ [.call call]) ↔ Upserted hash front := by
  simp [Upserted]

theorem upserted_write {hash : String} :
    Upserted hash (front ++ [.write other]) ↔ Upserted hash front := by
  simp [Upserted]

/-- The last word on the row of a hash is a `set_deleted` after an upsert. -/
def Buried (run : GcRun) (hash : String) (actions : List RaceAction) : Prop :=
  ∃ front back, actions = front ++ .call (.setDeleted hash) :: back ∧
    run.fails (.setDeleted hash) = false ∧ Upserted hash front ∧ ¬ Upserted hash back

theorem Buried.concat {hash : String} (buried : Buried run hash actions)
    (other : ¬ Upserted hash [action]) : Buried run hash (actions ++ [action]) := by
  obtain ⟨front, back, rfl, done, early, late⟩ := buried
  refine ⟨front, back ++ [action], by simp, done, early, ?_⟩
  rw [upserted_append]
  exact not_or.mpr ⟨late, other⟩

/-- What holds after some actions of a race. -/
structure Raced (cfg : GcConfig) (run : GcRun) (actions : List RaceAction) (race : Race) : Prop where
  located : race.store.assets.Located cfg.keyScheme
  written : ∀ hash, hash ∈ race.uploading ∨ Upserted hash actions →
    cfg.keyScheme hash ∈ race.store.objects ∨ .call (.delete hash) ∈ actions
  waiting : ∀ cutoff, race.phase = .waiting cutoff → ∀ call, .call call ∉ actions
  distinct : (race.phase.todo.map AssetRecord.hash).Nodup
  listed : ∀ row ∈ race.phase.todo, row.object = cfg.keyScheme row.hash ∧
    .call (.setDeleted row.hash) ∉ actions ∧
    (Upserted row.hash actions ∨ race.store.assets.assetState row.hash = some .pendingDelete)
  undeleted : ∀ row ∈ race.phase.undeleted, .call (.delete row.hash) ∉ actions
  revived : ∀ hash, Upserted hash actions → race.store.assets.assetState hash = some .active ∨
    (race.store.assets.assetState hash = some .deleted ∧ Buried run hash actions)

namespace Raced

variable {cfg : GcConfig} {hash : String}

theorem start (ready : race.Ready cfg run) : Raced cfg run [] race where
  located := ready.located
  written hash early := Or.inl (ready.written hash (early.resolve_right (by simp [Upserted])))
  waiting _ _ _ := not_mem_nil
  distinct := by
    rw [ready.phase, SweepPhase.begin]
    cases checkedSub run.now cfg.graceWindow <;> simp [SweepPhase.todo]
  listed := by
    rw [ready.phase, SweepPhase.begin]
    cases checkedSub run.now cfg.graceWindow <;> simp [SweepPhase.todo]
  undeleted _ _ := not_mem_nil
  revived := by simp [Upserted]

theorem write (raced : Raced cfg run actions race) :
    Raced cfg run (actions ++ [.write hash])
      { race with
        store := { race.store with objects := insert (cfg.keyScheme hash) race.store.objects }
        uploading := hash :: race.uploading } where
  located := raced.located
  written other early := by
    rw [upserted_write, mem_cons, or_assoc] at early
    rcases early with rfl | early
    · exact Or.inl (Finset.mem_insert_self _ _)
    · rcases raced.written other early with present | deleted
      · exact Or.inl (Finset.mem_insert_of_mem present)
      · exact Or.inr (mem_append_left _ deleted)
  waiting cutoff phase call := by simpa using raced.waiting cutoff phase call
  distinct := raced.distinct
  listed row member := by simpa [upserted_write] using raced.listed row member
  undeleted row member := by simpa using raced.undeleted row member
  revived other upserted := by
    rw [upserted_write] at upserted
    refine (raced.revived other upserted).imp_right fun gone => ⟨gone.1, gone.2.concat ?_⟩
    simp [Upserted]

theorem upsert (raced : Raced cfg run actions race) (scheduled : hash ∈ race.uploading) :
    Raced cfg run (actions ++ [.upsert hash now])
      { race with
        store := { race.store with
          assets := race.store.assets.upsertActiveSeen (cfg.keyScheme hash) uploadMarkSentinel hash
            (toUnixMillis now) }
        uploading := race.uploading.erase hash } where
  located := raced.located.upsertActiveSeen
  written other early := by
    have known : other ∈ race.uploading ∨ Upserted other actions := by
      rw [upserted_append, ← or_assoc] at early
      rcases early with (later | earlier) | here
      · exact Or.inl (mem_of_mem_erase later)
      · exact Or.inr earlier
      · have same : other = hash := by simpa [Upserted] using here
        exact Or.inl (same ▸ scheduled)
    exact (raced.written other known).imp_right (mem_append_left _)
  waiting cutoff phase call := by simpa using raced.waiting cutoff phase call
  distinct := raced.distinct
  listed row member := by
    obtain ⟨object, unmarked, state⟩ := raced.listed row member
    refine ⟨object, by simpa using unmarked, ?_⟩
    rw [upserted_append]
    by_cases here : row.hash = hash
    · exact Or.inl (Or.inr (by simp [Upserted, here]))
    · refine state.imp Or.inl fun pending => ?_
      rw [← pending]
      exact assetState_upsertActiveSeen_of_ne here
  undeleted row member := by simpa using raced.undeleted row member
  revived other upserted := by
    by_cases here : other = hash
    · subst here
      exact Or.inl assetState_upsertActiveSeen_self
    · dsimp only
      rw [assetState_upsertActiveSeen_of_ne here]
      have single : ¬ Upserted other [.upsert hash now] := by simp [Upserted, here]
      have earlier := (upserted_append.mp upserted).resolve_right single
      exact (raced.revived other earlier).imp_right fun gone => ⟨gone.1, gone.2.concat single⟩

section
variable (raced : Raced cfg run actions race)
include raced

/-- A call that leaves the rows as they are. -/
theorem advance (started : ∀ cutoff, phase ≠ .waiting cutoff)
    (todo : phase.todo.Sublist race.phase.todo)
    (unmarked : ∀ row ∈ phase.todo, call ≠ .setDeleted row.hash)
    (undeleted : ∀ row ∈ phase.undeleted, row ∈ race.phase.undeleted ∧ call ≠ .delete row.hash)
    (kept : ∀ hash, cfg.keyScheme hash ∈ race.store.objects → cfg.keyScheme hash ∈ objects ∨
      call = .delete hash) : Raced cfg run (actions ++ [.call call])
      { race with store := { race.store with objects }, phase } where
  located := raced.located
  written hash early := by
    rw [upserted_call] at early
    rcases raced.written hash early with present | deleted
    · refine (kept hash present).imp_right fun here => ?_
      rw [here]
      exact mem_append_right _ (mem_singleton_self _)
    · exact Or.inr (mem_append_left _ deleted)
  waiting cutoff phase := absurd phase (started cutoff)
  distinct := (todo.map AssetRecord.hash).nodup raced.distinct
  listed row member := by
    obtain ⟨object, early, state⟩ := raced.listed row (todo.subset member)
    refine ⟨object, ?_, by rwa [upserted_call]⟩
    simpa [early] using (unmarked row member).symm
  undeleted row member := by
    obtain ⟨old, other⟩ := undeleted row member
    simpa [raced.undeleted row old] using other.symm
  revived hash upserted := by
    rw [upserted_call] at upserted
    refine (raced.revived hash upserted).imp_right fun gone => ⟨gone.1, gone.2.concat ?_⟩
    simp [Upserted]

/-- `iter_pending_older_than`: nothing has happened to the rows that are listed. -/
theorem list (early : race.phase = .waiting cutoff) :
    Raced cfg run (actions ++ [.call .iterPendingOlderThan])
      { race with
        phase := .scan (race.store.assets.iterPendingOlderThan run.hardOrder cutoff)
          cfg.maxDeletesPerRun } := by
  obtain ⟨todo, undeleted, started⟩ := SweepPhase.scan_todo
    (race.store.assets.iterPendingOlderThan run.hardOrder cutoff) cfg.maxDeletesPerRun
  have silent := raced.waiting cutoff early
  refine ⟨raced.located, ?_, fun cutoff phase => absurd phase (started cutoff), ?_, ?_, ?_, ?_⟩
  · intro hash early
    rw [upserted_call] at early
    exact (raced.written hash early).imp_right (mem_append_left _)
  · refine (todo.map AssetRecord.hash).nodup ?_
    refine ((run.hardOrder.perm _).map AssetRecord.hash).nodup_iff.mpr ?_
    exact (filter_sublist.map AssetRecord.hash).nodup race.store.assets.keyed
  · intro row member
    obtain ⟨present, pending, -⟩ := mem_iterPendingOlderThan.mp (todo.subset member)
    refine ⟨raced.located row present, by simpa using silent _, Or.inr ?_⟩
    exact assetState_eq_some_iff.mpr ⟨row, present, rfl, pending⟩
  · intro row _
    simpa using silent _
  · intro hash upserted
    rw [upserted_call] at upserted
    refine (raced.revived hash upserted).imp_right fun gone => ⟨gone.1, gone.2.concat ?_⟩
    simp [Upserted]

/-- `set_deleted`. -/
theorem mark (late : race.phase = .marking row rest remaining)
    (succeeds : run.fails (.setDeleted row.hash) = false) :
    Raced cfg run (actions ++ [.call (.setDeleted row.hash)])
      { race with
        store := { race.store with assets := race.store.assets.setDeleted row.hash run.now }
        phase := .scan rest remaining } := by
  obtain ⟨todo, undeleted, started⟩ := SweepPhase.scan_todo rest remaining
  have distinct := raced.distinct
  have listed := raced.listed
  have deletable := raced.undeleted
  rw [late] at distinct listed deletable
  obtain ⟨apart, later⟩ := nodup_cons.mp distinct
  have other (next : AssetRecord) (member : next ∈ rest) : next.hash ≠ row.hash :=
    fun same => apart (same ▸ mem_map_of_mem member)
  refine ⟨raced.located.setDeleted, ?_, fun cutoff phase => absurd phase (started cutoff), ?_, ?_, ?_, ?_⟩
  · intro hash early
    rw [upserted_call] at early
    exact (raced.written hash early).imp_right (mem_append_left _)
  · exact (todo.map AssetRecord.hash).nodup later
  · intro next member
    have differs := other next (todo.subset member)
    obtain ⟨object, unmarked, state⟩ := listed next (mem_cons_of_mem _ (todo.subset member))
    refine ⟨object, by simpa [unmarked] using differs, ?_⟩
    rw [upserted_call]
    refine state.imp_right fun pending => ?_
    rw [← pending]
    exact assetState_setDeleted_of_ne differs
  · intro next member
    rw [undeleted] at member
    simpa using deletable next (todo.subset member)
  · intro hash upserted
    rw [upserted_call] at upserted
    by_cases here : hash = row.hash
    · subst here
      refine Or.inr ⟨?_, actions, [], rfl, succeeds, upserted, by simp [Upserted]⟩
      rcases raced.revived row.hash upserted with active | ⟨deleted, -⟩
      · exact assetState_setDeleted_self active
      · exact assetState_setDeleted_self deleted
    · dsimp only
      rw [assetState_setDeleted_of_ne here]
      refine (raced.revived hash upserted).imp_right fun gone => ⟨gone.1, gone.2.concat ?_⟩
      simp [Upserted]

/-- A call that leaves the store as it is: the sweep goes on with some of its rows. -/
theorem pass (started : ∀ cutoff, phase ≠ .waiting cutoff)
    (todo : phase.todo.Sublist race.phase.todo) (all : race.phase.undeleted = race.phase.todo)
    (unmarked : ∀ hash, call ≠ .setDeleted hash) (undeleted : ∀ hash, call ≠ .delete hash) :
    Raced cfg run (actions ++ [.call call]) { race with phase } := by
  refine raced.advance started todo (fun _ _ => unmarked _) (fun row member => ?_)
    fun _ present => Or.inl present
  refine ⟨?_, undeleted _⟩
  rw [all]
  apply todo.subset
  cases phase with
  | marking first rest remaining => exact mem_cons_of_mem _ member
  | _ => exact member

/-- A call whose failure ends the sweep. -/
theorem stop : Raced cfg run (actions ++ [.call call]) { race with phase := .finished } :=
  raced.advance (fun _ => by simp) (nil_sublist _) (fun _ member => by cases member)
    (fun _ member => by cases member) fun _ present => Or.inl present

end

section
variable (scheme : Function.Injective cfg.keyScheme)
include scheme

section
variable (raced : Raced cfg run actions race)
include raced

/-- `delete`, also where its answer is lost. -/
theorem delete (here : race.phase = .deleting row rest remaining)
    (started : ∀ cutoff, phase ≠ .waiting cutoff) (todo : phase.todo.Sublist (row :: rest))
    (later : ∀ next ∈ phase.undeleted, next ∈ rest) :
    Raced cfg run (actions ++ [.call (.delete row.hash)])
      { race with
        store := { race.store with objects := race.store.objects.erase row.object }
        phase } := by
  have distinct := raced.distinct
  have listed := raced.listed row
  rw [here] at distinct listed
  obtain ⟨apart, -⟩ := nodup_cons.mp distinct
  refine raced.advance started ?_ (fun _ _ => by simp) (fun next member => ?_) ?_
  · rw [here]
    exact todo
  · rw [here]
    refine ⟨mem_cons_of_mem _ (later next member), fun same => apart ?_⟩
    rw [StoreCall.delete.inj same]
    exact mem_map_of_mem (later next member)
  · intro hash present
    rw [(listed mem_cons_self).1]
    by_cases same : hash = row.hash
    · exact Or.inr (same ▸ rfl)
    · exact Or.inl (Finset.mem_erase.mpr ⟨fun equal => same (scheme equal), present⟩)

theorem answer (next : race.phase.nextCall = some call) :
    Raced cfg run (actions ++ [.call call]) (race.answered cfg run) := by
  obtain ⟨store, phase, uploading⟩ := race
  cases phase with
  | waiting cutoff =>
    cases next
    dsimp only [Race.answered, SweepPhase.answer]
    split
    · exact raced.stop
    · exact raced.list rfl
  | scanning row rest remaining =>
    cases next
    obtain ⟨todo, -, started⟩ := SweepPhase.scan_todo rest remaining
    dsimp only [Race.answered, SweepPhase.answer]
    split
    · exact raced.stop
    split
    · exact raced.pass started (todo.cons row) rfl (by simp) (by simp)
    split
    all_goals exact raced.pass (by simp) (List.Sublist.refl _) rfl (by simp) (by simp)
  | checking row rest remaining =>
    cases next
    dsimp only [Race.answered, SweepPhase.answer]
    split
    · exact raced.stop
    split
    all_goals exact raced.pass (by simp) (List.Sublist.refl _) rfl (by simp) (by simp)
  | deleting row rest remaining =>
    cases next
    dsimp only [Race.answered, SweepPhase.answer]
    split
    · exact raced.stop
    split
    · exact raced.delete scheme rfl (by simp) (nil_sublist _) fun _ member => by cases member
    · exact raced.delete scheme rfl (by simp) (List.Sublist.refl _) fun _ member => member
  | marking row rest remaining =>
    cases next
    dsimp only [Race.answered, SweepPhase.answer]
    split
    · exact raced.stop
    · rename_i succeeds
      exact raced.mark rfl (by simpa using succeeds)
  | finished => cases next

theorem step {action : RaceAction} {after : Race} (stepped : race.step cfg run action = some after)
    : Raced cfg run (actions ++ [action]) after := by
  cases action with
  | write hash =>
    cases stepped
    exact raced.write
  | upsert hash now =>
    obtain ⟨scheduled, result⟩ := Option.ite_none_right_eq_some.mp stepped
    cases result
    exact raced.upsert scheduled
  | call call =>
    obtain ⟨next, rfl⟩ := Race.step_call stepped
    exact raced.answer scheme next

end

theorem exec {start : Race} (ready : start.Ready cfg run)
    (ran : Machine.exec (Race.step cfg run) start actions = some final) :
    Raced cfg run actions final :=
  exec_history (fun _ _ _ _ _ stepped raced => raced.step scheme stepped) (Raced.start ready) ran

end

end Raced

section
variable {hash : String}

/-- A deleted row stays so until the next upsert of its hash. -/
theorem deleted_until_upsert (deleted : middle.store.assets.assetState hash = some .deleted)
    (silent : ¬ Upserted hash back) (ran : exec (Race.step cfg run) middle back = some final) :
    final.store.assets.assetState hash = some .deleted := by
  induction back generalizing middle with
  | nil =>
    cases ran
    exact deleted
  | cons action rest ih =>
    obtain ⟨next, stepped, later⟩ := Option.bind_eq_some_iff.mp ran
    have quiet : ¬ Upserted hash [action] ∧ ¬ Upserted hash rest := by
      rwa [← not_or, ← upserted_append]
    refine ih ?_ quiet.2 later
    cases action with
    | write other =>
      cases stepped
      exact deleted
    | upsert other now =>
      obtain ⟨-, result⟩ := Option.ite_none_right_eq_some.mp stepped
      cases result
      have apart : hash ≠ other := by simpa [Upserted] using quiet.1
      rw [← deleted]
      exact assetState_upsertActiveSeen_of_ne apart
    | call call =>
      obtain ⟨-, rfl⟩ := Race.step_call stepped
      dsimp only [Race.answered]
      rcases middle.phase.answer_assets cfg run middle.store with same | ⟨other, changed⟩
      · rw [same, deleted]
      · rw [changed]
        by_cases here : hash = other
        · subst here
          exact assetState_setDeleted_self deleted
        · rw [assetState_setDeleted_of_ne here, deleted]

/-- A call in the middle of a run is the next one of the sweep. -/
theorem exec_call (ran : exec (Race.step cfg run) start (front ++ .call call :: back) = some final)
    (before : exec (Race.step cfg run) start front = some middle) :
    middle.phase.nextCall = some call ∧
      exec (Race.step cfg run) (middle.answered cfg run) back = some final := by
  obtain ⟨other, same, after⟩ := exec_append_iff.mp ran
  obtain rfl := Option.some.inj (before.symm.trans same)
  obtain ⟨next, stepped, later⟩ := Option.bind_eq_some_iff.mp after
  obtain ⟨enabled, rfl⟩ := Race.step_call stepped
  exact ⟨enabled, later⟩

/-- At a delete the object is there and its row active, if the hash was upserted before. -/
theorem Raced.at_delete (raced : Raced cfg run front middle)
    (enabled : middle.phase.nextCall = some (.delete hash)) :
    (Upserted hash front → cfg.keyScheme hash ∈ middle.store.objects ∧
      middle.store.assets.assetState hash = some .active) ∧
    (Upserted hash front ∨ middle.store.assets.assetState hash = some .pendingDelete) := by
  obtain ⟨row, rest, remaining, phase, rfl⟩ := SweepPhase.nextCall_delete enabled
  have listed := raced.listed row
  have undeleted := raced.undeleted row
  rw [phase] at listed undeleted
  obtain ⟨-, unmarked, state⟩ := listed mem_cons_self
  refine ⟨fun upserted => ⟨?_, ?_⟩, state⟩
  · exact (raced.written row.hash (Or.inr upserted)).resolve_right (undeleted mem_cons_self)
  · refine (raced.revived row.hash upserted).resolve_right fun buried => unmarked ?_
    obtain ⟨-, early, late, split, -⟩ := buried
    simp [split]

/-- After a `set_deleted` that follows an upsert the row is deleted. -/
theorem Raced.at_setDeleted (raced : Raced cfg run front middle)
    (enabled : middle.phase.nextCall = some (.setDeleted hash))
    (succeeds : run.fails (.setDeleted hash) = false) (upserted : Upserted hash front) :
    (middle.answered cfg run).store.assets.assetState hash = some .deleted := by
  obtain ⟨row, rest, remaining, phase, rfl⟩ := SweepPhase.nextCall_setDeleted enabled
  rw [Race.answered, phase]
  simp only [SweepPhase.answer, succeeds, false_eq_true, if_false]
  rcases raced.revived row.hash upserted with active | ⟨deleted, -⟩
  · exact assetState_setDeleted_self active
  · exact assetState_setDeleted_self deleted

/-- No object is deleted while its row is active, and no row ends as deleted
after an upsert. -/
def UploadsSurvive (cfg : GcConfig) (run : GcRun) (start : Race) (actions : List RaceAction)
    (final : Race) : Prop :=
  (∀ front hash back middle, actions = front ++ .call (.delete hash) :: back →
    exec (Race.step cfg run) start front = some middle → run.fails (.delete hash) = false →
    cfg.keyScheme hash ∈ middle.store.objects →
    middle.store.assets.assetState hash ≠ some .active) ∧
  ∀ hash, Upserted hash actions → final.store.assets.assetState hash ≠ some .deleted

/-- No upsert of a hash comes before the delete of its object, and none comes
before its `set_deleted` without another one after it. -/
def NoUpsertBefore (run : GcRun) (actions : List RaceAction) : Prop :=
  (∀ front hash back, actions = front ++ .call (.delete hash) :: back →
    run.fails (.delete hash) = false → ¬ Upserted hash front) ∧
  ∀ front hash back, actions = front ++ .call (.setDeleted hash) :: back →
    run.fails (.setDeleted hash) = false → Upserted hash front → Upserted hash back

theorem uploads_survive_iff (cfg : GcConfig) (run : GcRun) (start final : Race)
    (actions : List RaceAction) (scheme : Function.Injective cfg.keyScheme)
    (ready : start.Ready cfg run) (ran : exec (Race.step cfg run) start actions = some final) :
    UploadsSurvive cfg run start actions final ↔ NoUpsertBefore run actions := by
  constructor
  · intro survive
    refine ⟨?_, ?_⟩
    · intro front hash back split succeeds upserted
      rw [split] at ran
      obtain ⟨middle, before, -⟩ := exec_append_iff.mp ran
      obtain ⟨enabled, -⟩ := exec_call ran before
      obtain ⟨present, active⟩ := ((Raced.exec scheme ready before).at_delete enabled).1 upserted
      exact survive.1 front hash back middle split before succeeds present active
    · intro front hash back split succeeds upserted
      by_contra silent
      have ran := split ▸ ran
      obtain ⟨middle, before, -⟩ := exec_append_iff.mp ran
      obtain ⟨enabled, later⟩ := exec_call ran before
      have deleted := (Raced.exec scheme ready before).at_setDeleted enabled succeeds upserted
      refine survive.2 hash ?_ (deleted_until_upsert deleted silent later)
      rw [split]
      exact upserted_append.mpr (Or.inl upserted)
  · intro before
    refine ⟨?_, ?_⟩
    · intro front hash back middle split reached succeeds _ active
      obtain ⟨enabled, -⟩ := exec_call (split ▸ ran) reached
      rcases ((Raced.exec scheme ready reached).at_delete enabled).2 with upserted | pending
      · exact before.1 front hash back split succeeds upserted
      · rw [active] at pending
        cases pending
    · intro hash upserted deleted
      rcases (Raced.exec scheme ready ran).revived hash upserted with active | ⟨-, buried⟩
      · rw [active] at deleted
        cases deleted
      · obtain ⟨front, back, split, succeeds, early, late⟩ := buried
        exact late (before.2 front hash back split succeeds early)

end

section
/-- The sweep takes the race there by calls of its own. -/
def SweepsTo (cfg : GcConfig) (run : GcRun) (race final : Race) : Prop :=
  ∃ calls : List StoreCall, exec (Race.step cfg run) race (calls.map .call) = some final

theorem SweepsTo.refl : SweepsTo cfg run race race := ⟨[], rfl⟩

theorem SweepsTo.call {call : StoreCall} (enabled : race.phase.nextCall = some call)
    (later : SweepsTo cfg run (race.answered cfg run) final) : SweepsTo cfg run race final := by
  obtain ⟨calls, ran⟩ := later
  refine ⟨call :: calls, ?_⟩
  rw [map_cons, exec, Race.step, if_pos enabled]
  exact ran

theorem SweepsTo.trans (first : SweepsTo cfg run race middle)
    (second : SweepsTo cfg run middle final) : SweepsTo cfg run race final := by
  obtain ⟨early, before⟩ := first
  obtain ⟨late, after⟩ := second
  refine ⟨early ++ late, ?_⟩
  rw [map_append]
  exact exec_append_iff.mpr ⟨middle, before, after⟩

/-- Where a turn of the loop leaves the sweep. -/
def landing (rest : List AssetRecord) (uploading : List String) :
    Loop.Flow (Progress × Nat) GcError → Race
  | .next after => ⟨after.1.store, .scan rest after.2, uploading⟩
  | .stop after => ⟨after.1.store, .finished, uploading⟩
  | .fail after _ => ⟨after.1.store, .finished, uploading⟩

theorem sweepsTo_deleteTurn :
    SweepsTo cfg run ⟨progress.store, .deleting row rest remaining, uploading⟩
      (landing rest uploading (run.deleteTurn (progress, remaining) row)) := by
  apply SweepsTo.call rfl
  unfold GcRun.deleteTurn
  simp only [Race.answered, SweepPhase.answer]
  by_cases fails : run.fails (.delete row.hash)
  · simp only [fails, if_true]
    exact SweepsTo.refl
  by_cases lost : run.fails (.deleteReply row.hash)
  · simp only [fails, lost, if_true, false_eq_true, if_false]
    exact SweepsTo.refl
  simp only [fails, lost, false_eq_true, if_false]
  apply SweepsTo.call rfl
  simp only [Race.answered, SweepPhase.answer]
  by_cases stuck : run.fails (.setDeleted row.hash)
  · simp only [stuck, if_true]
    exact SweepsTo.refl
  · simp only [stuck, false_eq_true, if_false]
    exact SweepsTo.refl

/-- The calls of one row. -/
theorem sweepsTo_hardTurn :
    SweepsTo cfg run ⟨progress.store, .scan (row :: rest) remaining, uploading⟩
      (landing rest uploading (run.hardTurn cfg (progress, remaining) row)) := by
  unfold SweepPhase.scan GcRun.hardTurn
  by_cases none : remaining = 0
  · simp only [none, if_true]
    exact SweepsTo.refl
  by_cases admin : row.isAdminPinned
  · simp only [none, admin, if_true, if_false]
    exact SweepsTo.refl
  simp only [none, admin, false_eq_true, if_false]
  apply SweepsTo.call rfl
  simp only [Race.answered, SweepPhase.answer]
  by_cases fails : run.fails (.isPinnedAgain row.hash)
  · simp only [fails, if_true]
    exact SweepsTo.refl
  by_cases pinned : run.pinned row.hash
  · simp only [fails, pinned, if_true, false_eq_true, if_false]
    exact SweepsTo.refl
  simp only [fails, pinned, false_eq_true, if_false]
  by_cases head : cfg.requireHeadBeforeDelete
  · simp only [head, if_true]
    apply SweepsTo.call rfl
    simp only [Race.answered, SweepPhase.answer]
    by_cases unknown : run.fails (.head row.hash)
    · simp only [unknown, if_true]
      exact SweepsTo.refl
    by_cases present : row.object ∈ progress.store.objects
    · simp only [unknown, present, false_eq_true, not_true, if_false]
      exact sweepsTo_deleteTurn
    simp only [unknown, present, false_eq_true, not_false_iff, if_true, if_false]
    apply SweepsTo.call rfl
    simp only [Race.answered, SweepPhase.answer]
    by_cases stuck : run.fails (.setDeleted row.hash)
    · simp only [stuck, if_true]
      exact SweepsTo.refl
    · simp only [stuck, false_eq_true, if_false]
      exact SweepsTo.refl
  · simp only [head, false_eq_true, if_false]
    exact sweepsTo_deleteTurn

/-- Call by call, the sweep does what its loop does. -/
theorem sweepsTo_each (rows : List AssetRecord) :
    SweepsTo cfg run ⟨progress.store, .scan rows remaining, uploading⟩
      ⟨(Loop.each (run.hardTurn cfg) (progress, remaining) rows).1.1.store, .finished, uploading⟩ := by
  induction rows generalizing progress remaining with
  | nil => exact SweepsTo.refl
  | cons row rest ih =>
    refine sweepsTo_hardTurn.trans ?_
    rw [Loop.each]
    cases run.hardTurn cfg (progress, remaining) row with
    | next after => exact ih
    | stop after => exact SweepsTo.refl
    | fail after failure => exact SweepsTo.refl

/-- Undisturbed, the calls of a sweep lead where `sweep_hard` ends. -/
theorem sweepsTo_sweepHard : SweepsTo cfg run ⟨progress.store, .begin cfg run, uploading⟩
    ⟨(run.sweepHard cfg progress).1.store, .finished, uploading⟩ := by
  unfold SweepPhase.begin GcRun.sweepHard
  cases checkedSub run.now cfg.graceWindow with
  | none => exact SweepsTo.refl
  | some cutoff =>
    apply SweepsTo.call rfl
    simp only [Option.elim_some, Race.answered, SweepPhase.answer]
    by_cases fails : run.fails .iterPendingOlderThan
    · simp only [fails, if_true]
      exact SweepsTo.refl
    · simp only [fails, false_eq_true, if_false]
      exact sweepsTo_each _

end

/-- One aged tombstone, and a hard sweep about to start. -/
def agedTombstone : Race :=
  ⟨GcStore.empty.afterEvents .brief [.uploaded "a" 0, .ran softAtZero], .begin .brief hardAtTen, []⟩

theorem agedTombstone_ready : agedTombstone.Ready .brief hardAtTen where
  phase := rfl
  located := by
    unfold AssetTable.Located
    decide
  written _ member := by cases member

/-- Another blob comes in during the sweep, and the swept one again after it. -/
def uploadsElsewhere : List RaceAction :=
  [.call .iterPendingOlderThan, .call (.isPinnedAgain "a"), .write "b", .upsert "b" 10000000,
    .call (.head "a"), .call (.delete "a"), .call (.setDeleted "a"), .write "a", .upsert "a" 11000000]

theorem uploads_elsewhere_survive :
    ∃ final, exec (Race.step .brief hardAtTen) agedTombstone uploadsElsewhere = some final ∧
      UploadsSurvive .brief hardAtTen agedTombstone uploadsElsewhere final := by
  refine ⟨_, rfl, ?_⟩
  have scheme : Function.Injective GcConfig.brief.keyScheme := fun _ _ same => congrArg Prod.snd same
  refine (uploads_survive_iff _ _ _ _ _ scheme agedTombstone_ready rfl).mpr ⟨?_, ?_⟩
  · intro front hash back split _
    simp [uploadsElsewhere, cons_eq_append_iff] at split
    obtain ⟨rfl, rfl, rfl⟩ := split
    simp [Upserted]
  · intro front hash back split _ _
    simp [uploadsElsewhere, cons_eq_append_iff] at split
    obtain ⟨rfl, rfl, rfl⟩ := split
    simp [Upserted]

/-- Whatever is uploaded meanwhile, a sweep deletes no object and buries no row twice. -/
theorem sweep_calls_once (cfg : GcConfig) (run : GcRun) (start final : Race)
    (actions : List RaceAction) (scheme : cfg.keyScheme.Injective) (ready : start.Ready cfg run)
    (ran : exec (Race.step cfg run) start actions = some final) (hash : String) :
    ∀ call ∈ [StoreCall.delete hash, .setDeleted hash], actions.count (.call call) ≤ 1 := by
  intro call named
  refine exec_history (motive := fun actions _ => actions.count (.call call) ≤ 1) ?_ (by simp) ran
  intro front middle action next before stepped once
  rw [count_append, count_singleton]
  split
  · rename_i same
    obtain rfl := beq_iff_eq.mp same
    have raced := Raced.exec scheme ready before
    have enabled := (Race.step_call stepped).1
    suffices new : .call call ∉ front by simp [count_eq_zero.mpr new]
    simp only [mem_cons, not_mem_nil, or_false] at named
    obtain rfl | rfl := named
    · obtain ⟨row, rest, remaining, phase, rfl⟩ := SweepPhase.nextCall_delete enabled
      exact raced.undeleted row (phase ▸ mem_cons_self)
    · obtain ⟨row, rest, remaining, phase, rfl⟩ := SweepPhase.nextCall_setDeleted enabled
      exact (raced.listed row (phase ▸ mem_cons_self)).2.1
  · exact once

theorem sweep_calls_once_beside_upload :
    uploadsElsewhere.count (.call (.delete "a")) ≤ 1 :=
  sweep_calls_once _ _ _ _ _ (fun _ _ => congrArg Prod.snd) agedTombstone_ready rfl "a" _ (.head _)

/-- The client uploads the blob again after the sweep has seen its object. -/
def uploadBeforeDelete : List RaceAction :=
  [.call .iterPendingOlderThan, .call (.isPinnedAgain "a"), .call (.head "a"), .write "a",
    .upsert "a" 10000000, .call (.delete "a"), .call (.setDeleted "a")]

theorem upload_before_delete_is_lost :
    ∃ final, exec (Race.step .brief hardAtTen) agedTombstone uploadBeforeDelete = some final ∧
      ¬ UploadsSurvive .brief hardAtTen agedTombstone uploadBeforeDelete final ∧
      localKeyScheme "a" ∉ final.store.objects := by
  refine ⟨_, rfl, fun survive => ?_, by decide⟩
  refine survive.2 "a" ⟨10000000, by decide⟩ ?_
  decide

end NodalMerge
