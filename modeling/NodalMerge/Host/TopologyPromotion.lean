import NodalMerge.Host.Changes

namespace NodalMerge.Host

open Checkpoints HostEngine Machine Option

/-- What a promotion brings where: the parent room, the child room and its checkpoint. -/
def PromotionState.terms (promotion : PromotionState) : String × String × String :=
  (promotion.parentRoomId, promotion.childRoomId, promotion.childCheckpointHash)

namespace Checkpoints

/-- A validated promotion with these terms is on record under the id. -/
def Stands (proposalId : String) (terms : String × String × String) (table : Checkpoints) : Prop :=
  ∃ record, table.topologyPromotions.lookup proposalId = some record ∧
    record.validated = true ∧ record.terms = terms

variable {table after : Checkpoints} {terms : String × String × String}

theorem stands_keptByRows : KeptByRows crypto (Stands proposalId terms) where
  live _ _ stands := stands
  record made stands := by
    obtain ⟨-, rfl⟩ := recordRows_eq_some_iff.mp made
    exact stands
  ensure _ stands := stands
  frontier _ _ _ stands := stands

section
variable (stands : table.Stands proposalId terms)
include stands

/-- A record written under an id leaves what stands if it says the same or has another id. -/
theorem Stands.insert {otherId : String} {written : PromotionState}
    (same : otherId = proposalId → written.validated = true ∧ written.terms = terms) :
    Stands proposalId terms
      { table with topologyPromotions := table.topologyPromotions.insert otherId written } := by
  unfold Stands
  rw [lookup_insert_ite]
  split
  · rename_i here
    exact ⟨written, rfl, same here.symm⟩
  · exact stands

/-- What stands under an id is found by the commands that look for it. -/
theorem Stands.found (found : table.topologyPromotions.lookup proposalId = some promotion) :
    promotion.validated = true ∧ promotion.terms = terms := by
  obtain ⟨record, present, both⟩ := stands
  cases present.symm.trans found
  exact both

theorem Stands.validate (otherId : String) :
    Stands proposalId terms (table.validateTopologyPromotion crypto otherId).1 := by
  unfold Checkpoints.validateTopologyPromotion
  split
  · exact stands
  · rename_i other found
    split
    · apply stands.insert
      intro same
      subst same
      exact ⟨rfl, (stands.found found).2⟩
    · exact stands

end

/-- An apply is refused, or merges the rows of the child into those of the parent. -/
theorem applyTopologyPromotion_cases
    (applied : table.applyTopologyPromotion crypto proposalId = some (after, result)) :
    (after = table ∧ result = .error .invalidCommand ∧
        ∀ promotion, table.topologyPromotions.lookup proposalId = some promotion →
          promotion.validated = false) ∨
      ∃ promotion, table.topologyPromotions.lookup proposalId = some promotion ∧
        promotion.validated = true ∧
        after.canonicalRows promotion.parentRoomId =
          table.childRows promotion ∪ table.canonicalRows promotion.parentRoomId ∧
        after.topologyPromotions =
          table.topologyPromotions.insert proposalId { promotion with applied := true } := by
  unfold applyTopologyPromotion at applied
  split at applied
  · rename_i absent
    cases applied
    refine .inl ⟨rfl, rfl, fun promotion found => ?_⟩
    cases absent.symm.trans found
  · rename_i promotion found
    split at applied
    · rename_i refused
      cases applied
      refine .inl ⟨rfl, rfl, fun other same => ?_⟩
      cases found.symm.trans same
      simpa using refused
    · rename_i validated
      obtain ⟨recorded, made, same⟩ := map_eq_some_iff.mp applied
      cases same
      obtain ⟨-, rfl⟩ := recordRows_eq_some_iff.mp made
      refine .inr ⟨promotion, found, by simpa using validated, ?_, rfl⟩
      simp [recorded, setLive]

theorem Stands.applyPromotion (stands : table.Stands proposalId terms)
    (applied : table.applyTopologyPromotion crypto otherId = some (after, result)) :
    after.Stands proposalId terms := by
  obtain ⟨rfl, -⟩ | ⟨promotion, found, validated, -, promotions⟩ :=
    applyTopologyPromotion_cases applied
  · exact stands
  · have inserted : Stands proposalId terms { table with
        topologyPromotions :=
          table.topologyPromotions.insert otherId { promotion with applied := true } } := by
      apply stands.insert
      intro same
      subst same
      exact ⟨validated, (stands.found found).2⟩
    rw [Stands, promotions]
    exact inserted

theorem childRows_congr (same : promotion.terms = other.terms) :
    table.childRows promotion = table.childRows other := by
  simp only [PromotionState.terms, Prod.mk.injEq] at same
  rw [childRows, childRows, same.2.1, same.2.2]

/-- An apply does not touch the checkpoint of another room. -/
theorem childRows_of_apply
    (applied : table.applyTopologyPromotion crypto proposalId = some (after, result))
    (found : table.topologyPromotions.lookup proposalId = some promotion)
    (apart : promotion.childRoomId ≠ promotion.parentRoomId) :
    after.childRows promotion = table.childRows promotion := by
  unfold applyTopologyPromotion at applied
  rw [found] at applied
  dsimp only at applied
  split at applied
  · cases applied
    rfl
  · obtain ⟨recorded, made, same⟩ := map_eq_some_iff.mp applied
    cases same
    obtain ⟨-, rfl⟩ := recordRows_eq_some_iff.mp made
    simp [childRows, recorded, setLive, apart]

/-- Rows are unchanged by rows that they have already. -/
theorem union_eq_right_iff {added : Rows} : added ∪ rows = rows ↔
    ∀ key value, added.lookup key = some value → rows.lookup key = some value := by
  constructor
  · intro same key value found
    rw [← same, Finmap.lookup_union_left (Finmap.mem_of_lookup_eq_some found)]
    exact found
  · intro contained
    apply Finmap.ext_lookup
    intro key
    cases found : added.lookup key with
    | none => rw [Finmap.lookup_union_right (Finmap.lookup_eq_none.mp found)]
    | some value =>
      rw [Finmap.lookup_union_left (Finmap.mem_of_lookup_eq_some found), found,
        contained key value found]

end Checkpoints

namespace HostEngine

/-- A call by which a promotion is proposed under an id. -/
def Proposes (crypto : Crypto) (proposalId : String) (engine : HostEngine) (call : HostCall) :
    Prop :=
  match call.envelope.command with
  | .proposeTopologyPromotion parent child checkpointHash payloadRef idempotencyKey =>
    call.envelope.roomId ≠ "" ∧ parent ∈ engine.rooms ∧ child ∈ engine.rooms ∧
      checkpointHash ≠ "" ∧ payloadRef ≠ "" ∧ idempotencyKey.getD
        (Checkpoints.proposalDigest crypto parent child checkpointHash payloadRef) = proposalId
  | _ => False

variable {engine next before applied later after : HostEngine} {call first second : HostCall}
  {terms : String × String × String}

theorem stands_step (stepped : engine.step env call = some next)
    (unproposed : ¬ engine.Proposes env.crypto proposalId call)
    (stands : engine.checkpoints.Stands proposalId terms) :
    next.checkpoints.Stands proposalId terms := by
  obtain rfl | ⟨named, result, ran⟩ := step_cases stepped
  · exact stands
  · cases writes : call.envelope.command.writesPromotions with
    | false => exact keptByRows_checkpoints stands_keptByRows writes ran stands
    | true =>
      unfold Proposes at unproposed
      generalize call.envelope.command = command at ran writes unproposed
      cases command <;> first
        | exact absurd writes Bool.false_ne_true
        | skip
      case proposeTopologyPromotion parent child checkpointHash payloadRef idempotencyKey =>
        cases ran
        change Checkpoints.Stands _ _ (Checkpoints.proposeTopologyPromotion ..).1
        unfold Checkpoints.proposeTopologyPromotion
        split
        · exact stands
        · rename_i accepted
          apply stands.insert
          intro same
          simp only [not_or, not_not] at accepted
          obtain ⟨parentKnown, childKnown, hashed, referred⟩ := accepted
          exact absurd ⟨named, parentKnown, childKnown, hashed, referred, same⟩ unproposed
      case validateTopologyPromotion =>
        cases ran
        apply stands.validate
      case applyTopologyPromotion =>
        obtain ⟨outcome, applied, same⟩ := map_eq_some_iff.mp ran
        cases same
        exact stands.applyPromotion applied

theorem stands_run (ran : exec (step env) engine calls = some next)
    (unproposed : Along (step env) (fun engine call => ¬ engine.Proposes env.crypto proposalId call)
      engine calls) (stands : engine.checkpoints.Stands proposalId terms) :
    next.checkpoints.Stands proposalId terms := by
  have kept : ∀ front middle call next, exec (step env) engine front = some middle →
      ¬ Proposes env.crypto proposalId middle call → step env middle call = some next →
      middle.checkpoints.Stands proposalId terms → next.checkpoints.Stands proposalId terms :=
    fun _ _ _ _ _ quiet stepped standing => stands_step stepped quiet standing
  exact exec_history_along kept stands unproposed ran

theorem merged_of_applied
    (asked : first.envelope.command = .applyTopologyPromotion proposalId)
    (succeeded : before.apply env first = some (applied, .ok events)) :
    before.checkpoints.applyTopologyPromotion env.crypto proposalId =
      some (applied.checkpoints, .ok events) := by
  unfold apply at succeeded
  split at succeeded
  · cases succeeded
  · rw [asked] at succeeded
    obtain ⟨⟨table, result⟩, merged, same⟩ := map_eq_some_iff.mp succeeded
    cases same
    exact merged

section
variable (found : before.checkpoints.topologyPromotions.lookup proposalId = some promotion)
include found

section
variable (asked : first.envelope.command = .applyTopologyPromotion proposalId)
include asked

/-- An apply that succeeds leaves its promotion standing. -/
theorem stands_of_applied (succeeded : before.apply env first = some (applied, .ok events)) :
    applied.checkpoints.Stands proposalId promotion.terms := by
  obtain ⟨-, refused, -⟩ | ⟨record, present, validated, -, promotions⟩ :=
    applyTopologyPromotion_cases (merged_of_applied asked succeeded)
  · cases refused
  · cases found.symm.trans present
    refine ⟨{ promotion with applied := true }, ?_, validated, rfl⟩
    rw [promotions, Finmap.lookup_insert]

end

end

/-- An apply of a promotion that stands merges the rows of its child once more. -/
theorem rows_of_apply
    (stands : later.checkpoints.Stands proposalId promotion.terms)
    (again : second.envelope.command = .applyTopologyPromotion proposalId)
    (named : second.envelope.roomId ≠ "") (returned : later.step env second = some after) :
    after.checkpoints.canonicalRows promotion.parentRoomId =
      later.checkpoints.childRows promotion ∪
        later.checkpoints.canonicalRows promotion.parentRoomId := by
  obtain ⟨⟨engine, result⟩, ran, rfl⟩ := map_eq_some_iff.mp returned
  rw [apply, if_neg named, again] at ran
  obtain ⟨⟨table, _⟩, merged, same⟩ := map_eq_some_iff.mp ran
  cases same
  obtain ⟨record, present, validated, terms⟩ := stands
  obtain ⟨-, -, refused⟩ | ⟨other, found, -, rows, -⟩ :=
    applyTopologyPromotion_cases merged
  · cases validated.symm.trans (refused record present)
  · cases present.symm.trans found
    have parent : record.parentRoomId = promotion.parentRoomId := congrArg Prod.fst terms
    rw [parent, childRows_congr terms] at rows
    exact rows

end HostEngine

/-- A promotion that was applied and not proposed again leaves the rows of the parent as
they are when it is applied again, exactly when they still have every row of the checkpoint
of the child. -/
theorem second_apply_keeps_rows_iff (env : HostEnv) (before applied later after : HostEngine)
    (first second : HostCall) (middle : List HostCall) (proposalId : String)
    (promotion : PromotionState) (events : List HostEvent)
    (found : before.checkpoints.topologyPromotions.lookup proposalId = some promotion)
    (asked : first.envelope.command = .applyTopologyPromotion proposalId)
    (succeeded : before.apply env first = some (applied, .ok events))
    (ran : exec (HostEngine.step env) applied middle = some later)
    (unproposed : Along (HostEngine.step env)
      (fun engine call => ¬ engine.Proposes env.crypto proposalId call) applied middle)
    (again : second.envelope.command = .applyTopologyPromotion proposalId)
    (returned : later.step env second = some after) :
    after.checkpoints.canonicalRows promotion.parentRoomId =
        later.checkpoints.canonicalRows promotion.parentRoomId ↔
      (second.envelope.roomId ≠ "" → ∀ key value,
        (later.checkpoints.childRows promotion).lookup key = some value →
          (later.checkpoints.canonicalRows promotion.parentRoomId).lookup key = some value) := by
  have stands := stands_run ran unproposed
    (stands_of_applied found asked succeeded)
  by_cases named : second.envelope.roomId = ""
  · have same : after = later := by
      rw [HostEngine.step, HostEngine.apply, if_pos named] at returned
      exact (Option.some.inj returned).symm
    simp [same, named]
  · rw [rows_of_apply stands again named returned, union_eq_right_iff]
    simp [named]

/-- A checkpoint of the room `c` with one row, to be promoted into the room `p`. -/
def proposedRow : List HostCall :=
  let hash := contentCanonicalHash Crypto.sample ((∅ : Rows).insert "k" (.bool true))
  [⟨0, "p", .ensureRoom⟩, ⟨0, "c", .ensureRoom⟩, ⟨0, "c", .mapSet "" "k" (.bool true)⟩,
    ⟨0, "p", .proposeTopologyPromotion "p" "c" hash "payload" (some "id")⟩,
    ⟨0, "p", .validateTopologyPromotion "id"⟩]

def applyOnce : HostCall := ⟨0, "p", .applyTopologyPromotion "id"⟩

theorem repeated_apply_keeps_rows :
    ∃ before applied after : HostEngine,
      exec (HostEngine.step .sample) .new proposedRow = some before ∧
        before.step .sample applyOnce = some applied ∧
        applied.step .sample applyOnce = some after ∧
        after.checkpoints.canonicalRows "p" = applied.checkpoints.canonicalRows "p" := by
  have checked : ((exec (HostEngine.step .sample) .new proposedRow).any fun before =>
      ((before.checkpoints.topologyPromotions.lookup "id").any fun promotion =>
        promotion.parentRoomId = "p" && promotion.childRoomId = "c") &&
      (before.apply .sample applyOnce).any fun outcome =>
        outcome.2.isOk && (outcome.1.step .sample applyOnce).isSome) = true := by
    decide +kernel
  simp only [any_eq_true, Bool.and_eq_true, decide_eq_true_eq] at checked
  obtain ⟨before, reached, ⟨promotion, found, parent, child⟩, ⟨applied, result⟩, merged, isOk,
    returns⟩ := checked
  obtain ⟨after, returned⟩ := isSome_iff_exists.mp returns
  refine ⟨before, applied, after, reached, by rw [HostEngine.step, merged]; rfl, returned, ?_⟩
  cases result with
  | error => cases isOk
  | ok events =>
    have keeps := second_apply_keeps_rows_iff .sample before applied applied after applyOnce
      applyOnce [] "id" promotion events found rfl merged rfl trivial rfl returned
    rw [← parent]
    apply keeps.mpr
    intro _ key value brought
    have same := merged_of_applied rfl merged
    rw [childRows_of_apply same found (by rw [parent, child]; decide)] at brought
    obtain ⟨-, refused, -⟩ | ⟨record, present, -, rows, -⟩ := applyTopologyPromotion_cases same
    · cases refused
    · cases found.symm.trans present
      rw [rows, Finmap.lookup_union_left (Finmap.mem_of_lookup_eq_some brought)]
      exact brought

/-- The row `k` of the room `p` after a run. -/
def promotedRow (calls : List HostCall) : Option String :=
  (exec (HostEngine.step .sample) .new calls).bind fun engine =>
    ((engine.checkpoints.canonicalRows "p").lookup "k").map Value.text

theorem second_apply_overwrites :
    promotedRow (proposedRow ++ [applyOnce]) = some "true" ∧
      promotedRow (proposedRow ++ [applyOnce, ⟨0, "p", .mapSet "" "k" (.bool false)⟩]) =
        some "false" ∧
      promotedRow (proposedRow ++ [applyOnce, ⟨0, "p", .mapSet "" "k" (.bool false)⟩,
        applyOnce]) = some "true" := by
  decide +kernel

end NodalMerge.Host
