import NodalMerge.Host.Engine

namespace NodalMerge.Host

open Function Option

theorem increment_eq_some_iff :
    increment counter = some next ↔ counter < u64Max ∧ next = counter + 1 := by
  unfold increment
  split <;> simp [*, eq_comm]

theorem isSome_increment : (increment counter).isSome ↔ counter < u64Max := by
  unfold increment
  split <;> simp [*]

namespace HostCommand

def writesTexts : HostCommand → Bool
  | .textInsert .. | .textDelete .. => true
  | _ => false

def writesCheckpoints : HostCommand → Bool
  | .ensureRoom | .mapSet .. | .mapDelete .. | .createTopologyChild ..
  | .proposeTopologyPromotion .. | .validateTopologyPromotion .. | .applyTopologyPromotion ..
  | .promoteCheckpointToGraph .. => true
  | _ => false

def writesPromotions : HostCommand → Bool
  | .proposeTopologyPromotion .. | .validateTopologyPromotion ..
  | .applyTopologyPromotion .. => true
  | _ => false

def writesGraphs : HostCommand → Bool
  | .ensureRoom | .createTopologyChild .. | .setPolicy .. | .importPack ..
  | .promoteCheckpointToGraph .. => true
  | _ => false

end HostCommand

theorem lookup_insert_cases {Key Entry : Type} [DecidableEq Key] {map : HashMap Key Entry}
    {key other : Key} {entry added : Entry}
    (found : (map.insert other added).lookup key = some entry) :
    (key = other ∧ entry = added) ∨ (key ≠ other ∧ map.lookup key = some entry) := by
  rw [lookup_insert_ite] at found
  split at found
  · rename_i same
    exact .inl ⟨same, (Option.some.inj found).symm⟩
  · rename_i different
    exact .inr ⟨different, found⟩

theorem lookup_update_cases {Key Entry : Type} [DecidableEq Key]
    {table : String → HashMap Key Entry} {map : HashMap Key Entry} {key : Key} {entry : Entry}
    (found : (update table room map otherRoom).lookup key = some entry) :
    (otherRoom = room ∧ map.lookup key = some entry) ∨
      (otherRoom ≠ room ∧ (table otherRoom).lookup key = some entry) := by
  by_cases same : otherRoom = room
  · subst same
    rw [update_self] at found
    exact .inl ⟨rfl, found⟩
  · rw [update_of_ne same] at found
    exact .inr ⟨same, found⟩

namespace Checkpoints

theorem recordRows_eq_some_iff {table : Checkpoints} :
    table.recordRows crypto room rows = some after ↔
      table.canonicalSeq room < u64Max ∧
        after = table.recorded crypto room rows (table.canonicalSeq room + 1) := by
  rw [recordRows, map_eq_some_iff]
  constructor
  · intro ⟨next, counted, same⟩
    obtain ⟨below, rfl⟩ := increment_eq_some_iff.mp counted
    exact ⟨below, same.symm⟩
  · intro ⟨below, same⟩
    exact ⟨_, increment_eq_some_iff.mpr ⟨below, rfl⟩, same.symm⟩

theorem isSome_recordRows {table : Checkpoints} :
    (table.recordRows crypto room rows).isSome ↔ table.canonicalSeq room < u64Max := by
  rw [recordRows, isSome_map, isSome_increment]

/-- A property that survives the elementary changes of the tables of rows. -/
structure KeptByRows (crypto : Crypto) (Inv : Checkpoints → Prop) : Prop where
  live : ∀ {table} room map, Inv table → Inv (table.setLive room map)
  record : ∀ {table room rows after}, table.recordRows crypto room rows = some after →
    Inv table → Inv after
  ensure : ∀ {table} room, Inv table → Inv (table.ensureRoom crypto room)
  frontier : ∀ {table} room seq heads, Inv table → Inv (table.setSnapshotFrontier room seq heads)

/-- A property that has nothing to do with the promotions besides. -/
structure Kept (crypto : Crypto) (Inv : Checkpoints → Prop) : Prop
    extends KeptByRows crypto Inv where
  promotions : ∀ {table} promotions, Inv table →
    Inv { table with topologyPromotions := promotions }

variable {Inv : Checkpoints → Prop} {table after : Checkpoints} {room ns key proposalId : String}
  {value : Value}

theorem KeptByRows.mapSet (kept : KeptByRows crypto Inv) (inv : Inv table)
    (wrote : table.mapSet crypto rooms room ns key value = some (after, result)) : Inv after := by
  unfold Checkpoints.mapSet at wrote
  split at wrote
  · cases wrote
    exact inv
  · obtain ⟨recorded, made, same⟩ := map_eq_some_iff.mp wrote
    cases same
    split at made
    · cases made
      exact kept.live _ _ inv
    · exact kept.record made (kept.live _ _ inv)

theorem KeptByRows.mapDelete (kept : KeptByRows crypto Inv) (inv : Inv table)
    (wrote : table.mapDelete crypto rooms room ns key = some (after, result)) : Inv after := by
  unfold Checkpoints.mapDelete at wrote
  split at wrote
  · cases wrote
    exact inv
  · obtain ⟨recorded, made, same⟩ := map_eq_some_iff.mp wrote
    cases same
    split at made
    · exact kept.record made (kept.live _ _ inv)
    · cases made
      exact kept.live _ _ inv

theorem Kept.propose (kept : Kept crypto Inv) (inv : Inv table)
    (parent child checkpoint payload : String) (idempotencyKey : Option String) :
    Inv (table.proposeTopologyPromotion crypto rooms parent child checkpoint payload
      idempotencyKey).1 := by
  unfold Checkpoints.proposeTopologyPromotion
  split
  · exact inv
  · exact kept.promotions _ inv

theorem Kept.validate (kept : Kept crypto Inv) (inv : Inv table) (proposalId : String) :
    Inv (table.validateTopologyPromotion crypto proposalId).1 := by
  unfold Checkpoints.validateTopologyPromotion
  split
  · exact inv
  · split
    · exact kept.promotions _ inv
    · exact inv

theorem Kept.applyPromotion (kept : Kept crypto Inv) (inv : Inv table)
    (applied : table.applyTopologyPromotion crypto proposalId = some (after, result)) :
    Inv after := by
  unfold Checkpoints.applyTopologyPromotion at applied
  split at applied
  · cases applied
    exact inv
  · split at applied
    · cases applied
      exact inv
    · obtain ⟨recorded, made, same⟩ := map_eq_some_iff.mp applied
      cases same
      exact kept.live _ _ (kept.record made (kept.promotions _ inv))

end Checkpoints

namespace HostEngine

variable {engine next : HostEngine} {call : HostCall}

/-- A call in no room is refused; any other runs its command. -/
theorem step_cases (stepped : engine.step env call = some next) :
    next = engine ∨ (call.envelope.roomId ≠ "" ∧ ∃ result,
      engine.run env call.envelope.roomId call.nowUnixMs call.envelope.command =
        some (next, result)) := by
  obtain ⟨⟨after, result⟩, applied, rfl⟩ := map_eq_some_iff.mp stepped
  unfold apply at applied
  split at applied
  · cases applied
    exact .inl rfl
  · rename_i named
    exact .inr ⟨named, result, applied⟩

theorem createTopologyChild_cases (engine : HostEngine)
    (parentRoomId childRoomId childPurpose createdBy promotionPolicyId : String)
    (parentCheckpoint : Value) :
    (∃ error, engine.createTopologyChild parentRoomId childRoomId childPurpose createdBy
        promotionPolicyId parentCheckpoint = (engine, .error error)) ∨
      ∃ lineage, engine.createTopologyChild parentRoomId childRoomId childPurpose createdBy
        promotionPolicyId parentCheckpoint = ({ engine with
          rooms := insert childRoomId engine.rooms
          graphs := engine.graphs.ensureRoom childRoomId
          checkpoints := engine.checkpoints.createTopologyChild childRoomId lineage },
        .ok [.childRoomCreated childRoomId lineage]) := by
  unfold createTopologyChild
  split
  · exact .inl ⟨_, rfl⟩
  · split
    · exact .inl ⟨_, rfl⟩
    · exact .inr ⟨_, rfl⟩

/-- The engine after a snapshot has been handed to the graph. -/
def promoted (env : HostEnv) (engine : HostEngine) (room : String) (nowUnixMs seq : Nat)
    (snapshot : CanonicalSnapshotState) : HostEngine :=
  let graph := (promoteToGraph env.crypto room nowUnixMs (engine.graphs.graph room) seq snapshot).1
  { engine with
    graphs := engine.graphs.setGraph room graph
    checkpoints := engine.checkpoints.setSnapshotFrontier room seq (graphFrontierHeadsHex graph) }

theorem promoteCheckpointToGraph_cases (env : HostEnv) (engine : HostEngine) (room : String)
    (nowUnixMs : Nat) (selector : Option Value) :
    (∃ error, engine.promoteCheckpointToGraph env room nowUnixMs selector =
        (engine, .error error)) ∨
      ∃ seq snapshot, room ∈ engine.rooms ∧
        engine.checkpoints.resolveCanonicalCheckpoint room selector = .resolved seq snapshot ∧
        engine.promoteCheckpointToGraph env room nowUnixMs selector =
          (engine.promoted env room nowUnixMs seq snapshot,
            .ok [.checkpointPromoted room seq
              (Hash.toHex (promoteToGraph env.crypto room nowUnixMs (engine.graphs.graph room) seq
                snapshot).2)
              (graphFrontierHeadsHex (promoteToGraph env.crypto room nowUnixMs
                (engine.graphs.graph room) seq snapshot).1)]) := by
  unfold promoteCheckpointToGraph
  split
  · exact .inl ⟨_, rfl⟩
  · rename_i known
    split
    · exact .inl ⟨_, rfl⟩
    · exact .inl ⟨_, rfl⟩
    · rename_i seq snapshot resolved
      exact .inr ⟨seq, snapshot, not_not.mp known, resolved, rfl⟩

/-- The groups that a command does not write stay as they are. -/
structure Frame (command : HostCommand) (engine next : HostEngine) : Prop where
  rooms : engine.rooms ⊆ next.rooms
  texts : command.writesTexts = false → next.texts = engine.texts
  checkpoints : command.writesCheckpoints = false → next.checkpoints = engine.checkpoints
  graphs : command.writesGraphs = false → next.graphs = engine.graphs

theorem Frame.self : Frame command engine engine :=
  ⟨Finset.Subset.refl _, fun _ => rfl, fun _ => rfl, fun _ => rfl⟩

theorem run_frame (ran : engine.run env room nowUnixMs command = some (next, result)) :
    Frame command engine next := by
  cases command <;> first
    | (obtain ⟨_, -, same⟩ := map_eq_some_iff.mp ran
       cases same
       exact ⟨Finset.Subset.refl _, fun quiet => (by first | rfl | cases quiet),
        fun quiet => (by first | rfl | cases quiet), fun _ => rfl⟩)
    | (cases ran
       exact ⟨Finset.Subset.refl _, fun quiet => (by first | rfl | cases quiet),
        fun quiet => (by first | rfl | cases quiet), fun quiet => (by first | rfl | cases quiet)⟩)
    | skip
  case ensureRoom =>
    cases ran
    exact ⟨Finset.subset_insert _ _, fun _ => rfl, nofun, nofun⟩
  case createTopologyChild parent child purpose creator policy checkpoint =>
    obtain ⟨error, same⟩ | ⟨lineage, same⟩ :=
      engine.createTopologyChild_cases parent child purpose creator policy checkpoint
    · cases same.symm.trans (Option.some.inj ran)
      exact .self
    · cases same.symm.trans (Option.some.inj ran)
      exact ⟨Finset.subset_insert _ _, fun _ => rfl, nofun, nofun⟩
  case promoteCheckpointToGraph selector =>
    obtain ⟨error, same⟩ | ⟨seq, snapshot, -, -, same⟩ :=
      engine.promoteCheckpointToGraph_cases env room nowUnixMs selector
    · cases same.symm.trans (Option.some.inj ran)
      exact .self
    · cases same.symm.trans (Option.some.inj ran)
      exact ⟨Finset.Subset.refl _, fun _ => rfl, nofun, nofun⟩

/-- The invariant rule for the commands that leave the promotions alone. -/
theorem keptByRows_checkpoints {Inv : Checkpoints → Prop}
    (kept : Checkpoints.KeptByRows env.crypto Inv) (quiet : command.writesPromotions = false)
    (ran : engine.run env room nowUnixMs command = some (next, result))
    (inv : Inv engine.checkpoints) : Inv next.checkpoints := by
  cases writes : command.writesCheckpoints with
  | false => rwa [(run_frame ran).checkpoints writes]
  | true =>
    cases command <;> first
      | exact absurd writes Bool.false_ne_true
      | exact absurd quiet.symm Bool.false_ne_true
      | skip
    case ensureRoom =>
      cases ran
      exact kept.ensure _ inv
    case mapSet =>
      obtain ⟨outcome, wrote, same⟩ := map_eq_some_iff.mp ran
      cases same
      exact kept.mapSet inv wrote
    case mapDelete =>
      obtain ⟨outcome, wrote, same⟩ := map_eq_some_iff.mp ran
      cases same
      exact kept.mapDelete inv wrote
    case createTopologyChild parent child purpose creator policy checkpoint =>
      obtain ⟨error, same⟩ | ⟨lineage, same⟩ :=
        engine.createTopologyChild_cases parent child purpose creator policy checkpoint
      · cases same.symm.trans (Option.some.inj ran)
        exact inv
      · cases same.symm.trans (Option.some.inj ran)
        exact kept.live _ _ inv
    case promoteCheckpointToGraph selector =>
      obtain ⟨error, same⟩ | ⟨seq, snapshot, -, -, same⟩ :=
        engine.promoteCheckpointToGraph_cases env room nowUnixMs selector
      · cases same.symm.trans (Option.some.inj ran)
        exact inv
      · cases same.symm.trans (Option.some.inj ran)
        exact kept.frontier _ _ _ inv

/-- The invariant rule for the tables of checkpoints. -/
theorem kept_checkpoints {Inv : Checkpoints → Prop} (kept : Checkpoints.Kept env.crypto Inv)
    (stepped : engine.step env call = some next) (inv : Inv engine.checkpoints) :
    Inv next.checkpoints := by
  obtain rfl | ⟨-, result, ran⟩ := step_cases stepped
  · exact inv
  · cases writes : call.envelope.command.writesPromotions with
    | false => exact keptByRows_checkpoints kept.toKeptByRows writes ran inv
    | true =>
      generalize call.envelope.command = command at ran writes
      cases command <;> first
        | exact absurd writes Bool.false_ne_true
        | skip
      case proposeTopologyPromotion =>
        cases ran
        apply kept.propose inv
      case validateTopologyPromotion =>
        cases ran
        apply kept.validate inv
      case applyTopologyPromotion =>
        obtain ⟨outcome, applied, same⟩ := map_eq_some_iff.mp ran
        cases same
        exact kept.applyPromotion inv applied

end HostEngine

end NodalMerge.Host
