import NodalMerge.Crdt.Dag
import Mathlib.Logic.Function.Basic

/-! The log of produced nodes is kept beside the graphs; it is not part of the system. -/

namespace NodalMerge

open Function List StateGraph

namespace StateGraph

/-- The call does not change the settings of the graph. -/
def Call.KeepsSettings {crypto : Crypto} {graph : StateGraph} : Call crypto graph → Prop
  | .setPolicy _ => False
  | .setLocalSigning _ => False
  | _ => True

theorem Call.run_settings {graph after : StateGraph} {call : Call crypto graph}
    (keeps : call.KeepsSettings) (ran : call.run = some after) :
    after.policy = graph.policy ∧ after.localSigning = graph.localSigning ∧
      after.textProjectionMode = graph.textProjectionMode := by
  cases call with
  | applyLocal signingKey wallMs ops parents =>
    obtain ⟨outcome, wrote, rfl⟩ := Option.map_eq_some_iff.mp ran
    obtain ⟨_, ⟨_, rfl⟩ | ⟨_, rfl⟩⟩ := applyLocal_cases wrote <;> exact ⟨rfl, rfl, rfl⟩
  | applyRemote node nowMs =>
    cases ran
    rcases applyRemoteChecked_cases crypto graph node nowMs with ⟨_, _, same⟩ | ⟨_, _, _, same⟩ <;>
      rw [same] <;> exact ⟨rfl, rfl, rfl⟩
  | applyRemoteBatch nodes nowMs =>
    cases ran
    exact applyBatch_invariant (motive := fun after => after.policy = graph.policy ∧
        after.localSigning = graph.localSigning ∧
        after.textProjectionMode = graph.textProjectionMode)
      (fun _ _ same => same) (fun _ _ _ same _ => same) ⟨rfl, rfl, rfl⟩
  | setPolicy policy => exact keeps.elim
  | setLocalSigning enabled => exact keeps.elim

/-- A graph reached without changing settings has the default ones. -/
theorem Reachable.settings {graph : StateGraph}
    (reached : Reachable crypto (fun _ call => call.KeepsSettings) graph) :
    graph.policy = .default ∧ graph.localSigning = true ∧
      graph.textProjectionMode = .enabled := by
  induction reached with
  | start => exact ⟨rfl, rfl, rfl⟩
  | call _ keeps ran ih =>
    obtain ⟨policy, signing, mode⟩ := Call.run_settings keeps ran
    rw [policy, signing, mode]
    exact ih

end StateGraph

structure World (Peer : Type) where
  graph : Peer → StateGraph
  /-- Every node written so far by any peer. -/
  produced : List SyncNode

namespace World

def start : World Peer := ⟨fun _ => .empty, []⟩

section
variable [DecidableEq Peer]

def update (world : World Peer) (peer : Peer) (graph : StateGraph) : World Peer :=
  { world with graph := Function.update world.graph peer graph }

/-- What can happen next: a local write, or a delivery of produced nodes. -/
inductive Action (world : World Peer) where
  | write (peer : Peer) (wallMs : Nat) (ops : List Op)
      (parents : Enumeration (world.graph peer).leaves)
  | deliver (peer : Peer) (node : SyncNode) (made : node ∈ world.produced)
  | deliverBatch (peer : Peer) (nodes : List SyncNode) (made : ∀ node ∈ nodes, node ∈ world.produced)

section
variable (crypto : Crypto) (key : Peer → crypto.SigningKey)

/-- The world after an action; `none` when the peer panics. -/
def Action.run {world : World Peer} : Action world → Option (World Peer)
  | .write peer wallMs ops parents =>
    (applyLocal crypto (world.graph peer) (key peer) wallMs ops parents).map fun outcome =>
      { world.update peer outcome.1 with
        produced := match outcome.2 with
          | .ok _ => localNode crypto (world.graph peer) (key peer) wallMs ops parents ::
            world.produced
          | .error _ => world.produced }
  | .deliver peer node _ => some (world.update peer (applyRemote crypto (world.graph peer) node).1)
  | .deliverBatch peer nodes _ =>
    some (world.update peer (applyRemoteBatch crypto (world.graph peer) nodes).1)

/-- Worlds reached by actions that are allowed where they happen. -/
inductive Run (Allowed : ∀ world : World Peer, Action world → Prop) : World Peer → Prop where
  | start : Run Allowed .start
  | step {world after : World Peer} {action : Action world} (run : Run Allowed world)
      (allowed : Allowed world action) (ran : action.run crypto key = some after) :
      Run Allowed after

end

variable {after : World Peer}

/-- One peer takes one call; only a successful local write adds to the log. -/
theorem Action.run_cases {action : Action world} (ran : action.run crypto key = some after) :
    (∃ peer wallMs ops parents,
      (world.graph peer).lamport + 1 ≤ u64Max ∧
      (world.graph peer).nodes.contains
        (localNode crypto (world.graph peer) (key peer) wallMs ops parents).id = false ∧
      action = .write peer wallMs ops parents ∧
      after = { world.update peer ((world.graph peer).commitLocal ops
          (localNode crypto (world.graph peer) (key peer) wallMs ops parents)) with
        produced := localNode crypto (world.graph peer) (key peer) wallMs ops parents ::
          world.produced }) ∨
    (∃ peer wallMs ops parents,
      (world.graph peer).lamport + 1 ≤ u64Max ∧
      (world.graph peer).nodes.contains
        (localNode crypto (world.graph peer) (key peer) wallMs ops parents).id = true ∧
      action = .write peer wallMs ops parents ∧
      after = world.update peer ((world.graph peer).reserve ops)) ∨
    (∃ peer node made, action = .deliver peer node made ∧
      after = world.update peer (applyRemote crypto (world.graph peer) node).1) ∨
    (∃ peer nodes made, action = .deliverBatch peer nodes made ∧
      after = world.update peer (applyRemoteBatch crypto (world.graph peer) nodes).1) := by
  cases action with
  | write peer wallMs ops parents =>
    obtain ⟨outcome, wrote, rfl⟩ := Option.map_eq_some_iff.mp ran
    obtain ⟨room, ⟨stored, rfl⟩ | ⟨fresh, rfl⟩⟩ := applyLocal_cases wrote
    · exact .inr (.inl ⟨peer, wallMs, ops, parents, room, stored, rfl, rfl⟩)
    · exact .inl ⟨peer, wallMs, ops, parents, room, fresh, rfl, rfl⟩
  | deliver peer node made =>
    cases ran
    exact .inr (.inr (.inl ⟨peer, node, made, rfl, rfl⟩))
  | deliverBatch peer nodes made =>
    cases ran
    exact .inr (.inr (.inr ⟨peer, nodes, made, rfl, rfl⟩))

/-- Every action is one call at one peer. -/
theorem Action.run_call {action : Action world} (ran : action.run crypto key = some after) :
    ∃ peer, ∃ call : Call crypto (world.graph peer), ∃ graph, call.KeepsSettings ∧
      call.run = some graph ∧ after.graph = Function.update world.graph peer graph := by
  rcases Action.run_cases ran with ⟨peer, wallMs, ops, parents, room, fresh, _, rfl⟩ |
    ⟨peer, wallMs, ops, parents, room, stored, _, rfl⟩ | ⟨peer, node, _, _, rfl⟩ |
    ⟨peer, nodes, _, _, rfl⟩
  · exact ⟨peer, .applyLocal (key peer) wallMs ops parents, _, trivial,
      Call.run_commit room fresh, rfl⟩
  · refine ⟨peer, .applyLocal (key peer) wallMs ops parents, _, trivial, ?_, rfl⟩
    rw [Call.run, applyLocal_duplicate room stored]
    rfl
  · exact ⟨peer, .applyRemote node none, _, trivial, rfl, rfl⟩
  · exact ⟨peer, .applyRemoteBatch nodes none, _, trivial, rfl, rfl⟩

theorem Run.write (run : Run crypto key Allowed world) (peer : Peer)
    {parents : Enumeration (world.graph peer).leaves}
    (allowed : Allowed world (.write peer wallMs ops parents))
    (room : (world.graph peer).lamport + 1 ≤ u64Max) (fresh : (world.graph peer).nodes.contains
      (localNode crypto (world.graph peer) (key peer) wallMs ops parents).id = false) :
    Run crypto key Allowed
      { world.update peer ((world.graph peer).commitLocal ops
          (localNode crypto (world.graph peer) (key peer) wallMs ops parents)) with
        produced := localNode crypto (world.graph peer) (key peer) wallMs ops parents ::
          world.produced } := by
  refine .step run allowed ?_
  rw [Action.run, applyLocal_commit room fresh]
  rfl

theorem Run.write_at (run : Run crypto key (fun _ _ => True) world) (peer : Peer)
    {graph : StateGraph} (here : world.graph peer = graph) {parents : Enumeration graph.leaves}
    (room : graph.lamport + 1 ≤ u64Max)
    (fresh : graph.nodes.contains (localNode crypto graph (key peer) wallMs ops parents).id = false) :
    Run crypto key (fun _ _ => True)
      { world.update peer (graph.commitLocal ops
          (localNode crypto graph (key peer) wallMs ops parents)) with
        produced := localNode crypto graph (key peer) wallMs ops parents :: world.produced } := by
  subst here
  exact run.write peer trivial room fresh

theorem Run.deliver (run : Run crypto key Allowed world) (peer : Peer) (node : SyncNode)
    (made : node ∈ world.produced) (allowed : Allowed world (.deliver peer node made)) :
    Run crypto key Allowed (world.update peer (applyRemote crypto (world.graph peer) node).1) :=
  .step run allowed rfl

theorem Run.reachable (run : Run crypto key Allowed world) (peer : Peer) :
    Reachable crypto (fun _ call => call.KeepsSettings) (world.graph peer) := by
  induction run with
  | start => exact .start
  | step _ _ ran ih =>
    obtain ⟨active, call, graph, keeps, called, graphs⟩ := Action.run_call ran
    rw [graphs, update_apply]
    split
    · rename_i same
      subst same
      exact .call ih keeps called
    · exact ih

end

/-- Peers hold produced nodes only, authors hold what they wrote, and no two
produced nodes share Lamport value and author. -/
structure Sound (crypto : Crypto) (key : Peer → crypto.SigningKey) (world : World Peer) : Prop where
  known : ∀ peer, ∀ node ∈ (world.graph peer).nodes.data, node ∈ world.produced
  authored : ∀ node ∈ world.produced, ∃ peer,
    node.transaction.author = crypto.verifyingKey (key peer) ∧
      node ∈ (world.graph peer).nodes.data
  distinct : ∀ first ∈ world.produced, ∀ second ∈ world.produced,
    first.transaction.priority = second.transaction.priority → first = second

namespace Sound

variable {after : World Peer}

theorem start : Sound crypto key (World.start : World Peer) where
  known := by simp [World.start, StateGraph.empty, MemoryNodeStore.empty]
  authored := by simp [World.start]
  distinct := by simp [World.start]

/-- A new local write cannot share its author and Lamport value with any
produced node: its author stores all of theirs, and they are older. -/
theorem write_distinct (sound : Sound crypto key world)
    (injective : Function.Injective fun peer => crypto.verifyingKey (key peer))
    (dag : (world.graph peer).core.Dag crypto) {parents : Enumeration (world.graph peer).leaves}
    (member : other ∈ world.produced) :
    other.transaction.priority ≠
      (localNode crypto (world.graph peer) (key peer) wallMs ops parents).transaction.priority := by
  intro same
  rw [localNode_transaction] at same
  obtain ⟨lamport, author⟩ := Prod.mk.inj (toLex.injective same)
  obtain ⟨owner, owned, stored⟩ := sound.authored other member
  obtain rfl : owner = peer := injective (owned.symm.trans author)
  have older : other.transaction.lamport ≤ (world.graph owner).lamport := dag.clock other stored
  rw [lamport] at older
  exact Nat.not_succ_le_self _ older

variable [DecidableEq Peer]

/-- Without a new write it is enough that a peer only gains produced nodes. -/
theorem keep (sound : Sound crypto key world) {peer : Peer} {graph : StateGraph}
    (persists : ∀ other, ∀ node ∈ (world.graph other).nodes.data,
      node ∈ ((world.update peer graph).graph other).nodes.data)
    (gained : ∀ node ∈ graph.nodes.data,
      node ∈ (world.graph peer).nodes.data ∨ node ∈ world.produced) :
    Sound crypto key (world.update peer graph) where
  known := by
    intro other node member
    simp only [World.update, update_apply] at member
    split at member
    · exact (gained node member).elim (sound.known peer node) id
    · exact sound.known other node member
  authored := by
    intro node member
    obtain ⟨owner, owned, stored⟩ := sound.authored node member
    exact ⟨owner, owned, persists owner node stored⟩
  distinct := sound.distinct

theorem commit (sound : Sound crypto key world)
    (injective : Function.Injective fun peer => crypto.verifyingKey (key peer))
    {peer : Peer} (dag : (world.graph peer).core.Dag crypto) {wallMs : Nat} {ops : List Op}
    {parents : Enumeration (world.graph peer).leaves}
    (persists : ∀ other, ∀ node ∈ (world.graph other).nodes.data,
      node ∈ (Function.update world.graph peer ((world.graph peer).commitLocal ops
        (localNode crypto (world.graph peer) (key peer) wallMs ops parents)) other).nodes.data) :
    Sound crypto key { world.update peer ((world.graph peer).commitLocal ops
        (localNode crypto (world.graph peer) (key peer) wallMs ops parents)) with
      produced := localNode crypto (world.graph peer) (key peer) wallMs ops parents ::
        world.produced } where
  known := by
    intro other node member
    simp only [World.update, update_apply] at member
    split at member
    · rcases @mem_store _ ((world.graph peer).reserve ops).core false node member with before | same
      · exact .tail _ (sound.known peer node before)
      · rw [same]
        exact .head _
    · exact .tail _ (sound.known other node member)
  authored := by
    intro node member
    rcases mem_cons.mp member with rfl | earlier
    · refine ⟨peer, ?_, ?_⟩
      · rw [localNode_transaction]
        rfl
      · simp only [World.update, update_self]
        exact (world.graph peer).nodes.self_mem_put _
    · obtain ⟨owner, owned, stored⟩ := sound.authored node earlier
      exact ⟨owner, owned, persists owner node stored⟩
  distinct := by
    intro first inFirst second inSecond same
    rcases mem_cons.mp inFirst with rfl | earlierFirst <;>
      rcases mem_cons.mp inSecond with rfl | earlierSecond
    · rfl
    · exact (sound.write_distinct injective dag earlierSecond same.symm).elim
    · exact (sound.write_distinct injective dag earlierFirst same).elim
    · exact sound.distinct first earlierFirst second earlierSecond same

theorem step (sound : Sound crypto key world)
    (injective : Function.Injective fun peer => crypto.verifyingKey (key peer))
    (dag : ∀ peer, (world.graph peer).core.Dag crypto)
    {action : Action world} (ran : action.run crypto key = some after) :
    Sound crypto key after := by
  have persists : ∀ peer, ∀ node ∈ (world.graph peer).nodes.data,
      node ∈ (after.graph peer).nodes.data := by
    intro peer node member
    obtain ⟨active, call, graph, _, called, graphs⟩ := Action.run_call ran
    rw [graphs, update_apply]
    split
    · rename_i same
      subst same
      exact (Call.run_steps (dag peer) called).stored member
    · exact member
  rcases Action.run_cases ran with ⟨peer, wallMs, ops, parents, _, _, _, rfl⟩ |
    ⟨peer, wallMs, ops, parents, _, _, _, rfl⟩ | ⟨peer, node, made, _, rfl⟩ |
    ⟨peer, nodes, made, _, rfl⟩
  · exact sound.commit injective (dag peer) persists
  · exact sound.keep persists fun node => .inl
  · refine sound.keep persists fun stored member => ?_
    rcases mem_applyRemoteChecked member with before | ⟨rfl, _⟩
    · exact .inl before
    · exact .inr made
  · refine sound.keep persists fun stored member => ?_
    rcases mem_applyRemoteBatchChecked member with before | accepted
    · exact .inl before
    · exact .inr (made stored (mem_batchAccepted accepted).1)

end Sound

/-- The transactions written so far by any peer. -/
def transactions (world : World Peer) : Set Transaction :=
  { tx | ∃ node ∈ world.produced, node.transaction = tx }

/-- Without collisions, a produced node is known by its id. -/
theorem Sound.eq_of_id {key : Peer → crypto.SigningKey} (sound : Sound crypto key world)
    (collisionFree : crypto.CollisionFree world.transactions) (inFirst : first ∈ world.produced)
    (inSecond : second ∈ world.produced) (hashed : crypto.txHash first.transaction = first.id)
    (otherHashed : crypto.txHash second.transaction = second.id) (same : first.id = second.id) :
    first = second := by
  have transactions : first.transaction = second.transaction := by
    refine collisionFree ⟨first, inFirst, rfl⟩ ⟨second, inSecond, rfl⟩ ?_
    rw [hashed, otherHashed, same]
  exact sound.distinct first inFirst second inSecond (by rw [transactions])

theorem Run.sound [DecidableEq Peer] {key : Peer → crypto.SigningKey}
    (injective : Function.Injective fun peer => crypto.verifyingKey (key peer))
    (run : Run crypto key Allowed world) : Sound crypto key world := by
  induction run with
  | start => exact .start
  | step run _ ran ih => exact ih.step injective (fun peer => (run.reachable peer).dag) ran

def sampleKeys (peer : Bool) : Crypto.sample.SigningKey := Crypto.sampleKey (if peer then 1 else 2)

theorem sampleKeys_injective :
    Function.Injective fun peer => Crypto.sample.verifyingKey (sampleKeys peer) := by
  decide

def sampleWritten : World Bool where
  graph := Function.update (fun _ => .empty) true (empty.commitLocal sampleOps sampleNode)
  produced := [sampleNode]

def sampleShared : World Bool :=
  sampleWritten.update false (applyRemote Crypto.sample (sampleWritten.graph false) sampleNode).1

variable {Allowed : ∀ world : World Bool, Action world → Prop}

theorem sampleWritten_run (writes : Allowed .start (.write true 0 sampleOps ⟨[], .nil, rfl⟩)) :
    Run Crypto.sample sampleKeys Allowed sampleWritten :=
  Run.write .start true writes (by decide) (by decide)

theorem sampleShared_collisionFree : Crypto.sample.CollisionFree sampleShared.transactions :=
  Crypto.sample.collisionFree_of_nodes (by decide)

end World

end NodalMerge
