import NodalMerge.Server.Import

namespace NodalMerge

open Bool LinkedLog List MemoryNodeStore Retry StateGraph
open StateGraph (attempt)

namespace Ledger

variable (crypto : Crypto)

/-- The write policy lets the node pass. -/
def permits (ledger : Ledger) (node : SyncNode) : Bool :=
  isSnapshotNode node || node.transaction.ops.all fun op =>
    ledger.policy.canWrite op.key node.transaction.author

def knowsParents (ledger : Ledger) (node : SyncNode) : Bool :=
  node.parents.all fun parent => decide (parent ∈ ledger.ids)

/-- A turn of one-by-one import, as far as the ledger shows it. -/
def attempt (ledger : Ledger) (node : SyncNode) : Outcome Ledger Unit :=
  let next := ledger.next crypto none node
  if ledger.vouches crypto none node then
    if ledger.knowsParents node then
      if ledger.permits node then .done next else .failed next ()
    else .later next
  else .failed next ()

/-- One-by-one import of the nodes comes to a node with a ledger. -/
abbrev ComesTo (start : Ledger) (nodes : List SyncNode) (ledger : Ledger) (node : SyncNode) : Prop :=
  Visits (attempt crypto) start nodes.length nodes [] ledger node

/-- Every node that is entered has a last copy in the list that the starting
ledger vouches for; and a node is refused only once no last copy that the
starting ledger clears could be placed. -/
structure ImportsAlike (start : Ledger) (nodes : List SyncNode) : Prop where
  entered : ∀ ledger node next, start.ComesTo crypto nodes ledger node →
    ledger.attempt crypto node = .done next → node.id ∉ ledger.ids →
    ∃ copy, lastCopy nodes node.id = some copy ∧ start.vouches crypto none copy = true
  refused : ∀ ledger node next, start.ComesTo crypto nodes ledger node →
    ledger.attempt crypto node = .failed next () →
    ∀ copy, lastCopy nodes copy.id = some copy → start.vouches crypto none copy = true →
      start.permits copy = true → ledger.knowsParents copy = true → copy.id ∈ ledger.ids

end Ledger

section
variable {crypto : Crypto} {graph : StateGraph} {nodes : List SyncNode}

theorem ledger_permits_iff : graph.ledger.permits node = true ↔ graph.Permitted node := by
  simp only [Ledger.permits, Permitted, or_eq_true, all_eq_true]
  rfl

theorem ledger_knowsParents_iff : graph.ledger.knowsParents node = true ↔
    ∀ parent ∈ node.parents, graph.nodes.contains parent = true := by
  simp only [Ledger.knowsParents, all_eq_true, decide_eq_true_eq, mem_ledger_ids]

theorem ledger_vouches_iff_vetted : graph.ledger.vouches crypto none node = true ↔
    Vetted crypto graph node :=
  ledger_vouches_iff.trans screened_iff

theorem attempt_outcome_state (crypto : Crypto) (graph : StateGraph) (node : SyncNode) :
    (attempt crypto none graph node).state =
      (applyRemoteChecked crypto graph node none).1 := by
  unfold attempt
  dsimp only
  split <;> rfl

/-- The ledger shows of an attempt what matters. -/
theorem ledger_attempt (crypto : Crypto) (graph : StateGraph) (node : SyncNode) :
    graph.ledger.attempt crypto node = (attempt crypto none graph node).map ledger := by
  have state := attempt_outcome_state crypto graph node
  have next := ledger_applyRemoteChecked crypto none graph node
  rw [← state] at next
  unfold Ledger.attempt
  by_cases vetted : Vetted crypto graph node
  · rw [if_pos (ledger_vouches_iff_vetted.mpr vetted)]
    rcases parents_cases graph node with missing | parents
    · have unknown : ¬ graph.ledger.knowsParents node = true := by
        obtain ⟨parent, edge, absent⟩ := missing
        intro known
        cases absent.symm.trans (ledger_knowsParents_iff.mp known parent edge)
      rw [if_neg unknown, ← next, attempt_later vetted missing]
      rfl
    · rw [if_pos (ledger_knowsParents_iff.mpr parents)]
      by_cases permitted : graph.Permitted node
      · rw [if_pos (ledger_permits_iff.mpr permitted), ← next,
          @attempt_done crypto none graph node vetted parents permitted]
        rfl
      · obtain ⟨after, error, failed⟩ := @attempt_failed crypto none graph node (.inr ⟨parents, permitted⟩)
        rw [if_neg (mt ledger_permits_iff.mp permitted), ← next, failed]
        rfl
  · obtain ⟨after, error, failed⟩ := @attempt_failed crypto none graph node (.inl vetted)
    rw [if_neg (mt ledger_vouches_iff_vetted.mp vetted), ← next, failed]
    rfl

theorem comesTo_iff : graph.ledger.ComesTo crypto nodes seen node ↔
    ∃ there, Visits (attempt crypto none) graph nodes.length nodes [] there node ∧
      there.ledger = seen :=
  visits_view_iff (ledger_attempt crypto)

/-- A refused node changes nothing but the verified ids. -/
theorem attempt_failed_nodes {next : StateGraph}
    (failed : attempt crypto none graph node = .failed next error) : next.nodes = graph.nodes := by
  have state := attempt_outcome_state crypto graph node
  rw [failed] at state
  change next = _ at state
  rcases applyRemoteChecked_cases crypto graph node none with
    ⟨screened, admissible, -⟩ | ⟨ids, other, -, same⟩
  · have done := @attempt_done crypto none graph node (screened_iff.mp screened)
      admissible.parents admissible.permitted
    cases failed.symm.trans done
  · rw [state, same]

theorem attempt_contains {id : NodeId} (graph : StateGraph) (node : SyncNode)
    (known : graph.nodes.contains id = true) :
    (attempt crypto none graph node).state.nodes.contains id = true := by
  rw [attempt_outcome_state]
  exact contains_applyRemoteChecked known

theorem contains_of_proceeds {id : NodeId} {next : StateGraph}
    (known : graph.nodes.contains id = true)
    (proceeds : (attempt crypto none graph node).Proceeds next) :
    next.nodes.contains id = true := by
  rw [attempt_state proceeds]
  exact contains_applyRemoteChecked known

/-- The graph after one-by-one import of a list. -/
abbrev importOneByOne (crypto : Crypto) (graph : StateGraph) (nodes : List SyncNode) : StateGraph :=
  finalState (run (attempt crypto none) graph nodes)

theorem importPack_graph {cipher : RoomCipher} {store : SyncStore crypto}
    (plain : store.roomKey = none) :
    (store.importPack cipher nodes).1.graph = importOneByOne crypto store.graph nodes := by
  unfold SyncStore.importPack
  rw [plain]
  dsimp only [importOneByOne]
  cases run (attempt crypto none) store.graph nodes <;> rfl

theorem cleared_iff : Cleared crypto none start node ↔
    start.ledger.vouches crypto none node = true ∧ start.ledger.permits node = true := by
  rw [ledger_vouches_iff, ledger_permits_iff]
  exact ⟨fun cleared => ⟨cleared.screened, cleared.permitted⟩, fun both => ⟨both.1, both.2⟩⟩

/-- Within the skew window the wall clock decides nothing. -/
theorem placed_recent (recent : ∀ node ∈ nodes, checkWallSkew nowMs node = .ok ()) {id : NodeId} :
    Placed crypto (some nowMs) graph nodes id ↔ Placed crypto none graph nodes id := by
  have screened {node : SyncNode} (member : node ∈ nodes) :
      Screened crypto graph (some nowMs) node ↔ Screened crypto graph none node := by
    constructor
    · rintro ⟨prechecked, signed⟩
      obtain ⟨hashed, ceiling, -⟩ := precheck_ok_iff.mp prechecked
      exact ⟨precheck_ok_iff.mpr ⟨hashed, ceiling, by simp⟩, signed⟩
    · rintro ⟨prechecked, signed⟩
      obtain ⟨hashed, ceiling, -⟩ := precheck_ok_iff.mp prechecked
      refine ⟨precheck_ok_iff.mpr ⟨hashed, ceiling, ?_⟩, signed⟩
      rintro now same
      rw [← Option.some.inj same]
      exact recent node member
  constructor
  · intro placed
    refine placed.mem_of_closed (fun _ known => .known known) fun node eligible parents => ?_
    exact .placed ⟨eligible.last, (screened (mem_of_lastCopy eligible.last).1).mp
      eligible.cleared.screened, eligible.cleared.permitted⟩ parents
  · intro placed
    refine placed.mem_of_closed (fun _ known => .known known) fun node eligible parents => ?_
    exact .placed ⟨eligible.last, (screened (mem_of_lastCopy eligible.last).1).mpr
      eligible.cleared.screened, eligible.cleared.permitted⟩ parents

/-- Where one-by-one import and the passes agree, the last copies decide. -/
theorem importsAlike_of_same (same : ∀ id, (importOneByOne crypto graph nodes).nodes.contains id = true ↔
      Placed crypto none graph nodes id) : graph.ledger.ImportsAlike crypto nodes := by
  constructor
  · intro ledger node next comes done new
    obtain ⟨there, visits, rfl⟩ := comesTo_iff.mp comes
    have grown (id : NodeId) (known : graph.nodes.contains id = true) :
        there.nodes.contains id = true :=
      visits.invariant (fun _ _ _ held _ proceeds => contains_of_proceeds held proceeds) known
    have stored : (attempt crypto none there node).state.nodes.contains node.id = true := by
      rw [ledger_attempt] at done
      cases outcome : attempt crypto none there node with
      | done after => exact contains_of_done outcome
      | later after =>
        rw [outcome] at done
        cases done
      | failed after error =>
        rw [outcome] at done
        cases done
    rcases ((same node.id).mp (visits.final attempt_contains stored)).known_or_fit with
      present | ⟨copy, eligible, sameId⟩
    · exact (new (mem_ledger_ids.mpr (grown _ present))).elim
    · exact ⟨copy, sameId ▸ eligible.last, (cleared_iff.mp eligible.cleared).1⟩
  · intro ledger node next comes failed copy last vouched permits parents
    obtain ⟨there, visits, rfl⟩ := comesTo_iff.mp comes
    rw [ledger_attempt] at failed
    cases outcome : attempt crypto none there node with
    | done after =>
      rw [outcome] at failed
      cases failed
    | later after =>
      rw [outcome] at failed
      cases failed
    | failed after error =>
      have final : (importOneByOne crypto graph nodes).nodes = there.nodes := by
        rw [importOneByOne, run_eq_resume, visits.resume_failed outcome]
        exact attempt_failed_nodes outcome
      rw [final] at same
      refine mem_ledger_ids.mpr ((same copy.id).mpr ?_)
      exact .placed ⟨last, cleared_iff.mpr ⟨vouched, permits⟩⟩ fun parent edge =>
        (same parent).mp (ledger_knowsParents_iff.mp parents parent edge)

theorem applyRemoteChecked_policy (crypto : Crypto) (graph : StateGraph) (node : SyncNode)
    (nowMs : Option Nat) : (applyRemoteChecked crypto graph node nowMs).1.policy = graph.policy := by
  rcases applyRemoteChecked_cases crypto graph node nowMs with ⟨-, -, same⟩ | ⟨ids, error, -, same⟩
  · rw [same]
    rfl
  · rw [same]

/-- One-by-one import stores nothing but what can be placed. -/
theorem placed_of_oneByOne (alike : graph.ledger.ImportsAlike crypto nodes)
    (collisionFree : crypto.CollisionFree { tx | ∃ node ∈ nodes, node.transaction = tx })
    {id : NodeId} (stored : (importOneByOne crypto graph nodes).nodes.contains id = true) :
    Placed crypto none graph nodes id := by
  let Inv (here : StateGraph) : Prop := here.policy = graph.policy ∧
    ∀ id, here.nodes.contains id = true → Placed crypto none graph nodes id
  have kept : ∀ here node, Inv here →
      Visits (attempt crypto none) graph nodes.length nodes [] here node →
      Inv (attempt crypto none here node).state := by
    rintro here node ⟨policy, held⟩ visits
    rw [attempt_outcome_state]
    refine ⟨(applyRemoteChecked_policy ..).trans policy, fun id known => ?_⟩
    obtain ⟨other, member, rfl⟩ := mem_map.mp (contains_iff.mp known)
    rcases mem_applyRemoteChecked member with before | ⟨rfl, screened, admissible⟩
    · exact held _ (contains_iff.mpr (mem_map_of_mem before))
    · have vetted := screened_iff.mp screened
      obtain ⟨next, done⟩ : ∃ next, attempt crypto none here other = .done next :=
        ⟨_, attempt_done vetted admissible.parents admissible.permitted⟩
      have observed : here.ledger.attempt crypto other = .done next.ledger := by
        rw [ledger_attempt, done]
        rfl
      have new : other.id ∉ here.ledger.ids := by
        rw [mem_ledger_ids, admissible.fresh]
        exact false_ne_true
      obtain ⟨copy, last, vouched⟩ := alike.entered _ other _ (comesTo_iff.mpr ⟨here, visits, rfl⟩)
        observed new
      obtain ⟨copyInside, sameId⟩ := mem_of_lastCopy last
      have copyVetted := ledger_vouches_iff_vetted.mp vouched
      have sameTx : copy.transaction = other.transaction := by
        refine collisionFree ⟨copy, copyInside, rfl⟩
          ⟨other, visits.mem.resolve_right not_mem_nil, rfl⟩ ?_
        rw [copyVetted.hashed, vetted.hashed, sameId]
      have copyPermitted : graph.Permitted copy := by
        have allowed := admissible.permitted
        unfold Permitted isSnapshotNode at allowed ⊢
        rwa [sameTx, ← policy]
      rw [← sameId]
      refine .placed ⟨sameId ▸ last, screened_iff.mpr copyVetted, copyPermitted⟩ fun parent edge => ?_
      exact held parent (admissible.parents parent (by rwa [SyncNode.parents, ← sameTx]))
  have start : Inv graph := ⟨rfl, fun _ known => .known known⟩
  exact (final_of_visits kept start).2 id stored

/-- A node that waits lacks a parent, and goes on to do so while others wait. -/
theorem attempt_waits {next : StateGraph} (later : attempt crypto none graph other = .later next) :
    next.nodes = graph.nodes ∧ ∃ parent ∈ other.parents, graph.nodes.contains parent = false := by
  rcases attempt_inv later with ⟨_, _, failed⟩ | ⟨-, ⟨missing, same⟩ | ⟨-, -, done⟩⟩
  · cases failed
  · obtain rfl := Outcome.later.inj same
    exact ⟨rfl, missing⟩
  · cases done

/-- Whatever a run that does not fail leaves over lacks a parent. -/
theorem stored_of_runs (runs : Runs (attempt crypto none) graph nodes last still)
    (member : node ∈ nodes) (parents : ∀ parent ∈ node.parents, last.nodes.contains parent = true) :
    last.nodes.contains node.id = true := by
  have gained : ∀ (here : StateGraph) node next, True →
      attempt crypto none here node = .done next →
      next.nodes.contains node.id = true := fun _ _ _ _ done => contains_of_done done
  rcases runs.done_or_still (fun _ _ _ _ _ _ => trivial) gained
    (fun _ _ _ _ known proceeds => contains_of_proceeds known proceeds) trivial node member with
    stored | left
  · exact stored
  · have waits : ∀ (here : StateGraph) (node : SyncNode) next,
        attempt crypto none here node = .later next →
        ∃ parent ∈ node.parents, next.nodes.contains parent = false := by
      intro here node next later
      obtain ⟨same, missing⟩ := attempt_waits later
      rwa [same]
    have remains : ∀ (here : StateGraph) (node other : SyncNode) next,
        (∃ parent ∈ node.parents, here.nodes.contains parent = false) →
        attempt crypto none here other = .later next →
        ∃ parent ∈ node.parents, next.nodes.contains parent = false := by
      intro here node other next missing later
      rwa [(attempt_waits later).1]
    obtain ⟨parent, edge, absent⟩ := runs.still_waits waits remains node left
    cases absent.symm.trans (parents parent edge)

/-- One-by-one import stores everything that can be placed. -/
theorem oneByOne_of_placed (alike : graph.ledger.ImportsAlike crypto nodes) {id : NodeId}
    (placed : Placed crypto none graph nodes id) :
    (importOneByOne crypto graph nodes).nodes.contains id = true := by
  have base : ∀ id, graph.nodes.contains id = true →
      (importOneByOne crypto graph nodes).nodes.contains id = true := by
    intro id known
    exact run_keeps attempt_contains known
  have closed : ∀ copy, Eligible crypto none graph nodes copy →
      (∀ parent ∈ copy.parents, (importOneByOne crypto graph nodes).nodes.contains parent = true) →
      (importOneByOne crypto graph nodes).nodes.contains copy.id = true := by
    intro copy eligible parents
    rw [importOneByOne] at parents ⊢
    cases ran : run (attempt crypto none) graph nodes with
    | error failure =>
      obtain ⟨there, item, visits, failed⟩ := exists_visit_of_error ran
      rw [ran] at parents
      simp only [finalState, attempt_failed_nodes failed] at parents ⊢
      obtain ⟨vouched, permits⟩ := cleared_iff.mp eligible.cleared
      have observed : there.ledger.attempt crypto item = .failed failure.1.ledger () := by
        rw [ledger_attempt, failed]
        rfl
      exact mem_ledger_ids.mp (alike.refused there.ledger item failure.1.ledger
        (comesTo_iff.mpr ⟨there, visits, rfl⟩) observed copy eligible.last vouched permits
        (ledger_knowsParents_iff.mpr parents))
    | ok result =>
      rw [ran] at parents
      exact stored_of_runs (run_ok_iff.mp ran) (mem_of_lastCopy eligible.last).1 parents
  exact placed.mem_of_closed base closed

end

/-- The three imports leave the same ids stored. -/
def SameIds (first second third : StateGraph) : Prop :=
  ∀ id, first.nodes.contains id = second.nodes.contains id ∧
    second.nodes.contains id = third.nodes.contains id

/-- The client's import, the server's and the host engine's store the same ids
exactly when every node that one-by-one import enters has a last copy that the
starting graph vouches for, and it refuses a node only once nothing that the
starting graph clears is left to place. -/
theorem imports_agree_iff (crypto : Crypto) (cipher : RoomCipher) (store : SyncStore crypto)
    (plain : store.roomKey = none) (nodes : List SyncNode) (sound : crypto.BatchSound nodes)
    (nowMs : Nat) (recent : ∀ node ∈ nodes, checkWallSkew nowMs node = .ok ())
    (collisionFree : crypto.CollisionFree { tx | ∃ node ∈ nodes, node.transaction = tx }) :
    SameIds (store.importPack cipher nodes).1.graph (importNodes crypto nowMs store.graph nodes).graph
        (hostImportPack crypto store.graph nodes).1 ↔
      store.graph.ledger.ImportsAlike crypto nodes := by
  have server (id : NodeId) : (importNodes crypto nowMs store.graph nodes).graph.nodes.contains id
      = true ↔ Placed crypto none store.graph nodes id :=
    (importPasses_contains_iff sound).trans (placed_recent recent)
  have host (id : NodeId) : (hostImportPack crypto store.graph nodes).1.nodes.contains id = true ↔
      Placed crypto none store.graph nodes id := importPasses_contains_iff sound
  rw [importPack_graph plain]
  constructor
  · intro same
    refine importsAlike_of_same fun id => ?_
    rw [(same id).1, server]
  · intro alike id
    refine ⟨eq_iff_iff.mpr ?_, eq_iff_iff.mpr ((server id).trans (host id).symm)⟩
    rw [server]
    exact ⟨placed_of_oneByOne alike collisionFree, oneByOne_of_placed alike⟩

/-- A client without a room key that has seen nothing. -/
def freshClient : SyncStore Crypto.sample := .new (Crypto.sampleKey 1)

theorem attempts_done : ∃ middle last,
    freshClient.graph.ledger.attempt Crypto.sample sampleNode = .done middle ∧
      middle.attempt Crypto.sample replyNode = .done last :=
  ⟨_, _, rfl, rfl⟩

/-- A write and the answer behind it. -/
theorem written_and_answered_imports_alike :
    SameIds (freshClient.importPack RoomCipher.sample [sampleNode, replyNode]).1.graph
      (importNodes Crypto.sample 0 freshClient.graph [sampleNode, replyNode]).graph
      (hostImportPack Crypto.sample freshClient.graph [sampleNode, replyNode]).1 := by
  obtain ⟨middle, last, written, answered⟩ := attempts_done
  -- The passes come to the write and then to the answer, and both are done at once.
  have visited {ledger node} (comes : freshClient.graph.ledger.ComesTo Crypto.sample
      [sampleNode, replyNode] ledger node) :
      (node = sampleNode ∨ node = replyNode) ∧
        ∃ next, ledger.attempt Crypto.sample node = .done next := by
    rcases comes.of_done written with ⟨rfl, rfl⟩ | behind
    · exact ⟨.inl rfl, _, written⟩
    · rcases behind.of_done answered with ⟨rfl, rfl⟩ | none
      · exact ⟨.inr rfl, _, answered⟩
      · exact (Or.elim none.mem not_mem_nil not_mem_nil).elim
  refine (imports_agree_iff Crypto.sample RoomCipher.sample freshClient rfl _
    (Crypto.sample_batchSound _) 0 (by decide)
    (Crypto.sample.collisionFree_of_nodes (by decide))).mpr ⟨?_, ?_⟩
  · intro ledger node next comes _ _
    obtain ⟨rfl | rfl, -⟩ := visited comes
    · exact ⟨sampleNode, by decide, by decide⟩
    · exact ⟨replyNode, by decide, by decide⟩
  · intro ledger node next comes failed
    obtain ⟨-, after, done⟩ := visited comes
    cases failed.symm.trans done

/-- A write whose signature was replaced. -/
def forgedWrite : SyncNode := { nearNode with signature := .padTo 64 [9] }

theorem forged_write_splits_imports :
    freshClient.roomKey = none ∧
      (∀ node ∈ [forgedWrite, sampleNode], checkWallSkew 0 node = .ok ()) ∧
      (freshClient.importPack RoomCipher.sample [forgedWrite, sampleNode]).1.graph.nodes.contains
        sampleNode.id = false ∧
      (importNodes Crypto.sample 0 freshClient.graph [forgedWrite, sampleNode]).graph.nodes.contains
        sampleNode.id = true ∧
      (hostImportPack Crypto.sample freshClient.graph [forgedWrite, sampleNode]).1.nodes.contains
        sampleNode.id = true := by
  exact ⟨rfl, by decide, by decide +kernel, by decide +kernel, by decide +kernel⟩

end NodalMerge
