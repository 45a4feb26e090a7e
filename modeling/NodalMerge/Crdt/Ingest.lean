import NodalMerge.Crdt.Ceiling
import NodalMerge.Crdt.Convergence
import NodalMerge.Library.Retry

namespace NodalMerge

open LinkedLog List MemoryNodeStore Retry

namespace StateGraph

/-- The graph a node is tried on: replay sets the policy of the node first. -/
def prepare (policyOf : Option (SyncNode → Policy)) (graph : StateGraph) (node : SyncNode) :
    StateGraph :=
  match policyOf with
  | some policy => graph.setPolicy (policy node)
  | none => graph

/-- One node of a multi-pass ingest. -/
def attempt (crypto : Crypto) (policyOf : Option (SyncNode → Policy)) (graph : StateGraph)
    (node : SyncNode) : Outcome StateGraph SyncError :=
  let applied := applyRemote crypto (graph.prepare policyOf node) node
  match applied.2 with
  | .ok () => .done applied.1
  | .error (.duplicateNode _) => .done applied.1
  | .error (.missingParent _) => .later applied.1
  | .error error => .failed applied.1 error

variable {crypto : Crypto} {policyOf : Option (SyncNode → Policy)} {graph next : StateGraph}

@[simp] theorem prepare_nodes : (graph.prepare policyOf node).nodes = graph.nodes := by
  cases policyOf <;> rfl

@[simp] theorem prepare_lamport : (graph.prepare policyOf node).lamport = graph.lamport := by
  cases policyOf <;> rfl

@[simp] theorem prepare_verifiedIds :
    (graph.prepare policyOf node).verifiedIds = graph.verifiedIds := by
  cases policyOf <;> rfl

/-- The checks before parents and policy: content hash, clock and signature. -/
structure Vetted (crypto : Crypto) (graph : StateGraph) (node : SyncNode) : Prop where
  hashed : crypto.txHash node.transaction = node.id
  ceiling : node.lamport ≤ saturatingAdd graph.lamport lamportSlack
  signed : node.id ∈ graph.verifiedIds ∨ node.Genuine crypto

theorem screened_iff : Screened crypto graph none node ↔ Vetted crypto graph node := by
  have signature : checkSignature crypto graph node = .ok () ↔
      node.id ∈ graph.verifiedIds ∨ node.Genuine crypto := by
    unfold checkSignature
    split
    · rename_i known
      simp [known]
    · rename_i unknown
      rw [SyncNode.verifySignature_ok_iff, or_iff_right unknown]
  constructor
  · rintro ⟨prechecked, signed⟩
    obtain ⟨hashed, ceiling, -⟩ := precheck_ok_iff.mp prechecked
    exact ⟨hashed, ceiling, signature.mp signed⟩
  · rintro ⟨hashed, ceiling, signed⟩
    exact ⟨precheck_ok_iff.mpr ⟨hashed, ceiling, by simp⟩, signature.mpr signed⟩

theorem vetted_prepare : Vetted crypto (graph.prepare policyOf node) node ↔
    Vetted crypto graph node := by
  constructor <;> rintro ⟨hashed, ceiling, signed⟩
  all_goals exact ⟨hashed, by simpa using ceiling, by simpa using signed⟩

theorem checkParents_missing (missing : ∃ parent ∈ node.parents, graph.nodes.contains parent = false) :
    ∃ parent, graph.checkParents node = .error (.missingParent parent) := by
  unfold checkParents
  split
  · exact ⟨_, rfl⟩
  · rename_i absent
    obtain ⟨parent, edge, unknown⟩ := missing
    have known := List.find?_eq_none.mp absent parent edge
    simp [unknown] at known

/-- A vetted node with a missing parent stays marked and waits. -/
theorem attempt_later (vetted : Vetted crypto graph node)
    (missing : ∃ parent ∈ node.parents, graph.nodes.contains parent = false) :
    attempt crypto policyOf graph node =
      .later ((graph.prepare policyOf node).markVerified node.id) := by
  have screened := screened_iff.mpr (vetted_prepare.mpr vetted : Vetted crypto (graph.prepare policyOf node) node)
  obtain ⟨parent, failed⟩ := @checkParents_missing
    ((graph.prepare policyOf node).markVerified node.id) node (by simpa using missing)
  simp only [attempt, applyRemote, applyRemoteChecked, screened.prechecked, screened.signed,
    applyRemoteVerified, applyRemoteVerifiedNoProjection, failed, bind, Except.bind]

/-- A vetted node whose parents are there, and that the policy permits, is done:
it is accepted or was stored before. -/
theorem attempt_done (vetted : Vetted crypto graph node)
    (parents : ∀ parent ∈ node.parents, graph.nodes.contains parent = true)
    (permitted : (graph.prepare policyOf node).Permitted node) :
    attempt crypto policyOf graph node =
      .done (if graph.nodes.contains node.id then (graph.prepare policyOf node).markVerified node.id
        else (graph.prepare policyOf node).accept node) := by
  have screened := screened_iff.mpr (vetted_prepare.mpr vetted : Vetted crypto (graph.prepare policyOf node) node)
  have known : ∀ parent ∈ node.parents,
      (graph.prepare policyOf node).nodes.contains parent = true := by simpa using parents
  cases stored : graph.nodes.contains node.id with
  | true =>
    have parentsOk : ((graph.prepare policyOf node).markVerified node.id).checkParents node = .ok () :=
      checkParents_ok_iff.mpr known
    have policyOk : ((graph.prepare policyOf node).markVerified node.id).checkPolicy node = .ok () :=
      checkPolicy_ok_iff.mpr permitted
    have duplicate : ((graph.prepare policyOf node).markVerified node.id).insertNode node =
        .error (.duplicateNode node.id) := by
      simp only [insertNode, markVerified_nodes, prepare_nodes, stored, ↓reduceIte]
    simp only [attempt, applyRemote, applyRemoteChecked, screened.prechecked, screened.signed,
      applyRemoteVerified, applyRemoteVerifiedNoProjection, parentsOk, policyOk, duplicate, bind,
      Except.bind, ↓reduceIte]
  | false =>
    have accepted := applyRemoteChecked_accepts screened ⟨known, permitted, by simpa using stored⟩
    simp only [attempt, applyRemote, accepted, Bool.false_eq_true, ↓reduceIte]

theorem precheck_unhashed (differs : crypto.txHash node.transaction ≠ node.id) :
    precheck crypto localLamport nowMs node =
      .error (.hashMismatch (crypto.txHash node.transaction) node.id) := by
  simp [precheck, differs, throw, throwThe, MonadExceptOf.throw, bind, Except.bind]

theorem precheck_above (hashed : crypto.txHash node.transaction = node.id)
    (limit : saturatingAdd localLamport lamportSlack = ceiling) (above : ceiling < node.lamport) :
    precheck crypto localLamport nowMs node =
      .error (.lamportCeiling node.id node.lamport ceiling) := by
  have refused : checkLamportCeiling localLamport node =
      .error (.lamportCeiling node.id node.lamport ceiling) := by
    subst limit
    exact if_pos above
  unfold precheck
  rw [if_neg (not_not.mpr hashed), refused]
  rfl

/-- Any other node ends the run. -/
theorem attempt_failed (refused : ¬ Vetted crypto graph node ∨
      (∀ parent ∈ node.parents, graph.nodes.contains parent = true) ∧
        ¬ (graph.prepare policyOf node).Permitted node) :
    ∃ next error, attempt crypto policyOf graph node = .failed next error := by
  by_cases vetted : Vetted crypto (graph.prepare policyOf node) node
  · obtain ⟨parents, forbidden⟩ := refused.resolve_left (not_not_intro (vetted_prepare.mp vetted))
    have screened := screened_iff.mpr vetted
    have parentsOk : ((graph.prepare policyOf node).markVerified node.id).checkParents node = .ok () :=
      checkParents_ok_iff.mpr (by simpa using parents)
    obtain ⟨error, policyBad⟩ : ∃ op : Op, ((graph.prepare policyOf node).markVerified
        node.id).checkPolicy node = .error (.policyViolation node.transaction.author op.key) := by
      have notOk : ((graph.prepare policyOf node).markVerified node.id).checkPolicy node ≠ .ok () :=
        fun ok => forbidden (checkPolicy_ok_iff.mp ok)
      unfold checkPolicy at notOk ⊢
      split
      · rename_i snapshot
        simp [snapshot] at notOk
      · rename_i plain
        dsimp only at notOk ⊢
        split
        · exact ⟨_, rfl⟩
        · rename_i absent
          rw [if_neg plain] at notOk
          simp only [absent] at notOk
          exact (notOk rfl).elim
    simp only [attempt, applyRemote, applyRemoteChecked, screened.prechecked, screened.signed,
      applyRemoteVerified, applyRemoteVerifiedNoProjection, parentsOk, policyBad, bind, Except.bind]
    exact ⟨_, _, rfl⟩
  · by_cases hashed : crypto.txHash node.transaction = node.id
    · by_cases ceiling : node.lamport ≤ saturatingAdd (graph.prepare policyOf node).lamport lamportSlack
      · have prechecked : precheck crypto (graph.prepare policyOf node).lamport none node = .ok () :=
          precheck_ok_iff.mpr ⟨hashed, ceiling, by simp⟩
        have unsigned : checkSignature crypto (graph.prepare policyOf node) node =
            .error (.invalidSignature node.id) := by
          have fails : ¬ (node.id ∈ (graph.prepare policyOf node).verifiedIds ∨
              node.Genuine crypto) := fun signed => vetted ⟨hashed, ceiling, signed⟩
          obtain ⟨unknown, forged⟩ := not_or.mp fails
          rw [checkSignature, if_neg unknown, SyncNode.verifySignature,
            if_neg fun zero => forged (.inl zero), if_neg fun verifies => forged (.inr verifies)]
        simp only [attempt, applyRemote, applyRemoteChecked, prechecked, unsigned]
        exact ⟨_, _, rfl⟩
      · obtain ⟨limit, limitIs⟩ : ∃ limit,
            saturatingAdd (graph.prepare policyOf node).lamport lamportSlack = limit := ⟨_, rfl⟩
        rw [limitIs] at ceiling
        simp only [attempt, applyRemote, applyRemoteChecked,
          precheck_above hashed limitIs (not_le.mp ceiling)]
        exact ⟨_, _, rfl⟩
    · simp only [attempt, applyRemote, applyRemoteChecked, precheck_unhashed hashed]
      exact ⟨_, _, rfl⟩

theorem parents_cases (graph : StateGraph) (node : SyncNode) :
    (∃ parent ∈ node.parents, graph.nodes.contains parent = false) ∨
      ∀ parent ∈ node.parents, graph.nodes.contains parent = true := by
  by_cases missing : ∃ parent ∈ node.parents, graph.nodes.contains parent = false
  · exact .inl missing
  · refine .inr fun parent edge => ?_
    by_contra unknown
    exact missing ⟨parent, edge, by simpa using unknown⟩

/-- What an attempt that does not fail has checked, and what it leaves behind. -/
theorem attempt_inv (tried : attempt crypto policyOf graph node = outcome) :
    (∃ next error, outcome = .failed next error) ∨
    Vetted crypto graph node ∧
      ((∃ parent ∈ node.parents, graph.nodes.contains parent = false) ∧
          outcome = .later ((graph.prepare policyOf node).markVerified node.id) ∨
        (∀ parent ∈ node.parents, graph.nodes.contains parent = true) ∧
          (graph.prepare policyOf node).Permitted node ∧
          outcome = .done (if graph.nodes.contains node.id then
              (graph.prepare policyOf node).markVerified node.id
            else (graph.prepare policyOf node).accept node)) := by
  subst tried
  by_cases vetted : Vetted crypto graph node
  · rcases parents_cases graph node with missing | parents
    · exact .inr ⟨vetted, .inl ⟨missing, attempt_later vetted missing⟩⟩
    · by_cases permitted : (graph.prepare policyOf node).Permitted node
      · exact .inr ⟨vetted, .inr ⟨parents, permitted, attempt_done vetted parents permitted⟩⟩
      · exact .inl (attempt_failed (.inr ⟨parents, permitted⟩))
  · exact .inl (attempt_failed (.inl vetted))

theorem attempt_state (proceeds : (attempt crypto policyOf graph node).Proceeds next) :
    next = (applyRemote crypto (graph.prepare policyOf node) node).1 := by
  unfold attempt at proceeds
  dsimp only at proceeds
  split at proceeds <;> rcases proceeds with done | later <;> first | cases done | cases later
  all_goals rfl

end StateGraph

theorem maxLamport_append (front back : List SyncNode) :
    maxLamport (front ++ back) = max (maxLamport front) (maxLamport back) := by
  induction front with
  | nil => exact (Nat.zero_max _).symm
  | cons node rest ih =>
    change max node.lamport (maxLamport (rest ++ back)) =
      max (max node.lamport (maxLamport rest)) (maxLamport back)
    rw [ih, max_assoc]

theorem le_maxLamport (member : node ∈ nodes) : node.lamport ≤ maxLamport nodes := by
  obtain ⟨front, back, rfl⟩ := append_of_mem member
  rw [maxLamport_append]
  exact le_max_of_le_right (le_max_left _ _)

theorem maxLamport_singleton (node : SyncNode) : maxLamport [node] = node.lamport :=
  Nat.max_zero _

/-- Every clock is within the slack of the largest one before it. -/
def WithinCeiling (order : List SyncNode) : Prop :=
  ∀ front node back, order = front ++ node :: back →
    node.lamport ≤ saturatingAdd (maxLamport front) lamportSlack

theorem WithinCeiling.append {order : List SyncNode} {node : SyncNode}
    (within : WithinCeiling order)
    (ceiling : node.lamport ≤ saturatingAdd (maxLamport order) lamportSlack) :
    WithinCeiling (order ++ [node]) := by
  intro front other back split
  cases back using reverseRecOn with
  | nil =>
    obtain ⟨rfl, same⟩ := append_inj' split rfl
    rwa [← (List.cons.inj same).1]
  | append_singleton back last _ =>
    rw [← cons_append, ← append_assoc] at split
    exact within front other back (append_inj' split rfl).1

theorem maxLamport_map (same : ∀ node ∈ nodes, (copy node).lamport = node.lamport) :
    maxLamport (nodes.map copy) = maxLamport nodes := by
  unfold maxLamport
  rw [map_map]
  exact congrArg _ (map_congr_left same)

theorem WithinCeiling.map (within : WithinCeiling order)
    (same : ∀ node ∈ order, (copy node).lamport = node.lamport) :
    WithinCeiling (order.map copy) := by
  intro front node back split
  obtain ⟨before, rest, rfl, rfl, tail⟩ := map_eq_append_iff.mp split
  obtain ⟨entry, behind, rfl, rfl, rfl⟩ := map_eq_cons_iff.mp tail
  rw [same entry (by simp), maxLamport_map fun other member => same other (by simp [member])]
  exact within before entry behind rfl

/-- The node is new and comes behind its parents. -/
structure Placeable (known : List SyncNode) (node : SyncNode) : Prop where
  fresh : node.id ∉ known.map SyncNode.id
  known : ∀ parent ∈ node.parents, parent ∈ known.map SyncNode.id

/-- The policy a node is judged by, where `base` stays in force unless replay
sets another one. -/
def policyAt (policyOf : Option (SyncNode → Policy)) (base : Policy) (node : SyncNode) : Policy :=
  match policyOf with
  | some policy => policy node
  | none => base

/-- Content hash and policy are in order, whatever the graph. -/
structure Lawful (crypto : Crypto) (policyOf : Option (SyncNode → Policy)) (base : Policy)
    (node : SyncNode) : Prop where
  hashed : crypto.txHash node.transaction = node.id
  permitted : (StateGraph.empty.setPolicy (policyAt policyOf base node)).Permitted node

namespace StateGraph

variable {graph next : StateGraph} {nodes : List SyncNode}

theorem permitted_prepare (steady : policyOf = none → graph.policy = base) :
    (graph.prepare policyOf node).Permitted node ↔
      (StateGraph.empty.setPolicy (policyAt policyOf base node)).Permitted node := by
  unfold prepare policyAt
  cases policyOf with
  | some policy => exact Iff.rfl
  | none =>
    have same : graph.policy = base := steady rfl
    simp only [Permitted, setPolicy, same]

/-- A graph that was filled from the nodes of a list. -/
structure Intake (crypto : Crypto) (policyOf : Option (SyncNode → Policy)) (base : Policy)
    (nodes : List SyncNode) (graph : StateGraph) : Prop where
  reached : Reachable crypto (fun _ _ => True) graph
  steady : policyOf = none → graph.policy = base
  clock : graph.lamport = maxLamport graph.nodes.data
  source : ∀ node ∈ graph.nodes.data, node ∈ nodes
  verified : ∀ id ∈ graph.verifiedIds, ∃ copy ∈ nodes, copy.id = id ∧ copy.Genuine crypto
  marked : ∀ node ∈ graph.nodes.data, node.id ∈ graph.verifiedIds
  within : WithinCeiling graph.nodes.data

theorem Intake.empty (crypto : Crypto) (policyOf : Option (SyncNode → Policy))
    (nodes : List SyncNode) : Intake crypto policyOf .default nodes .empty where
  reached := .start
  steady _ := rfl
  clock := rfl
  source _ member := (not_mem_nil member).elim
  verified _ member := absurd member (Finset.notMem_empty _)
  marked _ member := (not_mem_nil member).elim
  within front node back split := by
    have size := congrArg List.length split
    simp [StateGraph.empty, MemoryNodeStore.empty] at size

/-- What an attempt that does not fail does to the graph. -/
structure Effect (crypto : Crypto) (policyOf : Option (SyncNode → Policy)) (graph : StateGraph)
    (node : SyncNode) (next : StateGraph) : Prop where
  vetted : Vetted crypto graph node
  policy : policyOf = none → next.policy = graph.policy
  verifiedIds : next.verifiedIds = insert node.id graph.verifiedIds
  stored : (¬ Placeable graph.nodes.data node ∧ next.nodes = graph.nodes ∧
      next.lamport = graph.lamport) ∨
    (Placeable graph.nodes.data node ∧ next.nodes.data = graph.nodes.data ++ [node] ∧
      next.lamport = max graph.lamport node.lamport)

theorem attempt_effect (proceeds : (attempt crypto policyOf graph node).Proceeds next) :
    Effect crypto policyOf graph node next := by
  have steady : policyOf = none → (graph.prepare policyOf node).policy = graph.policy := by
    rintro rfl
    rfl
  have unplaced (vetted : Vetted crypto graph node) (refused : ¬ Placeable graph.nodes.data node) :
      Effect crypto policyOf graph node ((graph.prepare policyOf node).markVerified node.id) := by
    refine ⟨vetted, steady, ?_, .inl ⟨refused, ?_, prepare_lamport⟩⟩
    · simp [markVerified]
    · simp
  rcases attempt_inv (rfl : attempt crypto policyOf graph node = _) with
    ⟨state, error, failed⟩ | ⟨vetted, ⟨⟨parent, edge, missing⟩, later⟩ | ⟨parents, permitted, done⟩⟩
  · rcases proceeds with done | later
    · cases failed.symm.trans done
    · cases failed.symm.trans later
  · have same : (graph.prepare policyOf node).markVerified node.id = next := by
      rcases proceeds with other | other
      · cases later.symm.trans other
      · exact Outcome.later.inj (later.symm.trans other)
    exact same ▸ unplaced vetted fun placeable =>
      contains_eq_false.mp missing (placeable.known parent edge)
  · have same : (if graph.nodes.contains node.id then
        (graph.prepare policyOf node).markVerified node.id
      else (graph.prepare policyOf node).accept node) = next := by
      rcases proceeds with other | other
      · exact Outcome.done.inj (done.symm.trans other)
      · cases done.symm.trans other
    split at same
    · rename_i present
      exact same ▸ unplaced vetted fun placeable =>
        placeable.fresh (contains_iff.mp present)
    · rename_i fresh
      have absent : graph.nodes.contains node.id = false := by simpa using fresh
      subst same
      refine ⟨vetted, steady, ?_, .inr ⟨⟨contains_eq_false.mp absent,
        fun parent edge => contains_iff.mp (parents parent edge)⟩, ?_, ?_⟩⟩
      · change insert node.id (graph.prepare policyOf node).verifiedIds = _
        rw [prepare_verifiedIds]
      · change ((graph.prepare policyOf node).nodes.put node).data = _
        rw [prepare_nodes, put_fresh absent]
      · change max (graph.prepare policyOf node).lamport node.lamport = _
        rw [prepare_lamport]

theorem Intake.step (intake : Intake crypto policyOf base nodes graph) (member : node ∈ nodes)
    (proceeds : (attempt crypto policyOf graph node).Proceeds next) :
    Intake crypto policyOf base nodes next := by
  have reached : Reachable crypto (fun _ _ => True) next := by
    rw [attempt_state proceeds]
    cases policyOf with
    | none => exact intake.reached.remote node none trivial
    | some policy =>
      have set : Reachable crypto (fun _ _ => True) (graph.setPolicy (policy node)) :=
        .call intake.reached trivial (rfl : (Call.setPolicy (policy node) : Call crypto graph).run = _)
      exact set.remote node none trivial
  have effect := attempt_effect proceeds
  have steady : policyOf = none → next.policy = base :=
    fun unset => (effect.policy unset).trans (intake.steady unset)
  have verified : ∀ id ∈ next.verifiedIds, ∃ copy ∈ nodes, copy.id = id ∧ copy.Genuine crypto := by
    intro id known
    rw [effect.verifiedIds] at known
    rcases Finset.mem_insert.mp known with rfl | earlier
    · rcases effect.vetted.signed with marked | genuine
      · exact intake.verified node.id marked
      · exact ⟨node, member, rfl, genuine⟩
    · exact intake.verified id earlier
  have marked : ∀ other ∈ graph.nodes.data, other.id ∈ next.verifiedIds := by
    intro other stored
    rw [effect.verifiedIds]
    exact Finset.mem_insert_of_mem (intake.marked other stored)
  rcases effect.stored with ⟨-, sameNodes, sameClock⟩ | ⟨-, data, clock⟩
  · refine ⟨reached, steady, ?_, ?_, verified, ?_, ?_⟩
    · rw [sameClock, sameNodes, intake.clock]
    · rw [sameNodes]
      exact intake.source
    · rw [sameNodes]
      exact marked
    · rw [sameNodes]
      exact intake.within
  · refine ⟨reached, steady, ?_, ?_, verified, ?_, ?_⟩
    · rw [clock, data, maxLamport_append, maxLamport_singleton, intake.clock]
    · rw [data]
      intro other inside
      rcases mem_append.mp inside with earlier | last
      · exact intake.source other earlier
      · rwa [mem_singleton.mp last]
    · rw [data]
      intro other inside
      rcases mem_append.mp inside with earlier | last
      · exact marked other earlier
      · rw [mem_singleton.mp last, effect.verifiedIds]
        exact Finset.mem_insert_self _ _
    · rw [data]
      refine intake.within.append ?_
      rw [← intake.clock]
      exact effect.vetted.ceiling

theorem Effect.contains (effect : Effect crypto policyOf graph node next) {id : NodeId}
    (known : graph.nodes.contains id = true) : next.nodes.contains id = true := by
  rcases effect.stored with ⟨-, sameNodes, -⟩ | ⟨-, data, -⟩
  · rwa [sameNodes]
  · rw [contains_iff, data, map_append, mem_append]
    exact .inl (contains_iff.mp known)

theorem contains_of_done (done : attempt crypto policyOf graph node = .done next) :
    next.nodes.contains node.id = true := by
  rcases attempt_inv done with ⟨state, error, failed⟩ | ⟨-, ⟨-, later⟩ | ⟨-, -, result⟩⟩
  · cases failed
  · cases later
  · obtain rfl := Outcome.done.inj result
    split
    · rename_i stored
      simpa using stored
    · exact contains_iff.mpr
        (mem_map_of_mem ((graph.prepare policyOf node).nodes.self_mem_put node))

/-- A node that is done is lawful and stored. -/
theorem Intake.done (intake : Intake crypto policyOf base nodes graph)
    (done : attempt crypto policyOf graph node = .done next) :
    Lawful crypto policyOf base node ∧ next.nodes.contains node.id = true := by
  refine ⟨?_, contains_of_done done⟩
  rcases attempt_inv done with ⟨state, error, failed⟩ | ⟨vetted, ⟨-, later⟩ | ⟨-, permitted, -⟩⟩
  · cases failed
  · cases later
  · exact ⟨vetted.hashed, (permitted_prepare intake.steady).mp permitted⟩

/-- Nodes that come behind their parents, within the clock limit and signed, are
all stored in one pass. -/
theorem Intake.store_all (intake : Intake crypto policyOf base nodes graph)
    (linked : Linked SyncNode.id SyncNode.parents (graph.nodes.data ++ order))
    (within : WithinCeiling (graph.nodes.data ++ order))
    (each : ∀ node ∈ order, node ∈ nodes ∧ Lawful crypto policyOf base node ∧
      (node.id ∈ graph.verifiedIds ∨ node.Genuine crypto)) :
    ∃ last, Trace (attempt crypto policyOf) graph order last [] ∧
      Intake crypto policyOf base nodes last ∧ last.nodes.data = graph.nodes.data ++ order := by
  induction order generalizing graph with
  | nil => exact ⟨graph, .nil, intake, by simp⟩
  | cons node rest ih =>
    obtain ⟨member, lawful, signed⟩ := each node (.head _)
    obtain ⟨fresh, known⟩ := linked.entry
    have absent : graph.nodes.contains node.id = false := contains_eq_false.mpr fresh
    have vetted : Vetted crypto graph node := by
      refine ⟨lawful.hashed, ?_, signed⟩
      rw [intake.clock]
      exact within _ node rest rfl
    have done := attempt_done vetted (fun parent edge => contains_iff.mpr (known parent edge))
      ((permitted_prepare intake.steady).mpr lawful.permitted)
    rw [absent] at done
    have data : ((graph.prepare policyOf node).accept node).nodes.data = graph.nodes.data ++ [node] := by
      change ((graph.prepare policyOf node).nodes.put node).data = _
      rw [prepare_nodes, put_fresh absent]
    obtain ⟨last, trace, after, result⟩ := ih (intake.step member (.inl done)) (by simpa [data] using linked)
      (by simpa [data] using within) fun other later => by
        obtain ⟨inside, otherLawful, otherSigned⟩ := each other (.tail _ later)
        refine ⟨inside, otherLawful, otherSigned.imp (fun marked => ?_) id⟩
        rw [(attempt_effect (.inl done)).verifiedIds]
        exact Finset.mem_insert_of_mem marked
    exact ⟨last, .done done trace, after, by simpa [data] using result⟩

/-- Conversely, where every node comes behind its parents, a pass that does not
fail stores them all. -/
theorem stored_in_order (trace : Trace (attempt crypto policyOf) graph order last still)
    (linked : Linked SyncNode.id SyncNode.parents (graph.nodes.data ++ order)) :
    still = [] ∧ last.nodes.data = graph.nodes.data ++ order := by
  induction trace with
  | nil => simp
  | @done graph next last node rest still stepped tail ih =>
    have placeable : Placeable graph.nodes.data node := ⟨linked.entry.1, linked.entry.2⟩
    rcases (attempt_effect (.inl stepped)).stored with ⟨refused, -⟩ | ⟨-, data, -⟩
    · exact (refused placeable).elim
    · rw [append_cons, ← data] at linked
      obtain ⟨nothing, result⟩ := ih linked
      exact ⟨nothing, by rw [result, data, append_assoc, singleton_append]⟩
  | @later graph next last node rest still stepped tail ih =>
    rcases attempt_inv stepped with ⟨state, error, failed⟩ |
      ⟨-, ⟨⟨parent, edge, missing⟩, -⟩ | ⟨-, -, done⟩⟩
    · cases failed
    · exact (contains_eq_false.mp missing (linked.entry.2 parent edge)).elim
    · cases done

/-- Copies of stored nodes change no node. -/
theorem Intake.repeat_all (intake : Intake crypto policyOf base nodes graph) {extra : List SyncNode}
    (each : ∀ node ∈ extra, node ∈ nodes ∧ Lawful crypto policyOf base node ∧
      ∃ copy ∈ graph.nodes.data, copy.id = node.id ∧ copy.transaction = node.transaction) :
    ∃ last, Trace (attempt crypto policyOf) graph extra last [] ∧
      Intake crypto policyOf base nodes last ∧ last.nodes = graph.nodes := by
  induction extra generalizing graph with
  | nil => exact ⟨graph, .nil, intake, rfl⟩
  | cons node rest ih =>
    obtain ⟨member, lawful, copy, stored, sameId, sameTx⟩ := each node (.head _)
    have dag := intake.reached.dag
    have present : graph.nodes.contains node.id = true :=
      contains_iff.mpr (mem_map.mpr ⟨copy, stored, sameId⟩)
    have vetted : Vetted crypto graph node := by
      refine ⟨lawful.hashed, ?_, .inl (sameId ▸ intake.marked copy stored)⟩
      have below : node.lamport ≤ graph.lamport := by
        rw [SyncNode.lamport, ← sameTx]
        exact dag.clock copy stored
      exact le_min (below.trans (Nat.le_add_right _ _)) (below.trans dag.bounded)
    have parents : ∀ parent ∈ node.parents, graph.nodes.contains parent = true := by
      intro parent edge
      rw [SyncNode.parents, ← sameTx] at edge
      exact contains_iff.mpr (dag.linked.closed stored edge)
    have done := attempt_done vetted parents ((permitted_prepare intake.steady).mpr lawful.permitted)
    rw [present] at done
    have same : ((graph.prepare policyOf node).markVerified node.id).nodes = graph.nodes := by simp
    obtain ⟨last, trace, after, result⟩ := ih (intake.step member (.inl done)) fun other later => by
      rw [if_pos rfl, same]
      exact each other (.tail _ later)
    exact ⟨last, .done done trace, after, by simpa using result⟩

/-- When no attempt fails, the intake is kept and every node is lawful and stored
or left over. -/
theorem Intake.runs (intake : Intake crypto policyOf base nodes graph)
    (inside : ∀ node ∈ items, node ∈ nodes)
    (runs : Runs (attempt crypto policyOf) graph items last still) :
    Intake crypto policyOf base nodes last ∧ ∀ node ∈ items,
      (Lawful crypto policyOf base node ∧ last.nodes.contains node.id = true) ∨ node ∈ still := by
  have kept : ∀ state node next, node ∈ items → Intake crypto policyOf base nodes state →
      (attempt crypto policyOf state node).Proceeds next → Intake crypto policyOf base nodes next :=
    fun state node next member before => before.step (inside node member)
  have gained : ∀ state node next, Intake crypto policyOf base nodes state →
      attempt crypto policyOf state node = .done next →
      Lawful crypto policyOf base node ∧ next.nodes.contains node.id = true :=
    fun state node next before => before.done
  refine ⟨runs.invariant kept intake, runs.done_or_still kept gained ?_ intake⟩
  intro state node other next fact proceeds
  exact ⟨fact.1, (attempt_effect proceeds).contains fact.2⟩

/-- Two nodes of the list with one id carry one transaction. -/
def OneTransaction (nodes : List SyncNode) : Prop :=
  ∀ first ∈ nodes, ∀ second ∈ nodes, first.id = second.id → first.transaction = second.transaction

/-- Nodes that no graph refuses are all stored, in whatever order they come. -/
theorem Intake.runs_all (intake : Intake crypto policyOf base nodes graph)
    (one : OneTransaction nodes) (linked : Linked SyncNode.id SyncNode.parents cover)
    (inside : ∀ node ∈ cover, node ∈ nodes)
    (covers : ∀ node ∈ nodes, node.id ∈ cover.map SyncNode.id)
    (itemsInside : ∀ node ∈ items, node ∈ nodes)
    (accounted : ∀ node ∈ nodes, graph.nodes.contains node.id = true ∨ node ∈ items)
    (each : ∀ node ∈ nodes, Lawful crypto policyOf base node ∧ node.Genuine crypto ∧
      node.lamport ≤ lamportSlack) :
    ∃ last, Runs (attempt crypto policyOf) graph items last [] := by
  have vetted {state : StateGraph} {node : SyncNode} (member : node ∈ nodes) :
      Vetted crypto state node := by
    obtain ⟨lawful, genuine, low⟩ := each node member
    refine ⟨lawful.hashed, le_min (low.trans (Nat.le_add_left _ _)) (low.trans ?_), .inr genuine⟩
    decide
  let Inv (state : StateGraph) (pending : List SyncNode) : Prop :=
    Intake crypto policyOf base nodes state ∧ (∀ node ∈ pending, node ∈ nodes) ∧
      ∀ node ∈ nodes, state.nodes.contains node.id = true ∨ node ∈ pending
  let Ready (state : StateGraph) (node : SyncNode) : Prop :=
    ∀ parent ∈ node.parents, state.nodes.contains parent = true
  have works : ∀ state front node back, Inv state (front ++ node :: back) → Ready state node →
      ∃ next, attempt crypto policyOf state node = .done next := by
    rintro state front node back ⟨before, inNodes, -⟩ ready
    have member := inNodes node (by simp)
    exact ⟨_, attempt_done (vetted member) ready
      ((permitted_prepare before.steady).mpr (each node member).1.permitted)⟩
  have steps : ∀ state front node back, Inv state (front ++ node :: back) →
      (∃ next, attempt crypto policyOf state node = .done next ∧ Inv next (front ++ back)) ∨
        ∃ next, attempt crypto policyOf state node = .later next ∧ Inv next (front ++ node :: back) := by
    rintro state front node back ⟨before, inNodes, known⟩
    have member := inNodes node (by simp)
    rcases parents_cases state node with missing | ready
    · have later := @attempt_later crypto policyOf state node (vetted member) missing
      refine .inr ⟨_, later, before.step member (.inr later), inNodes, fun other inAll => ?_⟩
      exact (known other inAll).imp (attempt_effect (.inr later)).contains id
    · obtain ⟨next, done⟩ := works state front node back ⟨before, inNodes, known⟩ ready
      refine .inl ⟨next, done, before.step member (.inl done), ?_, fun other inAll => ?_⟩
      · intro other inside
        exact inNodes other (by simp only [mem_append, mem_cons] at inside ⊢; tauto)
      · have effect := attempt_effect (.inl done)
        rcases known other inAll with stored | waits
        · exact .inl (effect.contains stored)
        · rcases mem_append.mp waits with inFront | inBack
          · exact .inr (mem_append_left _ inFront)
          · rcases mem_cons.mp inBack with rfl | later
            · exact .inl (before.done done).2
            · exact .inr (mem_append_right _ later)
  have lasting : ∀ state node other next, Ready state node →
      (attempt crypto policyOf state other).Proceeds next → Ready next node :=
    fun state node other next ready proceeds parent edge =>
      (attempt_effect proceeds).contains (ready parent edge)
  have progress : ∀ state pending, Inv state pending → pending ≠ [] →
      ∃ node ∈ pending, Ready state node := by
    rintro state pending ⟨before, inNodes, known⟩ nonempty
    cases search : cover.find? (fun node => !state.nodes.contains node.id) with
    | some node =>
      -- The first node of the order that is not stored.
      obtain ⟨absent, front, back, rfl, stored⟩ := List.find?_eq_some_iff_append.mp search
      have member := inside node (by simp)
      refine ⟨node, (known node member).resolve_left (by simpa using absent), fun parent edge => ?_⟩
      obtain ⟨earlier, inFront, rfl⟩ := mem_map.mp (linked.entry.2 parent edge)
      simpa using stored earlier inFront
    | none =>
      obtain ⟨node, member⟩ := exists_mem_of_ne_nil _ nonempty
      refine ⟨node, member, fun parent edge => ?_⟩
      obtain ⟨copy, inCover, sameId⟩ := mem_map.mp (covers node (inNodes node member))
      rw [SyncNode.parents, ← one copy (inside copy inCover) node (inNodes node member) sameId] at edge
      obtain ⟨entry, inLog, rfl⟩ := mem_map.mp (linked.closed inCover edge)
      simpa using List.find?_eq_none.mp search entry inLog
  obtain ⟨last, ran, -⟩ := runs_to_end steps works lasting progress graph items
    ⟨intake, itemsInside, accounted⟩
  exact ⟨last, ran⟩

end StateGraph

end NodalMerge
