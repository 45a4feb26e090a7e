import NodalMerge.Crdt.Graph

namespace NodalMerge

open List

theorem bind_eq_ok {Error Value Result : Type} {first : Except Error Value}
    {next : Value → Except Error Result} {result : Result} :
    first >>= next = .ok result ↔ ∃ value, first = .ok value ∧ next value = .ok result := by
  cases first with
  | error error => simp [bind, Except.bind]
  | ok value => simp [bind, Except.bind]

namespace MemoryNodeStore

variable {store : MemoryNodeStore}

theorem contains_iff {id : NodeId} :
    store.contains id = true ↔ id ∈ store.data.map SyncNode.id := by
  simp [contains]

theorem contains_eq_false {id : NodeId} :
    store.contains id = false ↔ id ∉ store.data.map SyncNode.id := by
  rw [← Bool.not_eq_true, contains_iff]

theorem put_fresh (fresh : store.contains node.id = false) :
    (store.put node).data = store.data ++ [node] := by
  have kept : store.data.filter (fun other => other.id ≠ node.id) = store.data := by
    apply filter_eq_self.mpr
    intro other member
    have different : other.id ≠ node.id := by
      intro same
      exact contains_eq_false.mp fresh (mem_map.mpr ⟨other, member, same⟩)
    simpa using different
  simp only [put, kept]

theorem self_mem_put (store : MemoryNodeStore) (node : SyncNode) : node ∈ (store.put node).data := by
  simp [put]

theorem contains_put {id : NodeId} (known : store.contains id = true)
    (node : SyncNode) : (store.put node).contains id = true := by
  rw [contains_iff] at known ⊢
  obtain ⟨other, member, rfl⟩ := mem_map.mp known
  by_cases same : other.id = node.id
  · exact mem_map.mpr ⟨node, store.self_mem_put node, same.symm⟩
  · exact mem_map.mpr ⟨other, by simp [put, member, same], rfl⟩

theorem get_of_mem (nodup : (store.data.map SyncNode.id).Nodup) (member : node ∈ store.data) :
    store.get node.id = some node := by
  have isSome : (store.get node.id).isSome := find?_isSome.mpr ⟨node, member, by simp⟩
  obtain ⟨found, lookup⟩ := Option.isSome_iff_exists.mp isSome
  have same : found.id = node.id := by simpa using find?_some lookup
  rw [lookup, inj_on_of_nodup_map nodup (mem_of_find?_eq_some lookup) member same]

theorem put_nodup (nodup : (store.data.map SyncNode.id).Nodup)
    (fresh : store.contains node.id = false) : ((store.put node).data.map SyncNode.id).Nodup := by
  have appended := nodup.concat (contains_eq_false.mp fresh)
  rw [put_fresh fresh, map_append]
  simpa using appended

end MemoryNodeStore

/-- The part of a graph that only an admitted node or a local write changes. -/
@[ext] structure Core where
  nodes : MemoryNodeStore
  leaves : Finset NodeId
  frontier : Frontier
  lamport : Nat
  stateCaches : StateCaches

namespace Core

def store (core : Core) (node : SyncNode) (canonical : Bool) : Core where
  nodes := core.nodes.put node
  leaves := insert node.id (core.leaves \ node.parents.toFinset)
  frontier := core.frontier.advance node
  lamport := max core.lamport node.lamport
  stateCaches := core.stateCaches.updateStateCaches node canonical

/-- The elementary changes: the clock moves on, or a node is stored under its
content hash after its parents. -/
inductive Step (crypto : Crypto) : Core → Core → Prop where
  | advance (forward : core.lamport ≤ clock) (bounded : clock ≤ u64Max) :
      Step crypto core { core with lamport := clock }
  | store (parents : ∀ parent ∈ node.parents, core.nodes.contains parent = true)
      (fresh : core.nodes.contains node.id = false)
      (hashed : crypto.txHash node.transaction = node.id) (bounded : node.lamport ≤ u64Max) :
      Step crypto core (core.store node canonical)

/-- Any number of elementary changes. -/
abbrev Steps (crypto : Crypto) : Core → Core → Prop := Relation.ReflTransGen (Step crypto)

end Core

namespace StateGraph

def core (graph : StateGraph) : Core where
  nodes := graph.nodes
  leaves := graph.leaves
  frontier := graph.frontier
  lamport := graph.lamport
  stateCaches := graph.stateCaches

/-- Store a node and fold it into the cached views. -/
def store (graph : StateGraph) (node : SyncNode) (canonical : Bool) : StateGraph :=
  { graph with
    leaves := insert node.id (graph.leaves \ node.parents.toFinset)
    frontier := graph.frontier.advance node
    lamport := max graph.lamport node.lamport
    nodes := graph.nodes.put node
    stateCaches := graph.stateCaches.updateStateCaches node canonical }

/-- Every op key is permitted, unless the node passes as a snapshot. -/
def Permitted (graph : StateGraph) (node : SyncNode) : Prop :=
  isSnapshotNode node = true ∨
    ∀ op ∈ node.transaction.ops, graph.policy.canWrite op.key node.transaction.author = true

/-- The parent, policy and duplicate checks of remote ingest. -/
structure Admissible (graph : StateGraph) (node : SyncNode) : Prop where
  parents : ∀ parent ∈ node.parents, graph.nodes.contains parent = true
  permitted : graph.Permitted node
  fresh : graph.nodes.contains node.id = false

section
variable {graph : StateGraph}

theorem checkParents_ok_iff : graph.checkParents node = .ok () ↔
    ∀ parent ∈ node.parents, graph.nodes.contains parent = true := by
  unfold checkParents
  split
  · rename_i parent found
    have missing := List.find?_some found
    constructor
    · intro failed
      cases failed
    · intro known
      simp [known parent (mem_of_find?_eq_some found)] at missing
  · rename_i absent
    simpa using absent

theorem checkPolicy_ok_iff : graph.checkPolicy node = .ok () ↔ graph.Permitted node := by
  unfold checkPolicy Permitted
  by_cases snapshot : isSnapshotNode node = true
  · simp [snapshot]
  · simp only [snapshot, Bool.false_eq_true, ↓reduceIte, false_or]
    split
    · rename_i op found
      have denied := List.find?_some found
      constructor
      · intro failed
        cases failed
      · intro permitted
        simp [permitted op (mem_of_find?_eq_some found)] at denied
    · rename_i absent
      simpa using absent

theorem insertNode_ok (fresh : graph.nodes.contains node.id = false) :
    graph.insertNode node = .ok { graph with
      leaves := insert node.id (graph.leaves \ node.parents.toFinset)
      frontier := graph.frontier.advance node
      lamport := max graph.lamport node.lamport
      nodes := graph.nodes.put node } := by
  simp only [insertNode, fresh, Bool.false_eq_true, ↓reduceIte]

theorem insertNode_fresh (stored : graph.insertNode node = .ok inserted) :
    graph.nodes.contains node.id = false := by
  unfold insertNode at stored
  split at stored
  · cases stored
  · rename_i fresh
    simpa using fresh

theorem applyRemoteVerifiedNoProjection_ok_iff :
    graph.applyRemoteVerifiedNoProjection node = .ok applied ↔
      graph.Admissible node ∧ applied = graph.store node true := by
  constructor
  · intro succeeded
    obtain ⟨_, parents, succeeded⟩ := bind_eq_ok.mp succeeded
    obtain ⟨_, policy, succeeded⟩ := bind_eq_ok.mp succeeded
    obtain ⟨inserted, stored, finished⟩ := bind_eq_ok.mp succeeded
    have fresh := insertNode_fresh stored
    rw [insertNode_ok fresh] at stored
    cases stored
    cases finished
    exact ⟨⟨checkParents_ok_iff.mp parents, checkPolicy_ok_iff.mp policy, fresh⟩, rfl⟩
  · rintro ⟨admissible, rfl⟩
    refine bind_eq_ok.mpr ⟨(), checkParents_ok_iff.mpr admissible.parents, ?_⟩
    refine bind_eq_ok.mpr ⟨(), checkPolicy_ok_iff.mpr admissible.permitted, ?_⟩
    exact bind_eq_ok.mpr ⟨_, insertNode_ok admissible.fresh, rfl⟩

theorem applyRemoteVerified_ok_iff :
    graph.applyRemoteVerified node = .ok applied ↔
      graph.Admissible node ∧
        applied = (graph.store node true).updateTextProjectionFromNode node := by
  constructor
  · intro succeeded
    obtain ⟨inserted, stored, finished⟩ := bind_eq_ok.mp succeeded
    obtain ⟨admissible, rfl⟩ := applyRemoteVerifiedNoProjection_ok_iff.mp stored
    cases finished
    exact ⟨admissible, rfl⟩
  · rintro ⟨admissible, rfl⟩
    have stored := applyRemoteVerifiedNoProjection_ok_iff.mpr ⟨admissible, rfl⟩
    exact bind_eq_ok.mpr ⟨_, stored, rfl⟩

theorem checkLamportCeiling_ok_iff :
    checkLamportCeiling localLamport node = .ok () ↔
      node.lamport ≤ saturatingAdd localLamport lamportSlack := by
  unfold checkLamportCeiling
  generalize saturatingAdd localLamport lamportSlack = ceiling
  by_cases above : ceiling < node.lamport
  · simp [above]
  · simp only [above, ↓reduceIte, true_iff]
    exact not_lt.mp above

theorem precheck_ok_iff :
    precheck crypto localLamport nowMs node = .ok () ↔
      crypto.txHash node.transaction = node.id ∧
        node.lamport ≤ saturatingAdd localLamport lamportSlack ∧
        ∀ now, nowMs = some now → checkWallSkew now node = .ok () := by
  unfold precheck
  by_cases hashed : crypto.txHash node.transaction = node.id
  · rw [if_neg (not_not.mpr hashed), ← checkLamportCeiling_ok_iff]
    constructor
    · intro passed
      obtain ⟨_, ceiling, wall⟩ := bind_eq_ok.mp passed
      refine ⟨hashed, ceiling, ?_⟩
      rintro now rfl
      exact wall
    · rintro ⟨_, ceiling, wall⟩
      refine bind_eq_ok.mpr ⟨(), ceiling, ?_⟩
      cases nowMs with
      | none => rfl
      | some now => exact wall now rfl
  · rw [if_pos hashed]
    constructor
    · intro passed
      obtain ⟨_, thrown, _⟩ := bind_eq_ok.mp passed
      cases thrown
    · intro passed
      exact (hashed passed.1).elim

theorem saturatingAdd_le (a b : Nat) : saturatingAdd a b ≤ u64Max := Nat.min_le_right ..

theorem saturatingAdd_mono (le : a ≤ b) (c : Nat) : saturatingAdd a c ≤ saturatingAdd b c :=
  min_le_min_right _ (Nat.add_le_add_right le c)

theorem precheck_bounded (passed : precheck crypto localLamport nowMs node = .ok ()) :
    node.lamport ≤ u64Max :=
  (precheck_ok_iff.mp passed).2.1.trans (saturatingAdd_le ..)

section
/-- The checks that a node passes before it is marked verified. -/
structure Screened (crypto : Crypto) (graph : StateGraph) (nowMs : Option Nat)
    (node : SyncNode) : Prop where
  prechecked : precheck crypto graph.lamport nowMs node = .ok ()
  signed : checkSignature crypto graph node = .ok ()

@[simp] theorem markVerified_nodes (graph : StateGraph) (id : NodeId) :
    (graph.markVerified id).nodes = graph.nodes := rfl

theorem Admissible.markVerified {id : NodeId} :
    (graph.markVerified id).Admissible node ↔ graph.Admissible node :=
  ⟨fun admissible => ⟨admissible.parents, admissible.permitted, admissible.fresh⟩,
    fun admissible => ⟨admissible.parents, admissible.permitted, admissible.fresh⟩⟩

/-- The graph after a remote node has been accepted. -/
def accept (graph : StateGraph) (node : SyncNode) : StateGraph :=
  ((graph.markVerified node.id).store node true).updateTextProjectionFromNode node

theorem applyRemoteChecked_accepts (screened : Screened crypto graph nowMs node)
    (admissible : graph.Admissible node) :
    applyRemoteChecked crypto graph node nowMs = (graph.accept node, .ok ()) := by
  have success : (graph.markVerified node.id).applyRemoteVerified node = .ok (graph.accept node) :=
    applyRemoteVerified_ok_iff.mpr ⟨Admissible.markVerified.mpr admissible, rfl⟩
  simp only [applyRemoteChecked, screened.prechecked, screened.signed, success]

theorem applyRemoteChecked_unscreened (unscreened : ¬ Screened crypto graph nowMs node) :
    ∃ error, applyRemoteChecked crypto graph node nowMs = (graph, .error error) := by
  cases prechecked : precheck crypto graph.lamport nowMs node with
  | error error => exact ⟨error, by simp only [applyRemoteChecked, prechecked]⟩
  | ok _ =>
    cases signed : checkSignature crypto graph node with
    | error error => exact ⟨error, by simp only [applyRemoteChecked, prechecked, signed]⟩
    | ok _ => exact (unscreened ⟨prechecked, signed⟩).elim

/-- A screened node that is then refused leaves its id marked as verified. -/
theorem applyRemoteChecked_refused (screened : Screened crypto graph nowMs node)
    (refused : ¬ graph.Admissible node) :
    ∃ error, applyRemoteChecked crypto graph node nowMs =
      (graph.markVerified node.id, .error error) := by
  cases outcome : (graph.markVerified node.id).applyRemoteVerified node with
  | error error =>
    refine ⟨error, ?_⟩
    simp only [applyRemoteChecked, screened.prechecked, screened.signed, outcome]
  | ok applied =>
    exact (refused (Admissible.markVerified.mp (applyRemoteVerified_ok_iff.mp outcome).1)).elim

/-- A screened node that lacks nothing but novelty is reported as a duplicate. -/
theorem applyRemoteChecked_duplicate (screened : Screened crypto graph nowMs node)
    (parents : ∀ parent ∈ node.parents, graph.nodes.contains parent = true)
    (permitted : graph.Permitted node) (stored : graph.nodes.contains node.id = true) :
    (applyRemoteChecked crypto graph node nowMs).2 = .error (.duplicateNode node.id) := by
  have parentsOk : (graph.markVerified node.id).checkParents node = .ok () :=
    checkParents_ok_iff.mpr parents
  have policyOk : (graph.markVerified node.id).checkPolicy node = .ok () :=
    checkPolicy_ok_iff.mpr permitted
  have duplicate : (graph.markVerified node.id).insertNode node =
      .error (.duplicateNode node.id) := by
    simp only [insertNode, markVerified_nodes, stored, ↓reduceIte]
  simp only [applyRemoteChecked, screened.prechecked, screened.signed, applyRemoteVerified,
    applyRemoteVerifiedNoProjection, parentsOk, policyOk, duplicate, bind, Except.bind]

/-- A call of `apply_remote` either accepts the node or leaves everything but
the verified ids as it was. -/
theorem applyRemoteChecked_cases (crypto : Crypto) (graph : StateGraph) (node : SyncNode)
    (nowMs : Option Nat) :
    (Screened crypto graph nowMs node ∧ graph.Admissible node ∧
        applyRemoteChecked crypto graph node nowMs = (graph.accept node, .ok ())) ∨
      ∃ ids error, ¬ (Screened crypto graph nowMs node ∧ graph.Admissible node) ∧
        applyRemoteChecked crypto graph node nowMs =
          ({ graph with verifiedIds := ids }, .error error) := by
  by_cases screened : Screened crypto graph nowMs node
  · by_cases admissible : graph.Admissible node
    · exact .inl ⟨screened, admissible, applyRemoteChecked_accepts screened admissible⟩
    · obtain ⟨error, same⟩ := applyRemoteChecked_refused screened admissible
      exact .inr ⟨insert node.id graph.verifiedIds, error, fun both => admissible both.2, same⟩
  · obtain ⟨error, same⟩ := applyRemoteChecked_unscreened screened
    exact .inr ⟨graph.verifiedIds, error, fun both => screened both.1, same⟩

theorem applyRemoteChecked_ok_iff :
    (applyRemoteChecked crypto graph node nowMs).2 = .ok () ↔
      Screened crypto graph nowMs node ∧ graph.Admissible node := by
  rcases applyRemoteChecked_cases crypto graph node nowMs with
    ⟨screened, admissible, same⟩ | ⟨ids, error, refused, same⟩
  · simp [same, screened, admissible]
  · simp [same, refused]

variable {nodes : List SyncNode}

theorem mem_screenBatch (member : node ∈ (screenBatch crypto graph nowMs seen nodes).1) :
    node ∈ nodes ∧ node.id ∉ seen ∧ graph.nodes.contains node.id = false ∧
      precheck crypto graph.lamport nowMs node = .ok () := by
  induction nodes generalizing seen with
  | nil => simp [screenBatch] at member
  | cons head rest ih =>
    have later {wider : Finset NodeId} (subset : seen ⊆ wider)
        (found : node ∈ (screenBatch crypto graph nowMs wider rest).1) :
        node ∈ head :: rest ∧ node.id ∉ seen ∧ graph.nodes.contains node.id = false ∧
          precheck crypto graph.lamport nowMs node = .ok () := by
      obtain ⟨inRest, unseen, fresh, passed⟩ := ih found
      exact ⟨.tail _ inRest, fun known => unseen (subset known), fresh, passed⟩
    have wider : seen ⊆ insert head.id seen := Finset.subset_insert _ _
    unfold screenBatch at member
    by_cases known : head.id ∈ seen
    · simp only [known, ↓reduceIte] at member
      exact later (Finset.Subset.refl _) member
    · simp only [known, ↓reduceIte] at member
      by_cases stored : graph.nodes.contains head.id = true
      · simp only [stored, ↓reduceIte] at member
        exact later wider member
      · simp only [stored, Bool.false_eq_true, ↓reduceIte] at member
        cases passed : precheck crypto graph.lamport nowMs head with
        | error error =>
          simp only [passed] at member
          exact later wider member
        | ok _ =>
          simp only [passed, mem_cons] at member
          rcases member with rfl | found
          · exact ⟨by simp, known, by simpa using stored, passed⟩
          · exact later wider found

theorem screenBatch_subset : (screenBatch crypto graph nowMs seen nodes).1 ⊆ nodes :=
  fun _ member => (mem_screenBatch member).1

/-- One slot of the apply phase: a refused slot leaves the core alone. -/
theorem applyBatch_cons (graph : StateGraph) (slot : SyncNode × Bool)
    (rest : List (SyncNode × Bool)) :
    (slot.2 = true ∧ graph.Admissible slot.1 ∧
      (graph.applyBatch (slot :: rest)).1 =
        (((graph.markVerified slot.1.id).store slot.1 true).applyBatch rest).1 ∧
      (graph.applyBatch (slot :: rest)).2.1 =
        slot.1 :: (((graph.markVerified slot.1.id).store slot.1 true).applyBatch rest).2.1) ∨
    ((slot.2 = true → ¬ graph.Admissible slot.1) ∧
      ∃ ids, (graph.applyBatch (slot :: rest)).1 =
          ({ graph with verifiedIds := ids }.applyBatch rest).1 ∧
        (graph.applyBatch (slot :: rest)).2.1 =
          ({ graph with verifiedIds := ids }.applyBatch rest).2.1) := by
  obtain ⟨node, verdict⟩ := slot
  cases verdict with
  | false => exact .inr ⟨by simp, graph.verifiedIds, rfl, rfl⟩
  | true =>
    cases outcome : (graph.markVerified node.id).applyRemoteVerifiedNoProjection node with
    | error error =>
      refine .inr ⟨?_, insert node.id graph.verifiedIds, ?_, ?_⟩
      · intro _ admissible
        have marked : (graph.markVerified node.id).Admissible node :=
          Admissible.markVerified.mpr admissible
        have success := applyRemoteVerifiedNoProjection_ok_iff.mpr ⟨marked, rfl⟩
        rw [outcome] at success
        cases success
      · simp only [applyBatch, outcome]
        rfl
      · simp only [applyBatch, outcome]
        rfl
    | ok applied =>
      obtain ⟨admissible, rfl⟩ := applyRemoteVerifiedNoProjection_ok_iff.mp outcome
      exact .inl ⟨rfl, Admissible.markVerified.mp admissible,
        by simp only [applyBatch, outcome], by simp only [applyBatch, outcome]⟩

/-- What survives marking ids and admitting an admissible slot survives a batch. -/
theorem applyBatch_invariant {motive : StateGraph → Prop} {slots : List (SyncNode × Bool)}
    (marked : ∀ graph ids, motive graph → motive { graph with verifiedIds := ids })
    (admitted : ∀ graph node, (node, true) ∈ slots → motive graph → graph.Admissible node →
      motive (graph.store node true))
    (start : motive graph) : motive (graph.applyBatch slots).1 := by
  induction slots generalizing graph with
  | nil => exact start
  | cons slot rest ih =>
    have later : ∀ graph node, (node, true) ∈ rest → motive graph → graph.Admissible node →
        motive (graph.store node true) :=
      fun graph node member => admitted graph node (.tail _ member)
    rcases applyBatch_cons graph slot rest with
      ⟨verdict, admissible, after, _⟩ | ⟨_, ids, after, _⟩
    · have entry : (slot.1, true) ∈ slot :: rest := by
        rw [← verdict]
        exact .head _
      rw [after]
      exact ih later (admitted _ _ entry (marked graph _ start)
        (Admissible.markVerified.mpr admissible))
    · rw [after]
      exact ih later (marked graph ids start)

theorem applyBatch_core (graph : StateGraph) (slots : List (SyncNode × Bool)) :
    (graph.applyBatch slots).1.core =
      (graph.applyBatch slots).2.1.foldl (fun core node => core.store node true) graph.core := by
  induction slots generalizing graph with
  | nil => rfl
  | cons slot rest ih =>
    rcases applyBatch_cons graph slot rest with ⟨_, _, after, accepted⟩ | ⟨_, ids, after, accepted⟩
    · rw [after, accepted, ih]
      rfl
    · rw [after, accepted, ih]
      rfl

/-- The accepted nodes are appended to the store. -/
theorem applyBatch_data (graph : StateGraph) (slots : List (SyncNode × Bool)) :
    (graph.applyBatch slots).1.nodes.data =
      graph.nodes.data ++ (graph.applyBatch slots).2.1 := by
  induction slots generalizing graph with
  | nil => exact (append_nil _).symm
  | cons slot rest ih =>
    rcases applyBatch_cons graph slot rest with
      ⟨_, admissible, after, accepted⟩ | ⟨_, ids, after, accepted⟩
    · have stored : ((graph.markVerified slot.1.id).store slot.1 true).nodes.data =
          graph.nodes.data ++ [slot.1] := MemoryNodeStore.put_fresh admissible.fresh
      rw [after, accepted, ih, stored, append_assoc]
      rfl
    · rw [after, accepted, ih]

/-- The apply phase of a batch writes the core and the verified ids only. -/
theorem applyBatch_frame (graph : StateGraph) (slots : List (SyncNode × Bool)) :
    (graph.applyBatch slots).1.policy = graph.policy ∧
      (graph.applyBatch slots).1.textProjections = graph.textProjections ∧
      (graph.applyBatch slots).1.textProjectionMode = graph.textProjectionMode ∧
      (graph.applyBatch slots).1.localNodeIds = graph.localNodeIds :=
  applyBatch_invariant (motive := fun after => after.policy = graph.policy ∧
      after.textProjections = graph.textProjections ∧
      after.textProjectionMode = graph.textProjectionMode ∧
      after.localNodeIds = graph.localNodeIds)
    (fun _ _ same => same) (fun _ _ _ same _ => same) ⟨rfl, rfl, rfl, rfl⟩

theorem mem_applyBatch (member : node ∈ (graph.applyBatch slots).2.1) :
    (node, true) ∈ slots ∧ graph.Permitted node := by
  induction slots generalizing graph with
  | nil => simp [applyBatch] at member
  | cons slot rest ih =>
    rcases applyBatch_cons graph slot rest with
      ⟨verdict, admissible, _, accepted⟩ | ⟨_, ids, _, accepted⟩
    · rw [accepted, mem_cons] at member
      rcases member with rfl | later
      · refine ⟨?_, admissible.permitted⟩
        rw [← verdict]
        exact .head _
      · obtain ⟨inRest, permitted⟩ := ih later
        exact ⟨.tail _ inRest, permitted⟩
    · rw [accepted] at member
      obtain ⟨inRest, permitted⟩ := ih member
      exact ⟨.tail _ inRest, permitted⟩

section
variable (crypto : Crypto) (graph : StateGraph) (nodes : List SyncNode) (nowMs : Option Nat)

/-- The screened nodes of a batch with their verdicts. -/
def batchSlots : List (SyncNode × Bool) :=
  (screenBatch crypto graph nowMs ∅ nodes).1.zip
    (verifyNodesBatched crypto graph (screenBatch crypto graph nowMs ∅ nodes).1)

/-- The nodes whose ids a batch reports as accepted. -/
def batchAccepted : List SyncNode :=
  (graph.applyBatch (batchSlots crypto graph nodes nowMs)).2.1

theorem applyRemoteBatchChecked_accepted :
    (applyRemoteBatchChecked crypto graph nodes nowMs).2.accepted =
      (batchAccepted crypto graph nodes nowMs).map SyncNode.id := rfl

/-- The core after a batch holds the accepted nodes and nothing of the others. -/
theorem applyRemoteBatchChecked_core :
    (applyRemoteBatchChecked crypto graph nodes nowMs).1.core =
      (batchAccepted crypto graph nodes nowMs).foldl (fun core node => core.store node true)
        graph.core :=
  applyBatch_core graph (batchSlots crypto graph nodes nowMs)

theorem applyRemoteBatchChecked_data :
    (applyRemoteBatchChecked crypto graph nodes nowMs).1.nodes.data =
      graph.nodes.data ++ batchAccepted crypto graph nodes nowMs :=
  applyBatch_data graph (batchSlots crypto graph nodes nowMs)

theorem applyRemoteBatchChecked_textProjections :
    (applyRemoteBatchChecked crypto graph nodes nowMs).1.textProjections =
      (graph.updateTextProjectionFromNodesBatch
        (batchAccepted crypto graph nodes nowMs)).textProjections := by
  obtain ⟨_, projections, _, _⟩ := applyBatch_frame graph (batchSlots crypto graph nodes nowMs)
  change ((graph.applyBatch (batchSlots crypto graph nodes nowMs)).1
    |>.updateTextProjectionFromNodesBatch _).textProjections = _
  unfold updateTextProjectionFromNodesBatch
  rw [projections]
  rfl

end

theorem mem_batchAccepted
    (member : node ∈ batchAccepted crypto graph nodes nowMs) :
    node ∈ nodes ∧ graph.nodes.contains node.id = false ∧
      precheck crypto graph.lamport nowMs node = .ok () ∧ graph.Permitted node ∧
      (node, true) ∈ batchSlots crypto graph nodes nowMs := by
  obtain ⟨slot, permitted⟩ := mem_applyBatch member
  obtain ⟨inNodes, _, fresh, passed⟩ := mem_screenBatch (of_mem_zip slot).1
  exact ⟨inNodes, fresh, passed, permitted, slot⟩

theorem mem_store {core : Core} {canonical : Bool} {other : SyncNode}
    (member : other ∈ (core.store node canonical).nodes.data) :
    other ∈ core.nodes.data ∨ other = node := by
  simp only [Core.store, MemoryNodeStore.put, mem_append, mem_filter,
    mem_singleton] at member
  exact member.imp And.left id

theorem mem_foldl_store {core : Core} {accepted : List SyncNode}
    (member : other ∈ (accepted.foldl (fun core node => core.store node true) core).nodes.data) :
    other ∈ core.nodes.data ∨ other ∈ accepted := by
  induction accepted generalizing core with
  | nil => exact .inl member
  | cons node rest ih =>
    rcases ih member with before | later
    · rcases mem_store before with before | rfl
      · exact .inl before
      · exact .inr (.head _)
    · exact .inr (.tail _ later)

theorem mem_applyRemoteChecked
    (member : other ∈ (applyRemoteChecked crypto graph node nowMs).1.nodes.data) :
    other ∈ graph.nodes.data ∨
      (other = node ∧ Screened crypto graph nowMs node ∧ graph.Admissible node) := by
  rcases applyRemoteChecked_cases crypto graph node nowMs with
    ⟨screened, admissible, same⟩ | ⟨ids, error, _, same⟩
  · rw [same] at member
    rcases @mem_store node graph.core true other member with before | rfl
    · exact .inl before
    · exact .inr ⟨rfl, screened, admissible⟩
  · rw [same] at member
    exact .inl member

theorem mem_applyRemoteBatchChecked
    (member : other ∈ (applyRemoteBatchChecked crypto graph nodes nowMs).1.core.nodes.data) :
    other ∈ graph.nodes.data ∨ other ∈ batchAccepted crypto graph nodes nowMs := by
  rw [applyRemoteBatchChecked_core] at member
  exact mem_foldl_store member

/-- The clock of a local write covers every identifier it reserves. -/
def reserve (graph : StateGraph) (ops : List Op) : StateGraph :=
  { graph with lamport := saturatingAdd (graph.lamport + 1) (extraInsertIds ops) }

/-- The graph after a local write has been stored. -/
def commitLocal (graph : StateGraph) (ops : List Op) (node : SyncNode) : StateGraph :=
  let projected := ((graph.reserve ops).store node false).updateTextProjectionFromNode node
  { projected with
    localNodeIds := insert node.id projected.localNodeIds
    verifiedIds := insert node.id projected.verifiedIds }

theorem commitLocal_lamport (graph : StateGraph) (ops : List Op) (node : SyncNode) :
    (graph.commitLocal ops node).lamport =
      max (saturatingAdd (graph.lamport + 1) (extraInsertIds ops)) node.lamport := rfl

theorem applyLocal_duplicate (room : graph.lamport + 1 ≤ u64Max)
    (stored : graph.nodes.contains (localNode crypto graph signingKey wallMs ops parents).id
      = true) :
    applyLocal crypto graph signingKey wallMs ops parents = some (graph.reserve ops,
      .error (.duplicateNode (localNode crypto graph signingKey wallMs ops parents).id)) := by
  simp only [applyLocal, not_lt.mpr room, ↓reduceIte, insertNode, stored]
  rfl

theorem applyLocal_commit (room : graph.lamport + 1 ≤ u64Max)
    (fresh : graph.nodes.contains (localNode crypto graph signingKey wallMs ops parents).id
      = false) :
    applyLocal crypto graph signingKey wallMs ops parents =
      some (graph.commitLocal ops (localNode crypto graph signingKey wallMs ops parents),
        .ok (localNode crypto graph signingKey wallMs ops parents).id) := by
  simp only [applyLocal, not_lt.mpr room, ↓reduceIte, insertNode, fresh, Bool.false_eq_true]
  rfl

/-- The outcomes of a local write: panic, duplicate or commit. -/
theorem applyLocal_cases
    (ran : applyLocal crypto graph signingKey wallMs ops parents = some outcome) :
    graph.lamport + 1 ≤ u64Max ∧
    ((graph.nodes.contains (localNode crypto graph signingKey wallMs ops parents).id = true ∧
        outcome = (graph.reserve ops,
          .error (.duplicateNode (localNode crypto graph signingKey wallMs ops parents).id))) ∨
      (graph.nodes.contains (localNode crypto graph signingKey wallMs ops parents).id = false ∧
        outcome = (graph.commitLocal ops (localNode crypto graph signingKey wallMs ops parents),
          .ok (localNode crypto graph signingKey wallMs ops parents).id))) := by
  by_cases room : graph.lamport + 1 ≤ u64Max
  · refine ⟨room, ?_⟩
    cases stored : graph.nodes.contains (localNode crypto graph signingKey wallMs ops parents).id
    · rw [applyLocal_commit room stored] at ran
      exact .inr ⟨rfl, (Option.some.inj ran).symm⟩
    · rw [applyLocal_duplicate room stored] at ran
      exact .inl ⟨rfl, (Option.some.inj ran).symm⟩
  · simp only [applyLocal, not_le.mp room, ↓reduceIte] at ran
    cases ran

theorem localNode_transaction :
    (localNode crypto graph signingKey wallMs ops parents).transaction =
      localTransaction crypto graph signingKey wallMs ops parents := by
  unfold localNode
  split <;> rfl

theorem localNode_id :
    (localNode crypto graph signingKey wallMs ops parents).id =
      crypto.txHash (localTransaction crypto graph signingKey wallMs ops parents) := by
  unfold localNode
  split <;> rfl

end

end

/-- A mutating call on a graph. Plain `apply_remote` and `apply_remote_batch`
are the checked variants without a clock. -/
inductive Call (crypto : Crypto) (graph : StateGraph) where
  | applyLocal (signingKey : crypto.SigningKey) (wallMs : Nat) (ops : List Op)
      (parents : Enumeration graph.leaves)
  | applyRemote (node : SyncNode) (nowMs : Option Nat)
  | applyRemoteBatch (nodes : List SyncNode) (nowMs : Option Nat)
  | setPolicy (policy : Policy)
  | setLocalSigning (enabled : Bool)

/-- The graph after the call; `none` when it panics. -/
def Call.run {crypto : Crypto} {graph : StateGraph} : Call crypto graph → Option StateGraph
  | .applyLocal signingKey wallMs ops parents =>
    (StateGraph.applyLocal crypto graph signingKey wallMs ops parents).map Prod.fst
  | .applyRemote node nowMs => some (applyRemoteChecked crypto graph node nowMs).1
  | .applyRemoteBatch nodes nowMs => some (applyRemoteBatchChecked crypto graph nodes nowMs).1
  | .setPolicy policy => some (graph.setPolicy policy)
  | .setLocalSigning enabled => some (graph.setLocalSigning enabled)

theorem Call.run_commit {graph : StateGraph} {signingKey : crypto.SigningKey}
    {parents : Enumeration graph.leaves} (room : graph.lamport + 1 ≤ u64Max)
    (fresh : graph.nodes.contains (localNode crypto graph signingKey wallMs ops parents).id = false) :
    (Call.applyLocal signingKey wallMs ops parents).run =
      some (graph.commitLocal ops (localNode crypto graph signingKey wallMs ops parents)) := by
  rw [Call.run, applyLocal_commit room fresh]
  rfl

/-- Graphs reached from the empty one by calls that are allowed where they are made. -/
inductive Reachable (crypto : Crypto) (Allowed : ∀ graph : StateGraph, Call crypto graph → Prop) :
    StateGraph → Prop where
  | start : Reachable crypto Allowed .empty
  | call {graph after : StateGraph} {call : Call crypto graph}
      (reached : Reachable crypto Allowed graph) (allowed : Allowed graph call)
      (ran : call.run = some after) : Reachable crypto Allowed after

namespace Reachable

variable {Allowed : ∀ graph : StateGraph, Call crypto graph → Prop}

theorem mono (wider : ∀ graph call, Allowed graph call → Wider graph call)
    (reached : Reachable crypto Allowed graph) : Reachable crypto Wider graph := by
  induction reached with
  | start => exact .start
  | call _ allowed ran ih => exact .call ih (wider _ _ allowed) ran

section
variable (reached : Reachable crypto Allowed graph)
include reached

theorem commit {signingKey : crypto.SigningKey} {wallMs : Nat} {ops : List Op}
    {parents : Enumeration graph.leaves}
    (allowed : Allowed graph (.applyLocal signingKey wallMs ops parents))
    (room : graph.lamport + 1 ≤ u64Max)
    (fresh : graph.nodes.contains (localNode crypto graph signingKey wallMs ops parents).id = false)
    : Reachable crypto Allowed
      (graph.commitLocal ops (localNode crypto graph signingKey wallMs ops parents)) :=
  .call reached allowed (Call.run_commit room fresh)

theorem receive (allowed : Allowed graph (.applyRemote node nowMs))
    (screened : Screened crypto graph nowMs node) (admissible : graph.Admissible node) :
    Reachable crypto Allowed (graph.accept node) := by
  refine .call reached allowed ?_
  rw [Call.run, applyRemoteChecked_accepts screened admissible]

theorem remote (node : SyncNode) (nowMs : Option Nat)
    (allowed : Allowed graph (.applyRemote node nowMs)) :
    Reachable crypto Allowed (applyRemoteChecked crypto graph node nowMs).1 :=
  .call reached allowed rfl

theorem remoteBatch (nodes : List SyncNode) (nowMs : Option Nat)
    (allowed : Allowed graph (.applyRemoteBatch nodes nowMs)) :
    Reachable crypto Allowed (applyRemoteBatchChecked crypto graph nodes nowMs).1 :=
  .call reached allowed rfl

end

end Reachable

def sampleOps : List Op := [.map (.set "k" [7])]

def sampleNode : SyncNode :=
  localNode Crypto.sample .empty (Crypto.sampleKey 1) 0 sampleOps noLeaves

/-- A write on top of the first one. -/
def replyNode : SyncNode :=
  .newSigned Crypto.sample ⟨.padTo 32 [1], 2, 0, [.map (.set "k" [8])], [sampleNode.id]⟩
    (Crypto.sampleKey 1)

theorem sampleNode_screened : Screened Crypto.sample .empty none sampleNode :=
  ⟨by decide, by decide⟩

theorem sampleNode_admissible : empty.Admissible sampleNode :=
  ⟨by decide, .inr (by decide), by decide⟩

end StateGraph

end NodalMerge
