import NodalMerge.Crdt.Admission

namespace NodalMerge

/-- Keys of the system namespace start with NUL. -/
def systemKey (key : String) : Bool := key.toList.head? = some '\x00'

def Policy.denyAll : Policy := ⟨[], .denyAll⟩

/-- Every op outside the system namespace is one the policy permits. -/
def WritesPermitted (policy : Policy) (node : SyncNode) : Prop :=
  ∀ op ∈ node.transaction.ops, systemKey op.key = false →
    policy.canWrite op.key node.transaction.author = true

/-- A snapshot node has no op outside the system namespace. -/
def PureSnapshot (node : SyncNode) : Prop :=
  isSnapshotNode node = true → ∀ op ∈ node.transaction.ops, systemKey op.key = true

instance (node : SyncNode) : Decidable (PureSnapshot node) :=
  inferInstanceAs (Decidable (_ → _))

namespace StateGraph

variable {graph : StateGraph}

theorem writesPermitted_of_permitted (pure : PureSnapshot node) (permitted : graph.Permitted node) :
    WritesPermitted graph.policy node := by
  intro op member outside
  rcases permitted with snapshot | permitted
  · rw [pure snapshot op member] at outside
    cases outside
  · exact permitted op member

/-- Whatever policy is installed, the graph takes the node, alone or in a batch, only if
the policy permits its writes. -/
def PolicyEnforced (crypto : Crypto) (graph : StateGraph) (node : SyncNode) (nowMs : Option Nat) :
    Prop :=
  ∀ policy,
    ((applyRemoteChecked crypto (graph.setPolicy policy) node nowMs).2 = .ok () →
      WritesPermitted policy node) ∧
    ∀ nodes, node ∉ graph.nodes.data →
      node ∈ (applyRemoteBatchChecked crypto (graph.setPolicy policy) nodes nowMs).1.nodes.data →
      WritesPermitted policy node

/-- The policy is enforced on every node that does not mix a snapshot marker with other
keys, and on no other node that the graph takes alone under some policy. -/
theorem write_policy_enforced_iff (crypto : Crypto) (graph : StateGraph) (node : SyncNode)
    (nowMs : Option Nat) :
    (PureSnapshot node → PolicyEnforced crypto graph node nowMs) ∧
    ((∃ policy, (applyRemoteChecked crypto (graph.setPolicy policy) node nowMs).2 = .ok ()) →
      PolicyEnforced crypto graph node nowMs → PureSnapshot node) := by
  constructor
  · intro pure policy
    constructor
    · intro accepted
      have admissible := (applyRemoteChecked_ok_iff.mp accepted).2
      exact writesPermitted_of_permitted pure admissible.permitted
    · intro nodes absent stored
      rcases mem_applyRemoteBatchChecked stored with before | accepted
      · exact (absent before).elim
      · obtain ⟨_, _, _, permitted, _⟩ := mem_batchAccepted accepted
        exact writesPermitted_of_permitted pure permitted
  · rintro ⟨policy, accepted⟩ enforced snapshot op member
    by_contra outside
    rw [Bool.not_eq_true] at outside
    -- A snapshot node that some policy lets in is let in by every policy.
    obtain ⟨screened, admissible⟩ := applyRemoteChecked_ok_iff.mp accepted
    have denied := (enforced .denyAll).1 (applyRemoteChecked_ok_iff.mpr
      ⟨⟨screened.prechecked, screened.signed⟩,
        ⟨admissible.parents, .inl snapshot, admissible.fresh⟩⟩) op member outside
    cases denied

/-- A policy that lets one author write one key takes the answer together with the write
below it. -/
theorem replyNode_policy_enforced :
    let policy : Policy := ⟨[⟨"k", [.padTo 32 [1]], [], []⟩], .denyAll⟩
    policy.canWrite "k" (.padTo 32 [2]) = false ∧
      replyNode ∈ (applyRemoteBatch Crypto.sample (empty.setPolicy policy)
        [sampleNode, replyNode]).1.nodes.data ∧
      WritesPermitted policy replyNode := by
  intro policy
  have stored : replyNode ∈ (applyRemoteBatch Crypto.sample (empty.setPolicy policy)
      [sampleNode, replyNode]).1.nodes.data := by decide
  have enforced := (write_policy_enforced_iff Crypto.sample .empty replyNode none).1 (by decide)
  exact ⟨by decide, stored, (enforced policy).2 _ (by decide) stored⟩

/-- A user write next to a snapshot marker. -/
def disguisedWrite : SyncNode :=
  .new Crypto.sample ⟨.padTo 32 [2], 1, 0, [.map (.set snapHashKey []), .map (.set "k" [7])], []⟩

theorem disguisedWrite_accepted :
    (applyRemote Crypto.sample (empty.setPolicy .denyAll) disguisedWrite).2 = .ok () ∧
      disguisedWrite ∈ (applyRemoteBatch Crypto.sample (empty.setPolicy .denyAll)
        [disguisedWrite]).1.nodes.data ∧
      ∃ op ∈ disguisedWrite.transaction.ops, systemKey op.key = false ∧
        Policy.denyAll.canWrite op.key disguisedWrite.transaction.author = false := by
  decide

end StateGraph

end NodalMerge
