import NodalMerge.Crdt.Network
import NodalMerge.Crdt.RangeText

namespace NodalMerge

open List

namespace TextProjection

variable {projection : TextProjection}

theorem applyOp_untouched (other : ∀ textOp, op = .text textOp → textOp.key ≠ key) :
    applyOp tx key projection op = projection := by
  cases op with
  | map op => rfl
  | list op => rfl
  | text op =>
    have different := other op rfl
    cases op <;> exact if_neg different

theorem mem_textKeys :
    key ∈ textKeys node ↔ ∃ textOp, .text textOp ∈ node.transaction.ops ∧ textOp.key = key := by
  simp only [textKeys, mem_filterMap]
  constructor
  · rintro ⟨op, member, found⟩
    cases op with
    | map op => cases found
    | list op => cases found
    | text op => exact ⟨op, member, Option.some.inj found⟩
  · rintro ⟨op, member, found⟩
    exact ⟨.text op, member, congrArg some found⟩

theorem applyNode_untouched (untouched : key ∉ textKeys node) :
    projection.applyNode node key = projection := by
  have each : ∀ op ∈ node.transaction.ops, ∀ textOp, op = .text textOp → textOp.key ≠ key := by
    rintro _ member textOp rfl same
    exact untouched (mem_textKeys.mpr ⟨textOp, member, same⟩)
  unfold applyNode
  generalize node.transaction.ops = ops at each
  induction ops with
  | nil => rfl
  | cons op rest ih =>
    rw [foldl_cons, applyOp_untouched (each op (.head _))]
    exact ih fun other member => each other (.tail _ member)

theorem foldl_applyNode_untouched {nodes : List SyncNode}
    (untouched : ∀ node ∈ nodes, key ∉ textKeys node) :
    nodes.foldl (fun current node => current.applyNode node key) projection = projection := by
  induction nodes with
  | nil => rfl
  | cons node rest ih =>
    rw [foldl_cons, applyNode_untouched (untouched node (.head _))]
    exact ih fun other member => untouched other (.tail _ member)

theorem applyUpdatesCoalesced_op (plain : isRangeOpOn key op = false) :
    projection.applyUpdatesCoalesced (coalescedUpdate tx key op).toList =
      applyOp tx key projection op := by
  cases op with
  | map op => rfl
  | list op => rfl
  | text op =>
    cases op with
    | insert opKey after ch =>
      simp only [coalescedUpdate, applyOp]
      split <;> rfl
    | delete opKey target =>
      simp only [coalescedUpdate, applyOp]
      split <;> rfl
    | insertRange opKey anchor text => exact (if_neg (of_decide_eq_false plain)).symm
    | deleteRange opKey anchor lenChars => exact (if_neg (of_decide_eq_false plain)).symm

theorem applyUpdatesCoalesced_append (first second : List UpdateOp) :
    projection.applyUpdatesCoalesced (first ++ second) =
      (projection.applyUpdatesCoalesced first).applyUpdatesCoalesced second :=
  foldl_append

theorem applyUpdatesCoalesced_ops {ops : List Op} (plain : ops.any (isRangeOpOn key) = false) :
    projection.applyUpdatesCoalesced (ops.filterMap (coalescedUpdate tx key)) =
      ops.foldl (applyOp tx key) projection := by
  induction ops generalizing projection with
  | nil => rfl
  | cons op rest ih =>
    obtain ⟨here, later⟩ := Bool.or_eq_false_iff.mp plain
    have split : (op :: rest).filterMap (coalescedUpdate tx key) =
        (coalescedUpdate tx key op).toList ++ rest.filterMap (coalescedUpdate tx key) := by
      cases found : coalescedUpdate tx key op <;> simp [found]
    rw [split, applyUpdatesCoalesced_append, applyUpdatesCoalesced_op here, ih later]
    rfl

/-- Without range ops on the key, coalescing a batch changes nothing. -/
theorem applyUpdatesCoalesced_eq (plain : hasRangeOp nodes key = false) :
    projection.applyUpdatesCoalesced (coalescedUpdates nodes key) =
      nodes.foldl (fun current node => current.applyNode node key) projection := by
  induction nodes generalizing projection with
  | nil => rfl
  | cons node rest ih =>
    obtain ⟨here, later⟩ := Bool.or_eq_false_iff.mp plain
    rw [coalescedUpdates, flatMap_cons, applyUpdatesCoalesced_append,
      applyUpdatesCoalesced_ops here]
    exact ih later

end TextProjection

namespace StateGraph

open TextProjection

/-- The projection that the next node of the key is folded into. -/
def live (graph : StateGraph) (key : String) : TextProjection :=
  (graph.textProjections.lookup key).getD .empty

theorem lookup_foldl_insert (update : String → TextProjection → TextProjection)
    (keys : List String) (projections : HashMap String TextProjection) (key : String) :
    ((keys.foldl (fun current key => current.insert key
        (update key ((current.lookup key).getD .empty))) projections).lookup key).getD .empty =
        (update key)^[keys.count key] ((projections.lookup key).getD .empty) ∧
      ((keys.foldl (fun current key => current.insert key
        (update key ((current.lookup key).getD .empty))) projections).lookup key = none ↔
        projections.lookup key = none ∧ key ∉ keys) := by
  induction keys generalizing projections with
  | nil => simp
  | cons head rest ih =>
    obtain ⟨folded, absent⟩ := ih (projections.insert head
      (update head ((projections.lookup head).getD .empty)))
    rw [foldl_cons, folded, absent, lookup_insert_ite]
    by_cases same : key = head
    · subst same
      simp
    · simp [same, Ne.symm same]

variable {graph : StateGraph} {key : String}

theorem live_updateFromNode (graph : StateGraph) (node : SyncNode) (key : String) :
    (graph.updateTextProjectionFromNode node).live key =
      (fun projection => projection.applyNode node key)^[(textKeys node).count key]
        (graph.live key) :=
  (lookup_foldl_insert (fun key projection => projection.applyNode node key) _ _ key).1

/-- A node with a single text op is folded in once. -/
theorem live_updateFromNode_single (single : node.transaction.ops = [.text op]) (graph : StateGraph)
    (key : String) :
    (graph.updateTextProjectionFromNode node).live key =
      (graph.live key).applyNode node key := by
  have keys : textKeys node = [op.key] := by rw [textKeys, single]; rfl
  rw [live_updateFromNode, keys, count_singleton]
  by_cases same : op.key = key
  · simp [same]
  · have untouched : key ∉ textKeys node := by simpa [keys] using Ne.symm same
    simp [same, applyNode_untouched untouched]

theorem live_updateFromBatch (graph : StateGraph) (nodes : List SyncNode) (key : String) :
    (graph.updateTextProjectionFromNodesBatch nodes).live key =
      nodes.foldl (fun projection node => projection.applyNode node key) (graph.live key) := by
  refine (lookup_foldl_insert (fun key projection => if hasRangeOp nodes key then
      nodes.foldl (fun current node => current.applyNode node key) projection
    else projection.applyUpdatesCoalesced (coalescedUpdates nodes key)) _ _ key).1.trans ?_
  have once (projection : TextProjection) : (if hasRangeOp nodes key then
        nodes.foldl (fun current node => current.applyNode node key) projection
      else projection.applyUpdatesCoalesced (coalescedUpdates nodes key)) =
      nodes.foldl (fun current node => current.applyNode node key) projection := by
    split
    · rfl
    · rename_i plain
      exact applyUpdatesCoalesced_eq (Bool.not_eq_true _ ▸ plain)
  by_cases touched : key ∈ nodes.flatMap textKeys
  · rw [count_dedup, if_pos touched]
    exact once _
  · rw [count_dedup, if_neg touched]
    refine (foldl_applyNode_untouched fun node member inNode => ?_).symm
    exact touched (mem_flatMap.mpr ⟨node, member, inNode⟩)

theorem applyRemoteBatchChecked_live (crypto : Crypto) (graph : StateGraph)
    (nodes : List SyncNode) (nowMs : Option Nat) (key : String) :
    (applyRemoteBatchChecked crypto graph nodes nowMs).1.live key =
      (batchAccepted crypto graph nodes nowMs).foldl
        (fun projection node => projection.applyNode node key) (graph.live key) := by
  rw [live, applyRemoteBatchChecked_textProjections]
  exact live_updateFromBatch graph _ key

/-- A key without a projection has no text op in the store. -/
def Resident (graph : StateGraph) : Prop :=
  ∀ key, graph.textProjections.lookup key = none → ∀ node ∈ graph.nodes.data, key ∉ textKeys node

/-- New nodes keep a graph resident when their keys get a projection. -/
theorem Resident.extend {after : StateGraph} (resident : graph.Resident) (new : List SyncNode)
    (stored : ∀ node ∈ after.nodes.data, node ∈ graph.nodes.data ∨ node ∈ new)
    (absent : ∀ key, after.textProjections.lookup key = none →
      graph.textProjections.lookup key = none ∧ ∀ node ∈ new, key ∉ textKeys node) :
    after.Resident := by
  intro key missing node member
  obtain ⟨before, untouched⟩ := absent key missing
  rcases stored node member with old | fresh
  · exact resident key before node old
  · exact untouched node fresh

theorem absent_updateFromNode
    (missing : (graph.updateTextProjectionFromNode node).textProjections.lookup key = none) :
    graph.textProjections.lookup key = none ∧ key ∉ textKeys node :=
  (lookup_foldl_insert (fun key projection => projection.applyNode node key) _ _ key).2.mp missing

theorem absent_updateFromBatch {nodes : List SyncNode}
    (missing : (graph.updateTextProjectionFromNodesBatch nodes).textProjections.lookup key = none) :
    graph.textProjections.lookup key = none ∧ ∀ node ∈ nodes, key ∉ textKeys node := by
  obtain ⟨before, untouched⟩ := (lookup_foldl_insert (fun key projection =>
    if hasRangeOp nodes key then
      nodes.foldl (fun current node => current.applyNode node key) projection
    else projection.applyUpdatesCoalesced (coalescedUpdates nodes key)) _ _ key).2.mp missing
  refine ⟨before, fun node member touched => untouched ?_⟩
  exact mem_dedup.mpr (mem_flatMap.mpr ⟨node, member, touched⟩)

theorem Call.run_resident {after : StateGraph} {call : Call crypto graph}
    (resident : graph.Resident) (ran : call.run = some after) : after.Resident := by
  cases call with
  | applyLocal signingKey wallMs ops parents =>
    obtain ⟨outcome, wrote, rfl⟩ := Option.map_eq_some_iff.mp ran
    obtain ⟨_, ⟨_, rfl⟩ | ⟨_, rfl⟩⟩ := applyLocal_cases wrote
    · exact resident
    · refine resident.extend [localNode crypto graph signingKey wallMs ops parents] ?_ ?_
      · intro node member
        exact (@mem_store _ (graph.reserve ops).core false node member).imp id
          mem_singleton.mpr
      · intro key missing
        obtain ⟨before, untouched⟩ := absent_updateFromNode missing
        exact ⟨before, by simpa using untouched⟩
  | applyRemote node nowMs =>
    cases ran
    rcases applyRemoteChecked_cases crypto graph node nowMs with ⟨_, _, same⟩ | ⟨_, _, _, same⟩
    · rw [same]
      refine resident.extend [node] ?_ ?_
      · intro other member
        exact (@mem_store node graph.core true other member).imp id mem_singleton.mpr
      · intro key missing
        obtain ⟨before, untouched⟩ := absent_updateFromNode missing
        exact ⟨before, by simpa using untouched⟩
    · rw [same]
      exact resident
  | applyRemoteBatch nodes nowMs =>
    cases ran
    refine resident.extend (batchAccepted crypto graph nodes nowMs) ?_ ?_
    · exact fun node member => mem_applyRemoteBatchChecked member
    · intro key missing
      rw [applyRemoteBatchChecked_textProjections] at missing
      exact absent_updateFromBatch missing
  | setPolicy policy =>
    cases ran
    exact resident
  | setLocalSigning enabled =>
    cases ran
    exact resident

theorem Reachable.resident {Allowed : ∀ graph : StateGraph, Call crypto graph → Prop}
    (reached : Reachable crypto Allowed graph) : graph.Resident := by
  induction reached with
  | start => exact fun _ _ node member => (not_mem_nil member).elim
  | call _ _ ran ih => exact Call.run_resident ih ran

/-- Reads of an enabled resident graph are answered by the live projection. -/
theorem Resident.textProjection_eq (resident : graph.Resident)
    (mode : graph.textProjectionMode = .enabled) (key : String) :
    graph.textProjection key = graph.live key := by
  rw [textProjection, mode, live]
  cases found : graph.textProjections.lookup key with
  | some projection => rfl
  | none =>
    refine foldl_applyNode_untouched fun node member => resident key found node ?_
    exact (perm_insertionSort _ _).mem_iff.mp member

end StateGraph

def Op.IsRange : Op → Prop
  | .text (.insertRange _ _ _) => True
  | .text (.deleteRange _ _ _) => True
  | _ => False

/-- Every op of the node is a range op. -/
def SyncNode.RangeOnly (node : SyncNode) : Prop := ∀ op ∈ node.transaction.ops, op.IsRange

/-- The character ids an op of a transaction derives on a key. -/
def Op.mintedIds (tx : Transaction) (key : String) : Op → List OpId
  | .text (.insertRange opKey _ content) =>
    if opKey = key then TextProjection.charIds tx.opId 0 content.toList else []
  | _ => []

theorem Op.mem_mintedIds {key : String} {op : Op} {id : OpId} (member : id ∈ op.mintedIds tx key) :
    ∃ anchor content,
      op = .text (.insertRange key anchor content) ∧
        id ∈ TextProjection.charIds tx.opId 0 content.toList := by
  unfold mintedIds at member
  split at member
  · rename_i opKey anchor content
    split at member
    · rename_i same
      exact ⟨anchor, content, by rw [same], member⟩
    · cases member
  · cases member

def SyncNode.mintedIds (node : SyncNode) (key : String) : List OpId :=
  node.transaction.ops.flatMap (Op.mintedIds node.transaction key)

/-- A minted id carries the author and lies in what the transaction reserves. -/
theorem SyncNode.mem_mintedIds {node : SyncNode} {id : OpId} (member : id ∈ node.mintedIds key) :
    ∃ index ≤ extraInsertIds node.transaction.ops,
      id = TextProjection.rangeCharId node.transaction.opId index := by
  obtain ⟨op, inOps, minted⟩ := mem_flatMap.mp member
  obtain ⟨anchor, content, rfl, inRange⟩ := Op.mem_mintedIds minted
  obtain ⟨index, _, below, rfl⟩ := TextProjection.mem_charIds.mp inRange
  have reserved : content.toList.length - 1 ≤ extraInsertIds node.transaction.ops :=
    le_sum_of_mem (mem_map.mpr ⟨_, inOps, rfl⟩)
  exact ⟨index, by omega, rfl⟩

namespace TextProjection

/-- The projection is plain and its ids are all good. -/
structure Within (Good : OpId → Prop) (projection : TextProjection) : Prop where
  plain : projection.Plain
  good : ∀ id ∈ projection.ids, Good id

variable {projection : TextProjection}

theorem Within.empty : empty.Within Good := ⟨.empty, fun _ member => (not_mem_nil member).elim⟩

section
variable (within : projection.Within Good)
include within

theorem Within.mono (better : ∀ id, Good id → Better id) : projection.Within Better :=
  ⟨within.plain, fun id member => better id (within.good id member)⟩

theorem Within.applyOp {tx : Transaction} {op : Op} (range : op.IsRange)
    (mints : ∀ id ∈ op.mintedIds tx key, Good id) : (applyOp tx key projection op).Within Good := by
  cases op with
  | map op => cases range
  | list op => cases range
  | text op =>
    cases op with
    | insert opKey after ch => cases range
    | delete opKey target => cases range
    | insertRange opKey anchor text =>
      rw [TextProjection.applyOp]
      split
      · rename_i same
        rw [Op.mintedIds, if_pos same] at mints
        have extended := within.plain.applyRangeInsert tx.opId anchor text
        exact ⟨extended.plain, fun id member =>
          (extended.mem_ids.mp member).elim (within.good id) (mints id)⟩
      · exact within
    | deleteRange opKey anchor lenChars =>
      rw [TextProjection.applyOp]
      split
      · obtain ⟨plain, same⟩ := within.plain.applyRangeDelete anchor lenChars
        exact ⟨plain, fun id member => within.good id (same ▸ member)⟩
      · exact within

theorem Within.applyNode (ranges : node.RangeOnly) (mints : ∀ id ∈ node.mintedIds key, Good id) :
    (projection.applyNode node key).Within Good := by
  unfold TextProjection.applyNode
  unfold SyncNode.RangeOnly at ranges
  unfold SyncNode.mintedIds at mints
  generalize node.transaction.ops = ops at ranges mints
  induction ops generalizing projection with
  | nil => exact within
  | cons op rest ih =>
    refine ih (within.applyOp (ranges op (.head _)) ?_) ?_ ?_
    · exact fun id member => mints id (mem_append_left _ member)
    · exact fun other member => ranges other (.tail _ member)
    · exact fun id member => mints id (mem_append_right _ member)

theorem Within.iterate (ranges : node.RangeOnly) (mints : ∀ id ∈ node.mintedIds key, Good id)
    (count : Nat) :
    ((fun current => current.applyNode node key)^[count] projection).Within Good := by
  induction count generalizing projection with
  | zero => exact within
  | succ count ih => exact ih (within.applyNode ranges mints)

theorem Within.foldl {nodes : List SyncNode} (ranges : ∀ node ∈ nodes, node.RangeOnly)
    (mints : ∀ node ∈ nodes, ∀ id ∈ node.mintedIds key, Good id) :
    (nodes.foldl (fun current node => current.applyNode node key) projection).Within Good := by
  induction nodes generalizing projection with
  | nil => exact within
  | cons node rest ih =>
    exact ih (within.applyNode (ranges node (.head _)) (mints node (.head _)))
      (fun other member => ranges other (.tail _ member))
      fun other member => mints other (.tail _ member)

end

end TextProjection

end NodalMerge
