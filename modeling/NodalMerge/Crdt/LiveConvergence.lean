import NodalMerge.Crdt.Convergence
import NodalMerge.Crdt.LiveText

namespace NodalMerge

open Confluence Function InsertAfter List MemoryNodeStore TextProjection

/-- What a text op amounts to in a projection: the character it goes behind, or
the characters it removes. -/
inductive Target where
  | behind (predecessor : Option OpId)
  | over (targets : List OpId)
  deriving DecidableEq

/-- The edits of an op on a key, once its target is known. -/
def Target.edits (tx : Transaction) (key : String) : Target → Op → List TextEdit
  | .behind predecessor, .text (.insertRange opKey _ text) =>
    if opKey = key then placeEdits tx.opId 0 predecessor text.toList else []
  | .over targets, .text (.deleteRange opKey _ _) =>
    if opKey = key then targets.map .bury else []
  | _, _ => []

theorem Target.edits_untouched {target : Target} (other : op.key ≠ key) :
    target.edits tx key (.text op) = [] := by
  cases target <;> cases op <;> first | rfl | exact if_neg other

/-- A node made by one range edit. -/
structure SyncNode.RangeEdit (node : SyncNode) : Prop where
  bounded : node.lamport ≤ u64Max
  single : ∃ op, Op.IsRange (.text op) ∧ node.transaction.ops = [.text op]

namespace TextProjection

variable {key : String}
def target (projection : TextProjection) : TextOp → Target
  | .insert _ after _ => .behind after
  | .delete _ target => .over [target]
  | .insertRange _ anchor _ => .behind (projection.resolveAnchorAfterVisible anchor)
  | .deleteRange _ anchor lenChars =>
    .over (projection.coveredIds (projection.resolveAnchorIndex anchor) lenChars)

/-- The text ops of the node on the key have the intended target here. -/
def Resolves (intent : SyncNode → Target) (key : String) (projection : TextProjection)
    (node : SyncNode) : Prop :=
  ∀ op, .text op ∈ node.transaction.ops → op.key = key → projection.target op = intent node

def nodeEdits (intent : SyncNode → Target) (key : String) (node : SyncNode) : List TextEdit :=
  node.transaction.ops.flatMap ((intent node).edits node.transaction key)

theorem placed_placeEdits {id : OpId} {after : Option OpId}
    (member : id ∈ (placeEdits base offset after chars).flatMap (EditLog.placed Item.id)) :
    id ∈ charIds base offset chars := by
  induction chars generalizing offset after with
  | nil => cases member
  | cons ch rest ih =>
    rw [placeEdits] at member
    split at member
    · rw [flatMap_cons, mem_append] at member
      rcases member with first | later
      · rw [mem_singleton.mp first]
        exact .head _
      · exact .tail _ (ih later)
    · cases member

theorem placed_nodeEdits {id : OpId}
    (member : id ∈ (nodeEdits intent key node).flatMap (EditLog.placed Item.id)) :
    id ∈ node.mintedIds key := by
  obtain ⟨edit, inNode, placed⟩ := mem_flatMap.mp member
  obtain ⟨op, inOps, inOp⟩ := mem_flatMap.mp inNode
  refine mem_flatMap.mpr ⟨op, inOps, ?_⟩
  have here : id ∈ ((intent node).edits node.transaction key op).flatMap
      (EditLog.placed Item.id) := mem_flatMap.mpr ⟨edit, inOp, placed⟩
  unfold Target.edits at here
  split at here
  · rw [Op.mintedIds]
    split at here
    · rename_i same
      rw [if_pos same]
      exact placed_placeEdits here
    · cases here
  · split at here
    · obtain ⟨bury, isBury, inBury⟩ := mem_flatMap.mp here
      obtain ⟨target, _, rfl⟩ := mem_map.mp isBury
      cases inBury
    · cases here
  · cases here

/-- Where an edit resolves as intended and mints new ids, folding it in is
running its edits. -/
theorem Plain.applyNode_edits (plain : projection.Plain) (edit : node.RangeEdit)
    (resolves : Resolves intent key projection node)
    (fresh : ∀ id ∈ node.mintedIds key, id ∉ projection.ids) :
    (projection.applyNode node key).Plain ∧
      (projection.applyNode node key).items =
        (nodeEdits intent key node).foldl applyEdit projection.items ∧
      Valid applyEdit (EditLog.Enabled Item.id) projection.items (nodeEdits intent key node) := by
  obtain ⟨op, range, single⟩ := edit.single
  have here : op.key = key → projection.target op = intent node :=
    resolves op (by rw [single]; exact .head _)
  rw [nodeEdits, applyNode, single, flatMap_cons, flatMap_nil, append_nil,
    foldl_cons, foldl_nil]
  rw [SyncNode.mintedIds, single, flatMap_cons, flatMap_nil, append_nil] at fresh
  by_cases same : op.key = key
  · rw [← here same]
    cases op with
    | insert opKey after ch => cases range
    | delete opKey target => cases range
    | insertRange opKey anchor text =>
      change opKey = key at same
      rw [applyOp, if_pos same, target, Target.edits, if_pos same]
      rw [Op.mintedIds, if_pos same] at fresh
      have present := projection.resolveAnchorAfterVisible_present anchor
      have new : ∀ index, 0 ≤ index → index < 0 + text.toList.length →
          node.transaction.opId.lamport + index ≤ u64Max →
            rangeCharId node.transaction.opId index ∉ projection.ids :=
        fun index _ below _ => fresh _ (mem_charIds.mpr ⟨index, Nat.zero_le _, below, rfl⟩)
      have room : ¬ u64Max < node.transaction.opId.lamport + 0 := not_lt.mpr edit.bounded
      obtain ⟨same, valid⟩ := plain.insertChars_eq present new fun full => (room full).elim
      exact ⟨(plain.applyRangeInsert _ anchor text).plain, congrArg TextProjection.items same, valid⟩
    | deleteRange opKey anchor lenChars =>
      change opKey = key at same
      rw [applyOp, if_pos same, target, Target.edits, if_pos same]
      refine ⟨(plain.applyRangeDelete anchor lenChars).1, ?_, ?_⟩
      · rw [plain.applyRangeDelete_eq]
      · exact valid_bury fun id member => coveredIds_known member
  · have other : ∀ textOp, Op.text op = .text textOp → textOp.key ≠ key := by
      rintro _ ⟨⟩
      exact same
    rw [applyOp_untouched other, Target.edits_untouched same]
    exact ⟨plain, rfl, trivial⟩

/-- The projection is what the intended edits of the nodes give in this order. -/
structure Woven (intent : SyncNode → Target) (key : String) (projection : TextProjection)
    (nodes : List SyncNode) : Prop where
  plain : projection.Plain
  items : projection.items = (nodes.flatMap (nodeEdits intent key)).foldl applyEdit []
  valid : Valid applyEdit (EditLog.Enabled Item.id) [] (nodes.flatMap (nodeEdits intent key))

theorem Woven.empty : Woven intent key .empty [] := ⟨.empty, rfl, trivial⟩

section
variable (woven : Woven intent key projection nodes)
include woven

theorem Woven.minted {id : OpId} (member : id ∈ projection.ids) :
    ∃ node ∈ nodes, id ∈ node.mintedIds key := by
  rw [ids, woven.items, (EditLog.keys_foldl Item.bury_id _ _).mem_iff, map_nil,
    append_nil, flatMap_assoc] at member
  obtain ⟨node, inNodes, placed⟩ := mem_flatMap.mp member
  exact ⟨node, inNodes, placed_nodeEdits placed⟩

theorem Woven.concat (edit : node.RangeEdit) (resolves : Resolves intent key projection node)
    (apart : ∀ other ∈ nodes, (other.mintedIds key).Disjoint (node.mintedIds key)) :
    Woven intent key (projection.applyNode node key) (nodes ++ [node]) := by
  have fresh : ∀ id ∈ node.mintedIds key, id ∉ projection.ids := by
    intro id minted known
    obtain ⟨other, inNodes, otherMinted⟩ := woven.minted known
    exact apart other inNodes otherMinted minted
  obtain ⟨plain, items, valid⟩ := woven.plain.applyNode_edits edit resolves fresh
  have edits : (nodes ++ [node]).flatMap (nodeEdits intent key) =
      nodes.flatMap (nodeEdits intent key) ++ nodeEdits intent key node := by
    rw [flatMap_append, flatMap_singleton]
  refine ⟨plain, ?_, ?_⟩
  · rw [items, woven.items, edits, foldl_append]
  · rw [edits]
    refine Valid.append.mpr ⟨woven.valid, ?_⟩
    rw [← woven.items]
    exact valid

theorem Woven.append (edits : ∀ node ∈ more, node.RangeEdit)
    (resolves : Valid (fun projection node => projection.applyNode node key)
      (Resolves intent key) projection more) (apart : (nodes ++ more).Pairwise fun first second =>
      (first.mintedIds key).Disjoint (second.mintedIds key)) :
    Woven intent key (more.foldl (fun projection node => projection.applyNode node key) projection)
      (nodes ++ more) := by
  induction more generalizing projection nodes with
  | nil =>
    rw [append_nil]
    exact woven
  | cons node rest ih =>
    rw [append_cons] at apart ⊢
    obtain ⟨_, _, before⟩ := pairwise_append.mp (pairwise_append.mp apart).1
    refine ih (woven.concat (edits node (.head _)) resolves.1 ?_)
      (fun other member => edits other (.tail _ member)) resolves.2 apart
    exact fun other member => before other member node (.head _)

/-- Two orders of the same nodes give the same sequence. -/
theorem Woven.items_eq (otherWoven : Woven intent key other others) (same : nodes.Perm others) :
    projection.items = other.items := by
  rw [woven.items, otherWoven.items]
  exact EditLog.foldl_apply_perm Item.bury_id (same.flatMap_right _) woven.valid otherWoven.valid

end

end TextProjection

/-- A minted id carries the author of its node and lies between the node's
Lamport value and what the node reserves. -/
theorem SyncNode.minted_between {node : SyncNode} {id : OpId} (bounded : node.lamport ≤ u64Max)
    (minted : id ∈ node.mintedIds key) :
    id.author = node.transaction.author ∧ node.lamport ≤ id.lamport ∧
      id.lamport ≤ saturatingAdd node.lamport (extraInsertIds node.transaction.ops) := by
  obtain ⟨index, below, rfl⟩ := node.mem_mintedIds minted
  refine ⟨rfl, le_min (Nat.le_add_right _ _) bounded, ?_⟩
  exact min_le_min_right _ (Nat.add_le_add_left below _)

namespace World

open StateGraph

variable {crypto : Crypto} {key : Peer → crypto.SigningKey} {world after : World Peer}

/-- Clocks cover what their peers reserved, and no two nodes mint the same id. -/
structure Spaced (crypto : Crypto) (key : Peer → crypto.SigningKey) (world : World Peer) :
    Prop where
  reserved : ∀ peer, ∀ node ∈ world.produced,
    node.transaction.author = crypto.verifyingKey (key peer) →
      saturatingAdd node.lamport (extraInsertIds node.transaction.ops) ≤
        (world.graph peer).lamport
  apart : ∀ first ∈ world.produced, ∀ second ∈ world.produced, first ≠ second →
    ∀ firstKey secondKey, (first.mintedIds firstKey).Disjoint (second.mintedIds secondKey)

section
variable [DecidableEq Peer]

theorem Action.run_clock (dag : ∀ peer, (world.graph peer).core.Dag crypto)
    {action : Action world} (ran : action.run crypto key = some after) (peer : Peer) :
    (world.graph peer).lamport ≤ (after.graph peer).lamport := by
  obtain ⟨active, call, graph, _, called, graphs⟩ := Action.run_call ran
  rw [graphs, update_apply]
  split
  · rename_i same
    subst same
    exact (Call.run_steps (dag peer) called).lamport_le
  · exact le_refl _

omit [DecidableEq Peer] in
/-- Ids of a new local write are above everything its author reserved. -/
theorem Spaced.write_apart (spaced : Spaced crypto key world) (sound : Sound crypto key world)
    (dag : ∀ peer, (world.graph peer).core.Dag crypto)
    {parents : Enumeration (world.graph peer).leaves}
    (room : (world.graph peer).lamport + 1 ≤ u64Max) (made : other ∈ world.produced)
    (otherKey newKey : String) :
    (other.mintedIds otherKey).Disjoint
      ((localNode crypto (world.graph peer) (key peer) wallMs ops parents).mintedIds newKey) := by
  intro id minted new
  obtain ⟨owner, owned, stored⟩ := sound.authored other made
  obtain ⟨author, _, below⟩ := other.minted_between
    (((dag owner).clock other stored).trans (dag owner).bounded) minted
  have bounded : (localNode crypto (world.graph peer) (key peer) wallMs ops parents).lamport ≤
      u64Max := by
    rw [SyncNode.lamport, localNode_transaction]
    exact room
  obtain ⟨newAuthor, above, _⟩ := SyncNode.minted_between bounded new
  rw [SyncNode.lamport, localNode_transaction] at above
  rw [localNode_transaction] at newAuthor
  have covered := spaced.reserved peer other made (author.symm.trans newAuthor)
  exact absurd (above.trans (below.trans covered)) (Nat.not_succ_le_self _)

theorem Spaced.step (spaced : Spaced crypto key world) (sound : Sound crypto key world)
    (injective : Function.Injective fun peer => crypto.verifyingKey (key peer))
    (dag : ∀ peer, (world.graph peer).core.Dag crypto) {action : Action world}
    (ran : action.run crypto key = some after) : Spaced crypto key after := by
  have forward := Action.run_clock dag ran
  have keep (produced : after.produced = world.produced) : Spaced crypto key after := by
    refine ⟨fun peer node made author => ?_, ?_⟩
    · rw [produced] at made
      exact (spaced.reserved peer node made author).trans (forward peer)
    · rw [produced]
      exact spaced.apart
  rcases Action.run_cases ran with ⟨peer, wallMs, ops, parents, room, fresh, _, rfl⟩ |
    ⟨peer, wallMs, ops, parents, _, _, _, rfl⟩ | ⟨peer, node, made, _, rfl⟩ |
    ⟨peer, nodes, made, _, rfl⟩
  · refine ⟨fun owner node made author => ?_, ?_⟩
    · rcases mem_cons.mp made with rfl | earlier
      · rw [localNode_transaction] at author
        obtain rfl : peer = owner := injective author
        simp only [World.update, update_self]
        rw [SyncNode.lamport, localNode_transaction]
        exact Nat.le_max_left _ _
      · exact (spaced.reserved owner node earlier author).trans (forward owner)
    · intro first inFirst second inSecond differ firstKey secondKey
      rcases mem_cons.mp inFirst with rfl | earlierFirst <;>
        rcases mem_cons.mp inSecond with rfl | earlierSecond
      · exact (differ rfl).elim
      · exact (spaced.write_apart sound dag room earlierSecond secondKey firstKey).symm
      · exact spaced.write_apart sound dag room earlierFirst firstKey secondKey
      · exact spaced.apart first earlierFirst second earlierSecond differ firstKey secondKey
  · exact keep rfl
  · exact keep rfl
  · exact keep rfl

theorem Run.spaced
    (injective : Function.Injective fun peer => crypto.verifyingKey (key peer))
    (run : Run crypto key Allowed world) : Spaced crypto key world := by
  induction run with
  | start => exact ⟨by simp [World.start], by simp [World.start]⟩
  | step run _ ran ih =>
    exact ih.step (run.sound injective) injective (fun peer => (run.reachable peer).dag) ran

/-- Writes are local range edits. -/
def Action.EditsText (world : World Peer) : Action world → Prop
  | .write peer _ ops _ => ∃ op, ops = [(world.graph peer).lowerRangeOp op]
  | _ => True

variable (crypto key) in
/-- Wherever the action folds a node into a text, the node's range op resolves
to its intended target there. -/
def Action.ResolvesAs (intent : SyncNode → Target) (world : World Peer) : Action world → Prop
  | .write peer wallMs ops parents => ∀ textKey,
    Resolves intent textKey ((world.graph peer).textProjection textKey)
      (localNode crypto (world.graph peer) (key peer) wallMs ops parents)
  | .deliver peer node _ => (applyRemote crypto (world.graph peer) node).2 = .ok () →
    ∀ textKey, Resolves intent textKey ((world.graph peer).textProjection textKey) node
  | .deliverBatch peer nodes _ => ∀ textKey,
    Valid (fun projection node => projection.applyNode node textKey) (Resolves intent textKey)
      ((world.graph peer).textProjection textKey)
      (batchAccepted crypto (world.graph peer) nodes none)

/-- What an action does to the text of the peer it happens at. -/
theorem Action.run_text {action : Action world}
    (reads : ∀ peer textKey, (world.graph peer).textProjection textKey =
      (world.graph peer).live textKey) (edits : ∀ node ∈ after.produced, node.RangeEdit)
    (ran : action.run crypto key = some after) :
    ∃ peer graph more, after.graph = Function.update world.graph peer graph ∧
      graph.nodes.data = (world.graph peer).nodes.data ++ more ∧
      (∀ node ∈ more, node ∈ after.produced) ∧
      (∀ textKey, graph.live textKey =
        more.foldl (fun projection node => projection.applyNode node textKey)
          ((world.graph peer).live textKey)) ∧
      (action.ResolvesAs crypto key intent → ∀ textKey,
        Valid (fun projection node => projection.applyNode node textKey) (Resolves intent textKey)
          ((world.graph peer).live textKey) more) := by
  rcases Action.run_cases ran with ⟨peer, wallMs, ops, parents, room, fresh, rfl, rfl⟩ |
    ⟨peer, wallMs, ops, parents, _, _, _, rfl⟩ | ⟨peer, node, made, rfl, rfl⟩ |
    ⟨peer, nodes, made, rfl, rfl⟩
  · obtain ⟨op, _, single⟩ := (edits _ (.head _)).single
    refine ⟨peer, _, [localNode crypto (world.graph peer) (key peer) wallMs ops parents], rfl,
      put_fresh fresh, ?_, live_updateFromNode_single single _, ?_⟩
    · intro node member
      rw [mem_singleton.mp member]
      exact .head _
    · intro resolves textKey
      rw [← reads]
      exact ⟨resolves textKey, trivial⟩
  · exact ⟨peer, _, [], rfl, (append_nil _).symm, by simp, fun _ => rfl, fun _ _ => trivial⟩
  · rcases applyRemoteChecked_cases crypto (world.graph peer) node none with
      ⟨_, admissible, same⟩ | ⟨verified, _, _, same⟩
    · have accepted : applyRemote crypto (world.graph peer) node =
          ((world.graph peer).accept node, .ok ()) := same
      obtain ⟨op, _, single⟩ := (edits node made).single
      refine ⟨peer, (world.graph peer).accept node, [node], by rw [accepted]; rfl,
        put_fresh admissible.fresh, ?_, live_updateFromNode_single single _, ?_⟩
      · intro other member
        rw [mem_singleton.mp member]
        exact made
      · intro resolves textKey
        rw [← reads]
        exact ⟨resolves (by rw [accepted]) textKey, trivial⟩
    · have rejected : (applyRemote crypto (world.graph peer) node).1 =
          { world.graph peer with verifiedIds := verified } := congrArg Prod.fst same
      refine ⟨peer, (applyRemote crypto (world.graph peer) node).1, [], rfl, ?_, by simp, ?_,
        fun _ _ => trivial⟩
      · rw [rejected]
        exact (append_nil _).symm
      · intro textKey
        rw [rejected]
        rfl
  · refine ⟨peer, _, batchAccepted crypto (world.graph peer) nodes none, rfl,
      applyRemoteBatchChecked_data _ _ _ _, ?_, applyRemoteBatchChecked_live _ _ _ _, ?_⟩
    · exact fun node member => made node (mem_batchAccepted member).1
    · intro resolves textKey
      rw [← reads]
      exact resolves textKey

theorem Run.edits
    (ranges : ∀ world action, Allowed world action → action.EditsText)
    (run : Run crypto key Allowed world) : ∀ node ∈ world.produced, node.RangeEdit := by
  induction run with
  | start => simp [World.start]
  | step _ allowed ran ih =>
    rcases Action.run_cases ran with ⟨peer, wallMs, ops, parents, room, _, rfl, rfl⟩ |
      ⟨peer, wallMs, ops, parents, _, _, _, rfl⟩ | ⟨peer, node, made, _, rfl⟩ |
      ⟨peer, nodes, made, _, rfl⟩
    · intro node member
      rcases mem_cons.mp member with rfl | earlier
      · obtain ⟨op, rfl⟩ := ranges _ _ allowed
        refine ⟨?_, ?_⟩
        · rw [SyncNode.lamport, localNode_transaction]
          exact room
        · rw [localNode_transaction]
          cases op with
          | insert key anchor text => exact ⟨.insertRange key _ text, trivial, rfl⟩
          | delete key anchor lenChars => exact ⟨.deleteRange key _ lenChars, trivial, rfl⟩
      · exact ih node earlier
    · exact ih
    · exact ih
    · exact ih

theorem Run.reads
    (run : Run crypto key Allowed world) (peer : Peer) (textKey : String) :
    (world.graph peer).textProjection textKey = (world.graph peer).live textKey :=
  have reached := run.reachable peer
  reached.resident.textProjection_eq reached.settings.2.2 textKey

section
variable (injective : Function.Injective fun peer => crypto.verifyingKey (key peer))
include injective

/-- The nodes a peer stores mint different ids. -/
theorem Run.stored_apart (run : Run crypto key Allowed world) (peer : Peer) (textKey : String) :
    (world.graph peer).nodes.data.Pairwise fun first second =>
      (first.mintedIds textKey).Disjoint (second.mintedIds textKey) := by
  have known := (run.sound injective).known peer
  have nodup : (world.graph peer).nodes.data.Nodup :=
    (run.reachable peer).dag.linked.nodup.of_map _
  refine List.Pairwise.imp_of_mem ?_ nodup
  intro first second inFirst inSecond differ
  exact (run.spaced injective).apart first (known first inFirst) second (known second inSecond)
    differ textKey textKey

theorem Run.woven
    (run : Run crypto key (fun _ action => action.EditsText ∧ action.ResolvesAs crypto key intent)
      world) (peer : Peer) (textKey : String) :
    Woven intent textKey ((world.graph peer).live textKey) (world.graph peer).nodes.data := by
  induction run generalizing peer with
  | start => exact .empty
  | @step world after action run allowed ran ih =>
    have later := Run.step run allowed ran
    have edits := later.edits fun _ _ both => both.1
    obtain ⟨active, graph, more, graphs, data, made, live, resolves⟩ :=
      Action.run_text run.reads edits ran
    by_cases same : peer = active
    · subst same
      have here : after.graph peer = graph := by rw [graphs, update_self]
      have apart := later.stored_apart injective peer textKey
      rw [here, data] at apart
      rw [here, data, live]
      exact (ih peer).append (fun node member => edits node (made node member))
        (resolves allowed.2 textKey) apart
    · have here : after.graph peer = world.graph peer := by
        rw [graphs, update_of_ne same]
      rw [here]
      exact ih peer

end

/-- In every run of range edits whose ops resolve wherever they are applied to
what they resolved to at their author, peers with the same node ids show the
same text under every key. -/
theorem live_text_converges (crypto : Crypto) (key : Peer → crypto.SigningKey)
    (injective : Function.Injective fun peer => crypto.verifyingKey (key peer))
    (intent : SyncNode → Target) (world : World Peer)
    (run : Run crypto key (fun _ action => action.EditsText ∧ action.ResolvesAs crypto key intent)
      world)
    (collisionFree : crypto.CollisionFree world.transactions) (first second : Peer)
    (same : ∀ id, (world.graph first).nodes.contains id = true ↔
      (world.graph second).nodes.contains id = true) (textKey : String) :
    (world.graph first).resolveText textKey = (world.graph second).resolveText textKey := by
  have nodes := (run.sound injective).perm_of_ids collisionFree
    (fun peer => (run.reachable peer).dag) same
  have items := (run.woven injective first textKey).items_eq (run.woven injective second textKey)
    nodes
  rw [resolveText, resolveText, run.reads, run.reads, resolveString, resolveString, visible,
    visible, items]

end

def noteOps (anchor : TextRangeAnchor) (peer : Bool) : List Op :=
  [.text (.insertRange "doc" anchor (if peer then "b" else "c"))]

def note (anchor : TextRangeAnchor) (peer : Bool) : SyncNode :=
  localNode Crypto.sample .empty (sampleKeys peer) 0 (noteOps anchor peer) noLeaves

def firstNoted (anchor : TextRangeAnchor) : World Bool :=
  { World.start.update true (empty.commitLocal (noteOps anchor true) (note anchor true)) with
    produced := [note anchor true] }

def noted (anchor : TextRangeAnchor) : World Bool :=
  { (firstNoted anchor).update false
      (empty.commitLocal (noteOps anchor false) (note anchor false)) with
    produced := [note anchor false, note anchor true] }

def delivered (anchor : TextRangeAnchor) (peer : Bool) : StateGraph :=
  (applyRemote Crypto.sample ((noted anchor).graph peer) (note anchor !peer)).1

def exchanged (anchor : TextRangeAnchor) : World Bool :=
  ((noted anchor).update true (delivered anchor true)).update false (delivered anchor false)

theorem exchanged_run (writes : ∀ (world : World Bool) peer parents, world.graph peer = .empty →
      Allowed world (.write peer 0 (noteOps anchor peer) parents))
    (delivers : ∀ world peer author made, Allowed world (.deliver peer (note anchor author) made)) :
    Run Crypto.sample sampleKeys Allowed (exchanged anchor) := by
  have room : empty.lamport + 1 ≤ u64Max := by decide
  have one : Run Crypto.sample sampleKeys Allowed (firstNoted anchor) :=
    Run.write .start true (writes _ true _ rfl) room rfl
  have two : Run Crypto.sample sampleKeys Allowed (noted anchor) :=
    Run.write one false (writes _ false _ rfl) room rfl
  have three := two.deliver true (note anchor false) (.head _) (delivers _ _ _ _)
  exact three.deliver false (note anchor true) (.tail _ (.head _)) (delivers _ _ _ _)

theorem noteOps_editsText {world : World Bool} {parents : Enumeration (world.graph peer).leaves}
    (stable : (world.graph peer).canonicalAnchor "doc" anchor = anchor) :
    Action.EditsText world (.write peer 0 (noteOps anchor peer) parents) := by
  refine ⟨.insert "doc" anchor (if peer then "b" else "c"), ?_⟩
  rw [lowerRangeOp, stable]
  rfl

theorem exchanged_ids
    (here : ((exchanged anchor).graph true).nodes.data = [note anchor true, note anchor false])
    (there : ((exchanged anchor).graph false).nodes.data = [note anchor false, note anchor true])
    (id : NodeId) : ((exchanged anchor).graph true).nodes.contains id = true ↔
      ((exchanged anchor).graph false).nodes.contains id = true := by
  rw [contains_iff, contains_iff, here, there]
  simp [or_comm]

theorem start_anchors_converge :
    ((exchanged .atStart).graph true).resolveText "doc" = "cb" ∧
      ((exchanged .atStart).graph true).resolveText "doc" =
        ((exchanged .atStart).graph false).resolveText "doc" := by
  have resolves {projection : TextProjection} {peer : Bool} {op : TextOp}
      (member : .text op ∈ noteOps .atStart peer) : projection.target op = .behind none := by
    cases mem_singleton.mp member
    rfl
  refine ⟨by decide, live_text_converges Crypto.sample sampleKeys sampleKeys_injective
    (fun _ => .behind none) (exchanged .atStart) (exchanged_run ?_ ?_) ?_ true false
    (exchanged_ids (by decide) (by decide)) "doc"⟩
  · intro world peer parents _
    refine ⟨noteOps_editsText rfl, fun textKey op member _ => ?_⟩
    rw [localNode_transaction] at member
    exact resolves member
  · intro world peer author made
    refine ⟨trivial, fun _ textKey op member _ => ?_⟩
    exact resolves member
  · exact Crypto.sample.collisionFree_of_nodes (by decide)

/-- Both peers hold both nodes, and show them in a different order. -/
theorem end_anchors_diverge :
    Run Crypto.sample sampleKeys (fun _ action => action.EditsText) (exchanged .atEnd) ∧
      (∀ id, ((exchanged .atEnd).graph true).nodes.contains id = true ↔
        ((exchanged .atEnd).graph false).nodes.contains id = true) ∧
      ((exchanged .atEnd).graph true).resolveText "doc" = "bc" ∧
      ((exchanged .atEnd).graph false).resolveText "doc" = "cb" :=
  ⟨exchanged_run (fun _ _ _ _ => noteOps_editsText rfl) (fun _ _ _ _ => trivial),
    exchanged_ids (by decide) (by decide), by decide, by decide⟩

end World

end NodalMerge
