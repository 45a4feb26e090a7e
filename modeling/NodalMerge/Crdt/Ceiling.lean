import NodalMerge.Crdt.Network
import NodalMerge.Crdt.Signature

namespace NodalMerge

open LinkedLog List StateGraph

/-- The largest Lamport value of a list of nodes, zero if there is none. -/
def maxLamport (nodes : List SyncNode) : Nat := (nodes.map SyncNode.lamport).foldr max 0

theorem maxLamport_le {nodes : List SyncNode} (each : ∀ node ∈ nodes, node.lamport ≤ bound) :
    maxLamport nodes ≤ bound := by
  induction nodes with
  | nil => exact Nat.zero_le _
  | cons node rest ih =>
    exact max_le (each node (by simp)) (ih fun other member => each other (by simp [member]))

/-- How a node came about: it was written on top of a log whose tips are its
parents, with a clock that is not far above the transactions of that log. -/
structure Origin (crypto : Crypto) (produced : List SyncNode) (node : SyncNode) : Prop where
  genuine : node.Genuine crypto
  hashed : crypto.txHash node.transaction = node.id
  bounded : node.lamport ≤ u64Max
  grounded : ∃ log, Linked SyncNode.id SyncNode.parents log ∧
    (∀ tip, IsTip SyncNode.id SyncNode.parents log tip → tip ∈ node.parents) ∧
    (∀ entry ∈ log, entry ∈ produced ∧ crypto.txHash entry.transaction = entry.id) ∧
    node.lamport ≤ maxLamport log + lamportSlack

theorem Origin.mono (origin : Origin crypto produced node)
    (wider : ∀ entry ∈ produced, entry ∈ more) : Origin crypto more node := by
  obtain ⟨log, linked, tips, entries, near⟩ := origin.grounded
  exact ⟨origin.genuine, origin.hashed, origin.bounded, log, linked, tips,
    fun entry member => ⟨wider entry (entries entry member).1, (entries entry member).2⟩, near⟩

namespace World

variable {crypto : Crypto} {key : Peer → crypto.SigningKey}

/-- Local writes are made while the clock is within the slack of the largest
stored transaction. -/
def Action.WithinSlack (world : World Peer) : Action world → Prop
  | .write peer _ _ _ =>
    (world.graph peer).lamport + 1 ≤ maxLamport (world.graph peer).nodes.data + lamportSlack
  | _ => True

theorem Sound.origin (sound : Sound crypto key world) (signs : crypto.SignVerifies)
    (dag : (world.graph peer).core.Dag crypto) {parents : Enumeration (world.graph peer).leaves}
    (room : (world.graph peer).lamport + 1 ≤ u64Max) (near : (world.graph peer).lamport + 1 ≤
      maxLamport (world.graph peer).nodes.data + lamportSlack) :
    Origin crypto world.produced
      (localNode crypto (world.graph peer) (key peer) wallMs ops parents) where
  genuine := localNode_genuine signs
  hashed := by rw [localNode_transaction, localNode_id]
  bounded := by
    rw [SyncNode.lamport, localNode_transaction]
    exact room
  grounded := by
    refine ⟨(world.graph peer).nodes.data, dag.linked, ?_, ?_, ?_⟩
    · intro tip isTip
      have leaf : tip ∈ (world.graph peer).leaves := (dag.leaves tip).mpr isTip
      rw [SyncNode.parents, localNode_transaction]
      rw [← parents.covers] at leaf
      exact mem_toFinset.mp leaf
    · intro entry member
      exact ⟨sound.known peer entry member, dag.hashed entry member⟩
    · rw [SyncNode.lamport, localNode_transaction]
      exact near

variable [DecidableEq Peer]

theorem Run.origins (signs : crypto.SignVerifies)
    (injective : Function.Injective fun peer => crypto.verifyingKey (key peer))
    (run : Run crypto key (fun _ action => action.WithinSlack) world) :
    ∀ node ∈ world.produced, Origin crypto world.produced node := by
  induction run with
  | start => simp [World.start]
  | step run near ran ih =>
    rcases Action.run_cases ran with ⟨peer, wallMs, ops, parents, room, _, rfl, rfl⟩ |
      ⟨peer, wallMs, ops, parents, _, _, _, rfl⟩ | ⟨peer, node, made, _, rfl⟩ |
      ⟨peer, nodes, made, _, rfl⟩
    · intro node member
      refine Origin.mono ?_ fun entry earlier => .tail _ earlier
      rcases mem_cons.mp member with rfl | earlier
      · exact (run.sound injective).origin signs (run.reachable peer).dag room near
      · exact ih node earlier
    · exact ih
    · exact ih
    · exact ih

omit [DecidableEq Peer] in
/-- A receiver that stores the parents stores the whole log below them, so its
clock has reached every transaction of that log. -/
theorem Sound.maxLamport_le (sound : Sound crypto key world)
    (collisionFree : crypto.CollisionFree world.transactions)
    (dag : (world.graph peer).core.Dag crypto) (linked : Linked SyncNode.id SyncNode.parents log)
    (entries : ∀ entry ∈ log, entry ∈ world.produced ∧ crypto.txHash entry.transaction = entry.id)
    (tips : ∀ tip, IsTip SyncNode.id SyncNode.parents log tip →
      tip ∈ (world.graph peer).nodes.data.map SyncNode.id) :
    maxLamport log ≤ (world.graph peer).lamport := by
  have copies : ∀ entry ∈ log, ∀ stored ∈ (world.graph peer).nodes.data,
      entry.id = stored.id → entry = stored := by
    intro entry inLog stored member same
    exact sound.eq_of_id collisionFree (entries entry inLog).1 (sound.known peer stored member)
      (entries entry inLog).2 (dag.hashed stored member) same
  have agree : Agree SyncNode.id SyncNode.parents log (world.graph peer).nodes.data := by
    intro entry inLog stored member same
    rw [copies entry inLog stored member same]
  apply NodalMerge.maxLamport_le
  intro entry inLog
  have known := linked.subset_of_tips dag.linked agree tips entry.id
    (mem_map.mpr ⟨entry, inLog, rfl⟩)
  obtain ⟨stored, member, same⟩ := mem_map.mp known
  rw [copies entry inLog stored member same.symm]
  exact dag.clock stored member

/-- When every local write is made within the slack of the stored transactions,
a produced node is accepted wherever its parents are stored, unless it is
already there. -/
theorem produced_nodes_admissible (crypto : Crypto) (signs : crypto.SignVerifies)
    (key : Peer → crypto.SigningKey)
    (injective : Function.Injective fun peer => crypto.verifyingKey (key peer))
    (world : World Peer) (run : Run crypto key (fun _ action => action.WithinSlack) world)
    (collisionFree : crypto.CollisionFree world.transactions) (peer : Peer) (node : SyncNode)
    (made : node ∈ world.produced)
    (parents : ∀ parent ∈ node.parents, (world.graph peer).nodes.contains parent = true) :
    (applyRemote crypto (world.graph peer) node).2 = .ok () ∨
      (applyRemote crypto (world.graph peer) node).2 = .error (.duplicateNode node.id) := by
  have origin := run.origins signs injective node made
  have reached := run.reachable peer
  have dag := reached.dag
  obtain ⟨log, linked, tips, entries, near⟩ := origin.grounded
  have reachedClock := (run.sound injective).maxLamport_le collisionFree dag linked entries
    fun tip isTip => MemoryNodeStore.contains_iff.mp (parents tip (tips tip isTip))
  have ceiling : node.lamport ≤ saturatingAdd (world.graph peer).lamport lamportSlack :=
    le_min (near.trans (Nat.add_le_add_right reachedClock _)) origin.bounded
  have screened : Screened crypto (world.graph peer) none node := by
    refine ⟨precheck_ok_iff.mpr ⟨origin.hashed, ceiling, by simp⟩, ?_⟩
    unfold checkSignature
    split
    · rfl
    · exact SyncNode.verifySignature_ok_iff.mpr origin.genuine
  have permitted : (world.graph peer).Permitted node := by
    right
    rw [reached.settings.1]
    exact fun _ _ => rfl
  cases stored : (world.graph peer).nodes.contains node.id with
  | true => exact .inr (applyRemoteChecked_duplicate screened parents permitted stored)
  | false => exact .inl (applyRemoteChecked_ok_iff.mpr ⟨screened, parents, permitted, stored⟩)

theorem sampleNode_delivered :
    (applyRemote Crypto.sample (sampleWritten.graph false) sampleNode).2 = .ok () ∨
      (applyRemote Crypto.sample (sampleWritten.graph false) sampleNode).2 =
        .error (.duplicateNode sampleNode.id) :=
  produced_nodes_admissible Crypto.sample Crypto.sample_signVerifies sampleKeys
    sampleKeys_injective sampleWritten
    (sampleWritten_run (show 0 + 1 ≤ maxLamport [] + lamportSlack by decide))
    sampleShared_collisionFree false sampleNode (.head _) (by decide)

def pasteText : String := String.ofList (List.replicate 1048578 'a')

def pasteOps : List Op := [.text (.insertRange "doc" .atStart pasteText)]

def pasteNode : SyncNode :=
  localNode Crypto.sample .empty (sampleKeys true) 0 pasteOps noLeaves

def pasteWriter : StateGraph := empty.commitLocal pasteOps pasteNode

def nextNode : SyncNode :=
  localNode Crypto.sample pasteWriter (sampleKeys true) 0 sampleOps
    ⟨[pasteNode.id], by simp, by decide⟩

theorem replicate_length (count : Nat) (ch : Char) :
    (String.ofList (List.replicate count ch)).toList.length = count := by
  rw [String.toList_ofList, length_replicate]

theorem extraInsertIds_singleton (key : String) (anchor : TextRangeAnchor) (text : String) :
    extraInsertIds [.text (.insertRange key anchor text)] = text.toList.length - 1 := rfl

theorem pasteOps_reserve : extraInsertIds pasteOps = 1048577 := by
  have length : pasteText.toList.length = 1048578 := replicate_length 1048578 'a'
  rw [pasteOps, extraInsertIds_singleton, length]

theorem pasteWriter_lamport : pasteWriter.lamport = 1048578 := by
  rw [pasteWriter, commitLocal_lamport, pasteOps_reserve]
  decide

theorem nextNode_transaction : nextNode.transaction =
    ⟨Crypto.sample.verifyingKey (sampleKeys true), 1048579, 0, sampleOps, [pasteNode.id]⟩ := by
  rw [nextNode, localNode_transaction, localTransaction, pasteWriter_lamport]

theorem nextNode_fresh : pasteWriter.nodes.contains nextNode.id = false := by
  have digest : nextNode.id = Crypto.sample.txHash nextNode.transaction := by
    rw [nextNode, localNode_id, localNode_transaction]
  rw [digest, nextNode_transaction]
  decide

def pasteReader : StateGraph := empty.accept pasteNode

theorem pasteReader_eq : (applyRemote Crypto.sample .empty pasteNode).1 = pasteReader := by
  have screened : Screened Crypto.sample .empty none pasteNode := ⟨by decide, by decide⟩
  have admissible : empty.Admissible pasteNode := ⟨by decide, .inr fun _ _ => rfl, by decide⟩
  rw [applyRemote, applyRemoteChecked_accepts screened admissible]
  rfl

def pastedWorld : World Bool :=
  { World.start.update true pasteWriter with produced := [pasteNode] }

def sharedWorld : World Bool := pastedWorld.update false pasteReader

def pasteWorld : World Bool :=
  { sharedWorld.update true (pasteWriter.commitLocal sampleOps nextNode) with
    produced := [nextNode, pasteNode] }

theorem sharedWorld_run : Run Crypto.sample sampleKeys (fun _ _ => True) sharedWorld := by
  have pasted : Run Crypto.sample sampleKeys (fun _ _ => True) pastedWorld :=
    Run.write .start true trivial (by decide) (by decide)
  have run := pasted.deliver false pasteNode (.head _) trivial
  rwa [show pastedWorld.graph false = .empty from rfl, pasteReader_eq] at run

theorem pasteWorld_run : Run Crypto.sample sampleKeys (fun _ _ => True) pasteWorld := by
  have room : pasteWriter.lamport + 1 ≤ u64Max := by
    rw [pasteWriter_lamport]
    decide
  have here : sharedWorld.graph true = pasteWriter := rfl
  exact sharedWorld_run.write_at true here room nextNode_fresh

theorem applyRemote_ceiling {graph : StateGraph} (hashed : crypto.txHash node.transaction = node.id)
    (above : saturatingAdd graph.lamport lamportSlack < node.lamport) :
    (applyRemote crypto graph node).2 = .error (.lamportCeiling node.id node.lamport
      (saturatingAdd graph.lamport lamportSlack)) := by
  have failed : precheck crypto graph.lamport none node = .error (.lamportCeiling node.id
      node.lamport (saturatingAdd graph.lamport lamportSlack)) := by
    unfold precheck checkLamportCeiling
    generalize saturatingAdd graph.lamport lamportSlack = ceiling at above
    rw [if_neg (not_not.mpr hashed), if_pos above]
    rfl
  simp only [applyRemote, applyRemoteChecked, failed]

/-- The receiver has everything below the second write, and still turns it away. -/
theorem long_paste_hits_ceiling :
    Run Crypto.sample sampleKeys (fun _ _ => True) pasteWorld ∧ nextNode ∈ pasteWorld.produced ∧
      (∀ parent ∈ nextNode.parents, (pasteWorld.graph false).nodes.contains parent = true) ∧
      (applyRemote Crypto.sample (pasteWorld.graph false) nextNode).2 =
        .error (.lamportCeiling nextNode.id 1048579 1048577) := by
  have reader : pasteWorld.graph false = pasteReader := rfl
  have clock : saturatingAdd pasteReader.lamport lamportSlack = 1048577 := by decide
  have lamport : nextNode.lamport = 1048579 := by rw [SyncNode.lamport, nextNode_transaction]
  refine ⟨pasteWorld_run, .head _, ?_, ?_⟩
  · rw [reader, SyncNode.parents, nextNode_transaction]
    decide
  · have hashed : Crypto.sample.txHash nextNode.transaction = nextNode.id := by
      rw [nextNode, localNode_id, localNode_transaction]
    have above : saturatingAdd pasteReader.lamport lamportSlack < nextNode.lamport := by
      rw [clock, lamport]
      decide
    rw [reader, applyRemote_ceiling hashed above, clock, lamport]

end World

end NodalMerge
