import NodalMerge.Crdt.OpFormat
import NodalMerge.Crdt.Replay
import NodalMerge.Crdt.WritePolicy

namespace NodalMerge

open Crypto LinkedLog List Option Retry StateGraph SyncNode

def snapFrontKey : String := "\x00snap:front"

def snapBaseKey : String := "\x00snap:base"

def snapPolicyTimelineHashKey : String := "\x00snap:policy:hash"

def snapPolicyCutoverLamportKey : String := "\x00snap:policy:cutover"

/-- What compaction takes from `postcard`. -/
structure Postcard where
  frontier : Codec (List NodeId)
  timelineBytes : List PolicyTimelineEntry → List U8

structure SnapshotMeta where
  snapshotHash : Hash
  frontier : List NodeId
  author : PublicKey
  baseId : Option NodeId
  policyTimelineHash : Option Hash
  policyCutoverLamport : Option Nat

section
variable (crypto : Crypto) (postcard : Postcard)

def policyTimelineHash (timeline : List PolicyTimelineEntry) : Hash :=
  crypto.blake3 (postcard.timelineBytes (sortTimeline timeline))

def policyTimelineCutoverLamport (timeline : List PolicyTimelineEntry) : Option Nat :=
  (timeline.map PolicyTimelineEntry.effectiveLamport).max?

def policyTimelineOps (timeline : List PolicyTimelineEntry) : List MapOp :=
  if timeline.isEmpty then []
  else
    .set snapPolicyTimelineHashKey (policyTimelineHash crypto postcard timeline).val ::
      match policyTimelineCutoverLamport timeline with
      | some cutover => [.set snapPolicyCutoverLamportKey (toLeBytes 8 cutover)]
      | none => []

namespace StateGraph

variable (graph : StateGraph) (signingKey : crypto.SigningKey)

/-- The resolved map a snapshot stands for: no key of the system namespace. -/
def snapshotMap : List (String × List U8) :=
  graph.entries fun key => !systemKey key

/-- The snapshot node of a graph, with a link to a base snapshot or without. -/
def snapshotNode (base : Option NodeId) (timeline : List PolicyTimelineEntry) : SyncNode :=
  let frontierIds := graph.frontier.heads.insertionSort (· ≤ ·)
  let ops : List MapOp :=
    .set snapHashKey (canonicalHash crypto graph.snapshotMap).val ::
      .set snapFrontKey (postcard.frontier.encode frontierIds) ::
      ((base.map fun id => MapOp.set snapBaseKey id.val).toList ++
        policyTimelineOps crypto postcard timeline)
  .newSigned crypto ⟨crypto.verifyingKey signingKey, graph.lamport + 1, 0, ops.map .map, []⟩
    signingKey

/-- `compact` and its variants: `none` is the panic on `lamport + 1` at
`u64::MAX`. -/
def compactWith (base : Option NodeId) (timeline : List PolicyTimelineEntry) : Option SyncNode :=
  if u64Max < graph.lamport + 1 then none
  else some (graph.snapshotNode crypto postcard signingKey base timeline)

def compactWithPolicyTimeline (timeline : List PolicyTimelineEntry) : Option SyncNode :=
  graph.compactWith crypto postcard signingKey none timeline

def compact : Option SyncNode :=
  graph.compactWithPolicyTimeline crypto postcard signingKey []

end StateGraph

/-- The fields of a snapshot found so far. -/
structure SnapshotFields where
  hash : Option Hash
  frontier : Option (List NodeId)
  baseId : Option NodeId
  policyTimelineHash : Option Hash
  policyCutoverLamport : Option Nat

def SnapshotFields.empty : SnapshotFields := ⟨none, none, none, none, none⟩

def malformedSnapshot : SyncError := .hashMismatch (Bytes.zero 32) (Bytes.zero 32)

/-- One op of a snapshot: a wrong hash or frontier is an error, the optional
fields are passed over when they have the wrong size. -/
def SnapshotFields.read (fields : SnapshotFields) : Op → Except SyncError SnapshotFields
  | .map (.set key value) =>
    if key = snapHashKey then
      match Bytes.ofList? 32 value with
      | some hash => .ok { fields with hash := some hash }
      | none => .error malformedSnapshot
    else if key = snapFrontKey then
      match postcard.frontier.decode value with
      | some ids => .ok { fields with frontier := some ids }
      | none => .error malformedSnapshot
    else if key = snapBaseKey then
      .ok { fields with baseId := (Bytes.ofList? 32 value).or fields.baseId }
    else if key = snapPolicyTimelineHashKey then
      .ok { fields with policyTimelineHash := (Bytes.ofList? 32 value).or fields.policyTimelineHash }
    else if key = snapPolicyCutoverLamportKey then
      .ok { fields with
        policyCutoverLamport :=
          ((Bytes.ofList? 8 value).map fun bytes => fromLeBytes bytes.val).or
            fields.policyCutoverLamport }
    else .ok fields
  | _ => .ok fields

def verifySnapshot (node : SyncNode) : Except SyncError SnapshotMeta := do
  node.verifySignature crypto
  let fields ← node.transaction.ops.foldlM (SnapshotFields.read postcard) .empty
  match fields.hash, fields.frontier with
  | some snapshotHash, some frontierIds =>
    return ⟨snapshotHash, frontierIds, node.transaction.author, fields.baseId,
      fields.policyTimelineHash, fields.policyCutoverLamport⟩
  | _, _ => throw malformedSnapshot

end

section
variable {graph : StateGraph}

theorem compactWith_eq_some_iff :
    graph.compactWith crypto postcard signingKey base timeline = some snapshot ↔
      graph.lamport + 1 ≤ u64Max ∧
        snapshot = graph.snapshotNode crypto postcard signingKey base timeline := by
  rw [compactWith]
  split
  · rename_i full
    simp [not_le.mpr full]
  · rename_i room
    simp [not_lt.mp room, eq_comm]

theorem compact_eq_some_iff :
    graph.compact crypto postcard signingKey = some snapshot ↔
      graph.lamport + 1 ≤ u64Max ∧
        snapshot = graph.snapshotNode crypto postcard signingKey none [] :=
  compactWith_eq_some_iff

/-- What a snapshot says about its graph is read back. -/
theorem verifySnapshot_snapshotNode (signs : crypto.SignVerifies) :
    verifySnapshot crypto postcard (graph.snapshotNode crypto postcard signingKey base []) =
      .ok ⟨canonicalHash crypto graph.snapshotMap, graph.frontier.heads.insertionSort (· ≤ ·),
        crypto.verifyingKey signingKey, base, none, none⟩ := by
  have signed : (graph.snapshotNode crypto postcard signingKey base []).verifySignature crypto =
      .ok () := verifySignature_ok_iff.mpr (newSigned_genuine signs rfl)
  have frontKey : ¬ snapFrontKey = snapHashKey := by decide
  have baseKey : ¬ snapBaseKey = snapHashKey ∧ ¬ snapBaseKey = snapFrontKey := by decide
  rw [verifySnapshot, signed]
  cases base with
  | none =>
    simp [snapshotNode, SyncNode.newSigned, policyTimelineOps, SnapshotFields.read, frontKey,
      postcard.frontier.roundTrip, SnapshotFields.empty, bind, Except.bind, pure, Except.pure]
  | some id =>
    simp [snapshotNode, SyncNode.newSigned, policyTimelineOps, SnapshotFields.read, frontKey, baseKey,
      postcard.frontier.roundTrip, SnapshotFields.empty, bind, Except.bind, pure, Except.pure]

end

section
variable {graph : StateGraph}

@[simp] theorem snapshotNode_parents :
    (graph.snapshotNode crypto postcard signingKey base timeline).parents = [] := rfl

theorem snapshotNode_hashed :
    crypto.txHash (graph.snapshotNode crypto postcard signingKey base timeline).transaction =
      (graph.snapshotNode crypto postcard signingKey base timeline).id := rfl

theorem snapshotNode_genuine (signs : crypto.SignVerifies) :
    (graph.snapshotNode crypto postcard signingKey base timeline).Genuine crypto :=
  newSigned_genuine signs rfl

theorem isSnapshotNode_snapshotNode :
    isSnapshotNode (graph.snapshotNode crypto postcard signingKey base timeline) = true := by
  simp [isSnapshotNode, snapshotNode, SyncNode.newSigned]

/-- A snapshot writes in the system namespace only. -/
theorem systemKey_of_mem_snapshotNode
    (member : op ∈ (graph.snapshotNode crypto postcard signingKey base timeline).transaction.ops) :
    systemKey op.key = true := by
  obtain ⟨mapOp, inOps, rfl⟩ := mem_map.mp member
  simp only [mem_cons, mem_append, mem_toList, map_eq_some_iff,
    policyTimelineOps] at inOps
  have hashKey : systemKey snapPolicyTimelineHashKey = true := by decide
  rcases inOps with rfl | rfl | ⟨id, -, rfl⟩ | inTimeline
  · exact (by decide : systemKey snapHashKey = true)
  · exact (by decide : systemKey snapFrontKey = true)
  · exact (by decide : systemKey snapBaseKey = true)
  · split at inTimeline
    · cases inTimeline
    · split at inTimeline
      · simp only [mem_cons, not_mem_nil, or_false] at inTimeline
        rcases inTimeline with rfl | rfl
        · exact hashKey
        · exact (by decide : systemKey snapPolicyCutoverLamportKey = true)
      · obtain rfl := mem_singleton.mp inTimeline
        exact hashKey

theorem mapWrites_snapshotNode (visible : systemKey key = false) :
    mapWrites key (graph.snapshotNode crypto postcard signingKey base timeline) = [] := by
  by_contra wrote
  obtain ⟨write, member⟩ := exists_mem_of_ne_nil _ wrote
  obtain ⟨op, inOps, rfl⟩ := mapWrites_op member
  have system := systemKey_of_mem_snapshotNode inOps
  rw [Op.key, visible] at system
  cases system

end

/-- The clock is within the slack of an empty graph or of some node below. -/
def WithinReach (nodes : List SyncNode) (node : SyncNode) : Prop :=
  node.lamport ≤ lamportSlack ∨ ∃ other ∈ nodes, other.id ≠ node.id ∧
    Reaches SyncNode.id SyncNode.parents nodes node.id other.id ∧
    node.lamport ≤ other.lamport + lamportSlack

/-- Keys of the system namespace, apart from the payload key, show nothing. -/
def SystemKeysEmpty (nodes : List SyncNode) : Prop :=
  ∀ key, key ≠ e2eeKey → systemKey key = true → ∀ node, Leads nodes key node →
    firstValue key node = none

/-- The maps that are hashed: the one in the snapshot, and those that causal
orders of the nodes resolve to. -/
def StateGraph.resolvedMaps (crypto : Crypto) (graph : StateGraph) : Set (List (String × List U8)) :=
  { map | map = graph.snapshotMap ∨
    ∃ other : StateGraph, Reachable crypto (fun _ _ => True) other ∧
      CausalOrder graph.nodes.data other.nodes.data ∧
      map = other.entries fun key => key != e2eeKey }

theorem maxLamport_cases (nodes : List SyncNode) :
    maxLamport nodes = 0 ∨ ∃ node ∈ nodes, node.lamport = maxLamport nodes := by
  induction nodes with
  | nil => exact .inl rfl
  | cons node rest ih =>
    change max node.lamport (maxLamport rest) = 0 ∨ ∃ other ∈ node :: rest,
      other.lamport = max node.lamport (maxLamport rest)
    rcases le_total (maxLamport rest) node.lamport with high | low
    · exact .inr ⟨node, .head _, (max_eq_left high).symm⟩
    · rw [max_eq_right low]
      exact ih.imp id fun ⟨other, member, top⟩ => ⟨other, .tail _ member, top⟩

section
variable {nodes : List SyncNode}

theorem oneTransaction_of_linked (linked : Linked SyncNode.id SyncNode.parents nodes) :
    OneTransaction nodes := by
  intro first inNodes second member same
  rw [inj_on_of_nodup_map linked.nodup inNodes member same]

theorem causalOrder_of_linked (linked : Linked SyncNode.id SyncNode.parents nodes) :
    CausalOrder nodes nodes :=
  ⟨linked, fun _ member => member, fun _ member => mem_map_of_mem member⟩

theorem CausalOrder.mem_of_mem (causal : CausalOrder nodes order)
    (linked : Linked SyncNode.id SyncNode.parents nodes) (member : node ∈ nodes) :
    node ∈ order := by
  obtain ⟨copy, inOrder, sameId⟩ := mem_map.mp (causal.covers node member)
  rwa [← inj_on_of_nodup_map linked.nodup (causal.inside copy inOrder) member sameId]

/-- Every causal order keeps to the clock limit exactly when every node does
with what lies below it. -/
theorem withinCeiling_iff (linked : Linked SyncNode.id SyncNode.parents nodes)
    (bounded : ∀ node ∈ nodes, node.lamport ≤ u64Max) :
    (∀ order, CausalOrder nodes order → WithinCeiling order) ↔
      ∀ node ∈ nodes, WithinReach nodes node := by
  constructor
  · intro within node member
    obtain ⟨front, back, ordered, perm, reached⟩ := linked.ancestors_first member
    have causal : CausalOrder nodes (front ++ node :: back) :=
      ⟨ordered, fun other inside => perm.mem_iff.mp inside,
        fun other inside => mem_map_of_mem (perm.mem_iff.mpr inside)⟩
    have ceiling := (within _ causal front node back rfl).trans (Nat.min_le_left _ _)
    rcases maxLamport_cases front with zero | ⟨other, inFront, top⟩
    · exact .inl (by rwa [zero, Nat.zero_add] at ceiling)
    · refine .inr ⟨other, perm.mem_iff.mp (by simp [inFront]), ?_, reached other inFront, top ▸ ceiling⟩
      intro same
      exact ordered.entry.1 (mem_map.mpr ⟨other, inFront, same⟩)
  · rintro within order causal front node back rfl
    have member := causal.inside node (by simp)
    rcases within node member with low | ⟨other, inside, differs, path, near⟩
    · exact le_min (low.trans (Nat.le_add_left _ _)) (bounded node member)
    · refine le_min (near.trans (Nat.add_le_add_right ?_ _)) (bounded node member)
      rcases causal.linked.reached_before (path.mono fun _ => causal.mem_of_mem linked) with same | earlier
      · exact (differs same).elim
      · obtain ⟨copy, inFront, sameId⟩ := mem_map.mp earlier
        have same : copy = other := inj_on_of_nodup_map linked.nodup
          (causal.inside copy (by simp [inFront])) inside sameId
        exact same ▸ le_maxLamport inFront

section
variable (reached : Reachable crypto (fun _ _ => True) graph)
include reached

/-- What the snapshot of a graph leaves out or resolves in another way than some
causal order of its nodes. -/
theorem shown_agree_iff : (∀ order, CausalOrder graph.nodes.data order → ∀ key, key ≠ e2eeKey →
        lwwResolve order key = graph.shown (fun key => !systemKey key) key) ↔
      TiesAgree graph.nodes.data ∧ SystemKeysEmpty graph.nodes.data := by
  have linked : Linked SyncNode.id SyncNode.parents graph.nodes.data := reached.dag.linked
  have one := oneTransaction_of_linked linked
  have own := causalOrder_of_linked linked
  constructor
  · intro agree
    have wins : ∀ key, key ≠ e2eeKey → ∀ node, Leads graph.nodes.data key node →
        firstValue key node = graph.shown (fun key => !systemKey key) key := by
      intro key visible node leads
      obtain ⟨order, causal, resolves⟩ := leads.exists_order one own
      rw [← resolves, agree order causal key visible]
    refine ⟨fun key visible first second leadsFirst leadsSecond => ?_,
      fun key visible system node leads => ?_⟩
    · rw [wins key visible first leadsFirst, wins key visible second leadsSecond]
    · rw [wins key visible node leads, shown, system]
      rfl
  · rintro ⟨ties, hidden⟩ order causal key visible
    rw [shown, reached.resolve_eq]
    rcases causal.lwwResolve_cases one key with ⟨node, leads, wins⟩ | ⟨unwritten, empty⟩
    · cases system : systemKey key with
      | true => rw [wins, hidden key visible system node leads]; rfl
      | false =>
        rcases own.lwwResolve_cases one key with ⟨other, otherLeads, otherWins⟩ | ⟨unwritten, -⟩
        · rw [wins, otherWins, ties key visible node other leads otherLeads]
          rfl
        · exact (leads.writes (unwritten node leads.member)).elim
    · rcases own.lwwResolve_cases one key with ⟨other, otherLeads, -⟩ | ⟨-, otherEmpty⟩
      · exact (otherLeads.writes (unwritten other otherLeads.member)).elim
      · rw [empty, otherEmpty]
        split <;> rfl

/-- Where ties agree and system keys are empty there is only one map. -/
theorem eq_snapshotMap (ties : TiesAgree graph.nodes.data)
    (hidden : SystemKeysEmpty graph.nodes.data) {map : List (String × List U8)}
    (member : map ∈ graph.resolvedMaps crypto) : map = graph.snapshotMap := by
  rcases member with rfl | ⟨other, otherReached, causal, rfl⟩
  · rfl
  · refine entries_eq_iff.mpr fun key => ?_
    by_cases payload : key = e2eeKey
    · subst payload
      rw [shown, shown, if_neg (by simp), if_neg (by decide)]
    · rw [← (shown_agree_iff reached).mpr ⟨ties, hidden⟩ _ causal key payload,
        ← otherReached.resolve_eq, shown, if_pos (by simpa using payload)]

/-- Replaying the causal order stored in a graph gives that graph's own map. -/
theorem replay_hash_iff (noCollision : Set.InjOn (canonicalHash crypto) (graph.resolvedMaps crypto))
    (causal : CausalOrder graph.nodes.data order) : (∃ state, replay crypto order none = .ok state ∧
        state.hash = canonicalHash crypto graph.snapshotMap) ↔
      ((∀ node ∈ graph.nodes.data, node.Genuine crypto) ∧ WithinCeiling order) ∧
        ∀ key, key ≠ e2eeKey → lwwResolve order key = graph.shown (fun key => !systemKey key) key := by
  have dag := reached.dag
  have linked : Linked SyncNode.id SyncNode.parents graph.nodes.data := dag.linked
  have runs : (∃ last, ReplayRun crypto [] order last) ↔
      (∀ node ∈ graph.nodes.data, node.Genuine crypto) ∧ WithinCeiling order := by
    rw [replayRun_iff causal.linked]
    refine and_congr_left fun _ => ⟨fun each node member => ?_, fun genuine node member => ?_⟩
    · exact (each node (causal.mem_of_mem linked member)).2
    · have inside := causal.inside node member
      exact ⟨⟨dag.hashed node inside, .inr fun _ _ => rfl⟩, genuine node inside⟩
  rw [← runs]
  have hashes {last : StateGraph} (ran : ReplayRun crypto [] order last) :
      canonicalHash crypto (last.entries fun key => key != e2eeKey) =
          canonicalHash crypto graph.snapshotMap ↔
        ∀ key, key ≠ e2eeKey → lwwResolve order key = graph.shown (fun key => !systemKey key) key := by
    have data := ran.data_eq causal.linked
    have lastReached := ran.intake.1.reached
    rw [noCollision.eq_iff (.inr ⟨last, lastReached, data ▸ causal, rfl⟩) (.inl rfl), snapshotMap,
      entries_eq_iff]
    refine forall_congr' fun key => ?_
    by_cases hidden : key = e2eeKey
    · subst hidden
      simp only [ne_eq, not_true_eq_false, false_imp_iff, iff_true]
      rw [shown, shown, if_neg (by simp), if_neg (by decide)]
    · simp only [ne_eq, hidden, not_false_eq_true, true_imp_iff, ← data, ← lastReached.resolve_eq]
      rw [shown, if_pos (by simpa using hidden)]
  constructor
  · rintro ⟨state, ok, sameHash⟩
    obtain ⟨last, ran, rfl⟩ := replay_ok_iff.mp ok
    exact ⟨⟨last, ran⟩, (hashes ran).mp sameHash⟩
  · rintro ⟨⟨last, ran⟩, agree⟩
    exact ⟨_, replay_ok_iff.mpr ⟨last, ran, rfl⟩, (hashes ran).mpr agree⟩

end

end

/-- The hash in a snapshot is the hash of every causal replay of the graph
exactly when there is room for the snapshot's clock, the stored nodes are signed
and keep to the clock limit with what lies below them, and nodes that may win
under a key agree: on one value, and on none in the system namespace. -/
theorem snapshot_hash_agrees_iff (crypto : Crypto) (postcard : Postcard)
    (signs : crypto.SignVerifies) (graph : StateGraph)
    (reached : Reachable crypto (fun _ _ => True) graph) (signingKey : crypto.SigningKey)
    (noCollision : Set.InjOn (canonicalHash crypto) (graph.resolvedMaps crypto)) :
    (∃ snapshot info, graph.compact crypto postcard signingKey = some snapshot ∧
        verifySnapshot crypto postcard snapshot = .ok info ∧
        ∀ order, CausalOrder graph.nodes.data order →
          ∃ state, replay crypto order none = .ok state ∧ state.hash = info.snapshotHash) ↔
      graph.lamport + 1 ≤ u64Max ∧
        (∀ node ∈ graph.nodes.data, node.Genuine crypto ∧ WithinReach graph.nodes.data node) ∧
        TiesAgree graph.nodes.data ∧ SystemKeysEmpty graph.nodes.data := by
  have dag := reached.dag
  have linked : Linked SyncNode.id SyncNode.parents graph.nodes.data := dag.linked
  have bounded : ∀ node ∈ graph.nodes.data, node.lamport ≤ u64Max :=
    fun node member => (dag.clock node member).trans dag.bounded
  have ceilings := withinCeiling_iff linked bounded
  have maps := shown_agree_iff reached
  constructor
  · rintro ⟨snapshot, info, made, verified, agree⟩
    obtain ⟨room, rfl⟩ := compact_eq_some_iff.mp made
    rw [verifySnapshot_snapshotNode signs] at verified
    cases verified
    have each := fun order causal => (replay_hash_iff reached noCollision causal).mp (agree order causal)
    have genuine := (each _ (causalOrder_of_linked linked)).1.1
    have near := ceilings.mp fun order causal => (each order causal).1.2
    exact ⟨room, fun node member => ⟨genuine node member, near node member⟩,
      maps.mp fun order causal => (each order causal).2⟩
  · rintro ⟨room, good, agree⟩
    refine ⟨_, _, compact_eq_some_iff.mpr ⟨room, rfl⟩, verifySnapshot_snapshotNode signs,
      fun order causal => (replay_hash_iff reached noCollision causal).mpr ⟨⟨?_, ?_⟩, ?_⟩⟩
    · exact fun node member => (good node member).1
    · exact ceilings.mpr (fun node member => (good node member).2) order causal
    · exact maps.mpr agree order causal

/-- A small concrete instance. -/
def Postcard.sample : Postcard where
  frontier := .ofFormat (.list (.fixed .byte 32))
  timelineBytes timeline := timeline.map fun entry => Fin.ofNat 256 entry.effectiveLamport

/-- A replica with one write. -/
def sampleReader : StateGraph := empty.accept sampleNode

theorem sampleNode_leads (leads : Leads sampleReader.nodes.data key node) :
    node = sampleNode ∧ key = "k" := by
  obtain rfl : node = sampleNode := mem_singleton.mp leads.member
  exact ⟨rfl, @eq_key_of_mapWrites _ _ (.set "k" [7]) rfl leads.writes⟩

theorem sampleReader_snapshot_agrees :
    ∃ snapshot info, sampleReader.compact Crypto.sample Postcard.sample (Crypto.sampleKey 1) =
        some snapshot ∧ verifySnapshot Crypto.sample Postcard.sample snapshot = .ok info ∧
      ∃ state, replay Crypto.sample [sampleNode] none = .ok state ∧
        state.hash = info.snapshotHash := by
  have ties : TiesAgree sampleReader.nodes.data := by
    intro key _ first second leadsFirst leadsSecond
    rw [(sampleNode_leads leadsFirst).1, (sampleNode_leads leadsSecond).1]
  have hidden : SystemKeysEmpty sampleReader.nodes.data := by
    intro key _ system node leads
    rw [(sampleNode_leads leads).2] at system
    exact absurd system (by decide)
  have noCollision : Set.InjOn (canonicalHash Crypto.sample)
      (sampleReader.resolvedMaps Crypto.sample) := by
    intro first inFirst second inSecond _
    rw [eq_snapshotMap sampleReader_reachable ties hidden inFirst,
      eq_snapshotMap sampleReader_reachable ties hidden inSecond]
  have good : ∀ node ∈ sampleReader.nodes.data, node.Genuine Crypto.sample ∧
      WithinReach sampleReader.nodes.data node := by
    intro node member
    rw [mem_singleton.mp member]
    exact ⟨by decide, .inl (by decide)⟩
  obtain ⟨snapshot, info, made, verified, agree⟩ := (snapshot_hash_agrees_iff Crypto.sample
    Postcard.sample sample_signVerifies sampleReader sampleReader_reachable
    (Crypto.sampleKey 1) noCollision).mpr ⟨by decide, good, ties, hidden⟩
  exact ⟨snapshot, info, made, verified,
    agree [sampleNode] (causalOrder_of_linked sampleReader_reachable.dag.linked)⟩

/-- The replica after the first sweep: its own snapshot is applied to it. -/
def sweptReader : StateGraph :=
  sampleReader.accept
    (sampleReader.snapshotNode Crypto.sample Postcard.sample (Crypto.sampleKey 1) none [])

theorem sweptReader_reachable : Reachable Crypto.sample (fun _ _ => True) sweptReader := by
  have vetted : Vetted Crypto.sample sampleReader (sampleReader.snapshotNode Crypto.sample
      Postcard.sample (Crypto.sampleKey 1) none []) :=
    ⟨snapshotNode_hashed, by decide, .inr (snapshotNode_genuine sample_signVerifies)⟩
  exact .receive sampleReader_reachable trivial (screened_iff.mpr vetted)
    ⟨by simp, .inl isSnapshotNode_snapshotNode, by decide⟩

theorem any_toOption {result : Except Error Value} {check : Value → Bool} :
    result.toOption.any check = true ↔ ∃ value, result = .ok value ∧ check value = true := by
  cases result <;> simp [Except.toOption]

/-- The second sweep: the hash in its snapshot is not that of a replay, which
also resolves the keys of the first snapshot. -/
theorem second_sweep_disagrees :
    Reachable Crypto.sample (fun _ _ => True) sweptReader ∧
      ∃ snapshot info state, sweptReader.compact Crypto.sample Postcard.sample
          (Crypto.sampleKey 1) = some snapshot ∧
        verifySnapshot Crypto.sample Postcard.sample snapshot = .ok info ∧
        CausalOrder sweptReader.nodes.data sweptReader.nodes.data ∧
        replay Crypto.sample sweptReader.nodes.data none = .ok state ∧
        state.hash ≠ info.snapshotHash := by
  have checked : ((sweptReader.compact Crypto.sample Postcard.sample (Crypto.sampleKey 1)).any
      fun snapshot => (verifySnapshot Crypto.sample Postcard.sample snapshot).toOption.any
        fun info => (replay Crypto.sample sweptReader.nodes.data none).toOption.any
          fun state => state.hash ≠ info.snapshotHash) = true := by
    decide +kernel
  obtain ⟨snapshot, made, verifies⟩ := (any_eq_true _ _).mp checked
  obtain ⟨info, verified, replays⟩ := any_toOption.mp verifies
  obtain ⟨state, replayed, differs⟩ := any_toOption.mp replays
  exact ⟨sweptReader_reachable, snapshot, info, state, made, verified,
    causalOrder_of_linked sweptReader_reachable.dag.linked, replayed, of_decide_eq_true differs⟩

section
variable (crypto : Crypto) (postcard : Postcard)

/-- A snapshot without policy fields is compatible with every timeline. -/
def snapshotPolicyTimelineCompatible (snapshot : SnapshotMeta)
    (timeline : List PolicyTimelineEntry) : Bool :=
  if snapshot.policyTimelineHash.isNone && snapshot.policyCutoverLamport.isNone then true
  else
    snapshot.policyTimelineHash == some (policyTimelineHash crypto postcard timeline) &&
      snapshot.policyCutoverLamport == policyTimelineCutoverLamport timeline

end

/-- The sort is stable: the first entry of a cutover stays the first. -/
theorem find?_sortTimeline (cutover : Nat) (timeline : List PolicyTimelineEntry) :
    (sortTimeline timeline).find? (fun entry => entry.effectiveLamport == cutover) =
      timeline.find? fun entry => entry.effectiveLamport == cutover := by
  have inserted (entry : PolicyTimelineEntry) (rest : List PolicyTimelineEntry) :
      (rest.orderedInsert (fun first second => first.effectiveLamport ≤ second.effectiveLamport)
        entry).find? (fun entry => entry.effectiveLamport == cutover) =
      (entry :: rest).find? fun entry => entry.effectiveLamport == cutover := by
    induction rest with
    | nil => rfl
    | cons head rest ih =>
      by_cases sorted : entry.effectiveLamport ≤ head.effectiveLamport
      · rw [orderedInsert_cons, if_pos sorted]
      · rw [orderedInsert_cons, if_neg sorted]
        grind
  induction timeline with
  | nil => rfl
  | cons entry rest ih =>
    rw [sortTimeline, insertionSort_cons, inserted, find?_cons, find?_cons, ← ih]
    rfl

section

theorem sortTimeline_congr (perm : order.Perm timeline)
    (single : ∀ first ∈ timeline, ∀ second ∈ timeline,
      first.effectiveLamport = second.effectiveLamport → first = second) :
    sortTimeline order = sortTimeline timeline := by
  have sorted (entries : List PolicyTimelineEntry) : (sortTimeline entries).Pairwise
      fun first second => first.effectiveLamport ≤ second.effectiveLamport :=
    pairwise_insertionSort ..
  have member {entry : PolicyTimelineEntry} (found : entry ∈ sortTimeline timeline) :
      entry ∈ timeline := (mem_insertionSort _).mp found
  have same : (sortTimeline order).Perm (sortTimeline timeline) :=
    (perm_insertionSort _ _).trans (perm.trans (perm_insertionSort _ _).symm)
  refine same.eq_of_pairwise (fun first second one other below above => ?_) (sorted _) (sorted _)
  exact single first (member (same.mem_iff.mp one)) second (member other) (le_antisymm below above)

theorem cutover_congr (perm : order.Perm timeline) :
    policyTimelineCutoverLamport order = policyTimelineCutoverLamport timeline := by
  refine Option.ext fun cutover => ?_
  simp only [policyTimelineCutoverLamport, max?_eq_some_iff, (perm.map _).mem_iff]

end

/-- The order of the entries does not matter exactly when no cutover has two policies. -/
theorem timeline_order_ignored_iff (crypto : Crypto) (postcard : Postcard)
    (timeline : List PolicyTimelineEntry)
    (noCollision : Set.InjOn (fun order => crypto.blake3 (postcard.timelineBytes order))
      {order | order.Perm timeline}) :
    (∀ order : List PolicyTimelineEntry, order.Perm timeline →
      policyTimelineHash crypto postcard order = policyTimelineHash crypto postcard timeline ∧
      (∀ snapshot, snapshotPolicyTimelineCompatible crypto postcard snapshot order =
        snapshotPolicyTimelineCompatible crypto postcard snapshot timeline) ∧
      ∀ nodes, replayWithPolicyTimeline crypto nodes order =
        replayWithPolicyTimeline crypto nodes timeline) ↔
      ∀ first ∈ timeline, ∀ second ∈ timeline,
        first.effectiveLamport = second.effectiveLamport → first = second := by
  classical
  constructor
  · intro ignored first inFirst second inSecond cutover
    by_contra differ
    have moved : (first :: second :: (timeline.erase first).erase second).Perm timeline :=
      ((perm_cons_erase ((mem_erase_of_ne (Ne.symm differ)).mpr inSecond)).symm.cons first).trans
        (perm_cons_erase inFirst).symm
    have swapped := (Perm.swap first second _).trans moved
    have hashes := (ignored _ moved).1.trans (ignored _ swapped).1.symm
    have sorts := noCollision ((perm_insertionSort _ _).trans moved)
      ((perm_insertionSort _ _).trans swapped) hashes
    have heads := congrArg (find? fun entry => entry.effectiveLamport == second.effectiveLamport)
      sorts
    change find? _ (sortTimeline _) = find? _ (sortTimeline _) at heads
    rw [find?_sortTimeline, find?_sortTimeline] at heads
    simp [cutover, differ] at heads
  · intro single order perm
    have sorts := sortTimeline_congr perm single
    have hashes : policyTimelineHash crypto postcard order =
        policyTimelineHash crypto postcard timeline := by
      rw [policyTimelineHash, sorts, policyTimelineHash]
    refine ⟨hashes, fun snapshot => ?_, fun nodes => ?_⟩
    · rw [snapshotPolicyTimelineCompatible, hashes, cutover_congr perm,
        snapshotPolicyTimelineCompatible]
    · have policies : timelinePolicy order = timelinePolicy timeline := by
        funext node
        rw [timelinePolicy, sorts, timelinePolicy]
      rw [replayWithPolicyTimeline, policies, replayWithPolicyTimeline]

/-- Two entries with cutovers of their own, in either order. -/
theorem two_cutovers_order_ignored :
    let timeline : List PolicyTimelineEntry := [⟨0, .denyAll⟩, ⟨5, .default⟩]
    let order : List PolicyTimelineEntry := [⟨5, .default⟩, ⟨0, .denyAll⟩]
    policyTimelineHash Crypto.sample Postcard.sample order =
        policyTimelineHash Crypto.sample Postcard.sample timeline ∧
      (∀ snapshot, snapshotPolicyTimelineCompatible Crypto.sample Postcard.sample snapshot order =
        snapshotPolicyTimelineCompatible Crypto.sample Postcard.sample snapshot timeline) ∧
      ∀ nodes, replayWithPolicyTimeline Crypto.sample nodes order =
        replayWithPolicyTimeline Crypto.sample nodes timeline := by
  refine (timeline_order_ignored_iff Crypto.sample Postcard.sample [⟨0, .denyAll⟩, ⟨5, .default⟩]
    ?_).mpr ?_ _ (.swap ..)
  · intro one inOne other inOther same
    rcases perm_pair.mp inOne with rfl | rfl <;> rcases perm_pair.mp inOther with rfl | rfl
    · rfl
    · exact absurd same (by decide)
    · exact absurd same (by decide)
    · rfl
  · intro first inFirst second inSecond same
    rcases mem_pair.mp inFirst with rfl | rfl <;> rcases mem_pair.mp inSecond with rfl | rfl
    · rfl
    · cases same
    · cases same
    · rfl

theorem timeline_order_decides_replay : ∃ order timeline : List PolicyTimelineEntry,
    order.Perm timeline ∧
      (replayWithPolicyTimeline Crypto.sample [sampleNode] order).toBool = true ∧
      (replayWithPolicyTimeline Crypto.sample [sampleNode] timeline).toBool = false := by
  refine ⟨[⟨0, .denyAll⟩, ⟨0, .default⟩], [⟨0, .default⟩, ⟨0, .denyAll⟩], .swap .., ?_, ?_⟩
  · decide +kernel
  · decide +kernel

end NodalMerge
