import NodalMerge.Crdt.Canonical
import NodalMerge.Crdt.Encoding
import NodalMerge.Crdt.Ingest

namespace NodalMerge

open LastWriter LinkedLog List MemoryNodeStore Option Retry

/-- The sentinel key of encrypted payloads. -/
def e2eeKey : String := "\x00e2ee"

namespace StateGraph

/-- `resolve()` as a sorted map, restricted to some keys. -/
def entries (graph : StateGraph) (keep : String → Bool) : List (String × List U8) :=
  ((sortedKeys graph.stateCaches.mapAll.keys).filter keep).filterMap fun key =>
    (graph.resolve key).map fun value => (key, value)

end StateGraph

/-- The byte stream that is hashed: every key and value behind its `u32` length. -/
def canonicalBytes (map : List (String × List U8)) : List U8 :=
  map.flatMap fun entry => toLeBytes 4 (utf8 entry.1).length ++ utf8 entry.1 ++
    toLeBytes 4 entry.2.length ++ entry.2

def canonicalHash (crypto : Crypto) (map : List (String × List U8)) : Hash :=
  crypto.blake3 (canonicalBytes map)

/-- Key and value have lengths that a `u32` holds. -/
def ShortEntry (entry : String × List U8) : Prop :=
  (utf8 entry.1).length < 2 ^ 32 ∧ entry.2.length < 2 ^ 32
deriving Decidable

theorem canonicalBytes_cons (entry : String × List U8) (map : List (String × List U8)) :
    canonicalBytes (entry :: map) = toLeBytes 4 (utf8 entry.1).length ++ (utf8 entry.1 ++
      (toLeBytes 4 entry.2.length ++ (entry.2 ++ canonicalBytes map))) := by
  simp [canonicalBytes]

theorem eq_of_canonicalBytes_eq (short : ∀ entry ∈ one, ShortEntry entry)
    (short' : ∀ entry ∈ other, ShortEntry entry)
    (same : canonicalBytes one = canonicalBytes other) : one = other := by
  induction one generalizing other with
  | nil =>
    cases other with
    | nil => rfl
    | cons entry rest =>
      cases same
  | cons entry rest ih =>
    cases other with
    | nil =>
      cases same
    | cons entry' rest' =>
      obtain ⟨here, later⟩ := forall_mem_cons.mp short
      obtain ⟨here', later'⟩ := forall_mem_cons.mp short'
      rw [canonicalBytes_cons, canonicalBytes_cons] at same
      obtain ⟨keys, values⟩ := framed_inj here.1 here'.1 same
      obtain ⟨value, tails⟩ := framed_inj here.2 here'.2 values
      rw [Prod.ext (utf8_injective keys) value, ih later later' tails]

structure ResolvedState where
  map : List (String × List U8)
  hash : Hash

/-- The policy is in force from `effectiveLamport` on. -/
structure PolicyTimelineEntry where
  effectiveLamport : Nat
  policy : Policy

def sortTimeline (timeline : List PolicyTimelineEntry) : List PolicyTimelineEntry :=
  timeline.insertionSort fun first second => first.effectiveLamport ≤ second.effectiveLamport

/-- The last entry that is in force, scanning up to the first that is not. -/
def policyForLamport (lamport : Nat) : List PolicyTimelineEntry → Policy → Policy
  | [], selected => selected
  | entry :: rest, selected =>
    if entry.effectiveLamport ≤ lamport then policyForLamport lamport rest entry.policy else selected

/-- The policy that replay installs before a node. -/
def timelinePolicy (timeline : List PolicyTimelineEntry) (node : SyncNode) : Policy :=
  policyForLamport node.lamport (sortTimeline timeline) .default

def replayWithPolicyTimeline (crypto : Crypto) (nodes : List SyncNode)
    (timeline : List PolicyTimelineEntry) : Except SyncError ResolvedState :=
  match run (StateGraph.attempt crypto (some (timelinePolicy timeline))) .empty nodes with
  | .error failure => .error failure.2
  | .ok (graph, []) =>
    let map := graph.entries fun key => key != e2eeKey
    .ok ⟨map, canonicalHash crypto map⟩
  | .ok (_, node :: _) => .error (.missingParent (node.parents.head?.getD node.id))

def replay (crypto : Crypto) (nodes : List SyncNode) (policy : Option Policy) :
    Except SyncError ResolvedState :=
  replayWithPolicyTimeline crypto nodes (policy.elim [] fun policy => [⟨0, policy⟩])

namespace StateGraph

variable {graph other : StateGraph} {keep : String → Bool} {key : String}

theorem mem_entries : (key, value) ∈ graph.entries keep ↔
    keep key = true ∧ graph.resolve key = some value := by
  simp only [entries, mem_filterMap, mem_filter, mem_sortedKeys, map_eq_some_iff,
    Prod.mk.injEq]
  constructor
  · rintro ⟨_, ⟨-, kept⟩, _, found, rfl, rfl⟩
    exact ⟨kept, found⟩
  · rintro ⟨kept, found⟩
    refine ⟨key, ⟨?_, kept⟩, value, found, rfl, rfl⟩
    rw [Finmap.mem_keys, ← Finmap.lookup_isSome]
    obtain ⟨winner, present, -⟩ := bind_eq_some_iff.mp found
    rw [present]
    rfl

theorem entries_sorted : (graph.entries keep).Pairwise fun first second => first.1 < second.1 := by
  refine List.Pairwise.filterMap _ ?_ ((sortedKeys_pairwise _).filter keep)
  intro first second less one inFirst two inSecond
  obtain ⟨_, -, rfl⟩ := map_eq_some_iff.mp inFirst
  obtain ⟨_, -, rfl⟩ := map_eq_some_iff.mp inSecond
  exact less

/-- What a restricted map shows under a key. -/
def shown (graph : StateGraph) (keep : String → Bool) (key : String) : Option (List U8) :=
  if keep key then graph.resolve key else none

theorem mem_entries_iff_shown : (key, value) ∈ graph.entries keep ↔
    graph.shown keep key = some value := by
  rw [mem_entries, shown]
  split <;> simp [*]

/-- Two resolved maps are equal when they agree key by key. -/
theorem entries_eq_iff :
    graph.entries keep = other.entries otherKeep ↔
      ∀ key, graph.shown keep key = other.shown otherKeep key := by
  constructor
  · intro same key
    apply Option.ext
    intro value
    rw [← mem_entries_iff_shown, same, mem_entries_iff_shown]
  · intro same
    have nodup (one : StateGraph) (keep : String → Bool) : (one.entries keep).Nodup :=
      (@entries_sorted one keep).imp fun less equal => (equal ▸ less).false
    refine ((perm_ext_iff_of_nodup (nodup graph keep) (nodup other otherKeep)).mpr
      ?_).eq_of_pairwise (fun one two _ _ less greater => (less.trans greater).false.elim)
      entries_sorted entries_sorted
    rintro ⟨key, value⟩
    rw [mem_entries_iff_shown, mem_entries_iff_shown, same key]

end StateGraph

/-- The value of the first op of a node on a key. -/
def firstValue (key : String) (node : SyncNode) : Option (List U8) :=
  (mapWrites key node).head?.bind MapWinner.value

/-- The first node of the highest priority among those that write the key. -/
def Wins (nodes : List SyncNode) (key : String) (node : SyncNode) : Prop :=
  ∃ front back, nodes = front ++ node :: back ∧ mapWrites key node ≠ [] ∧
    (∀ other ∈ front, mapWrites key other ≠ [] →
      other.transaction.priority < node.transaction.priority) ∧
    ∀ other ∈ back, mapWrites key other ≠ [] →
      other.transaction.priority ≤ node.transaction.priority

variable {key : String}

theorem Wins.lwwResolve_eq
    (wins : Wins nodes key node) : lwwResolve nodes key = firstValue key node := by
  obtain ⟨front, back, rfl, writes, lower, notHigher⟩ := wins
  obtain ⟨value, rest, offers⟩ := exists_cons_of_ne_nil writes
  have head : (mapWrites key node).head? = some value := by
    rw [offers]
    rfl
  have found : winner MapWinner.priority ((front ++ node :: back).flatMap (mapWrites key)) =
      some value :=
    winner_flatMap (fun _ _ _ member => mapWrites_priority member) head lower notHigher
  rw [lwwResolve, found, firstValue, head]

theorem Wins.mem
    (wins : Wins nodes key node) : node ∈ nodes := by
  obtain ⟨front, back, rfl, -⟩ := wins
  simp

theorem Wins.writes
    (wins : Wins nodes key node) : mapWrites key node ≠ [] := by
  obtain ⟨front, back, -, writes, -⟩ := wins
  exact writes

/-- Some node wins, or none writes the key. -/
theorem wins_or_unwritten (nodes : List SyncNode) (key : String) :
    (∃ node, Wins nodes key node) ∨
      (∀ node ∈ nodes, mapWrites key node = []) ∧ lwwResolve nodes key = none := by
  cases found : winner MapWinner.priority (nodes.flatMap (mapWrites key)) with
  | none =>
    exact .inr ⟨flatMap_eq_nil_iff.mp (winner_eq_none_iff.mp found), by rw [lwwResolve, found]; rfl⟩
  | some value =>
    obtain ⟨front, node, back, split, head, lower, notHigher⟩ := exists_of_winner_flatMap
      (fun node _ write member => mapWrites_priority member) found
    refine .inl ⟨node, front, back, split, ?_, lower, notHigher⟩
    intro nothing
    rw [nothing] at head
    cases head

/-- No node writes the key with a higher priority, and none below this one with
the same: some order of the nodes lets it win. -/
structure Leads (nodes : List SyncNode) (key : String) (node : SyncNode) : Prop where
  member : node ∈ nodes
  writes : mapWrites key node ≠ []
  highest : ∀ other ∈ nodes, mapWrites key other ≠ [] →
    other.transaction.priority ≤ node.transaction.priority
  first : ∀ other ∈ nodes, mapWrites key other ≠ [] → other.id ≠ node.id →
    Reaches SyncNode.id SyncNode.parents nodes node.id other.id →
    other.transaction.priority < node.transaction.priority

/-- Nodes that may win under a key have the same value for it. -/
def TiesAgree (nodes : List SyncNode) : Prop :=
  ∀ key, key ≠ e2eeKey → ∀ first second, Leads nodes key first → Leads nodes key second →
    firstValue key first = firstValue key second

/-- The nodes in an order that respects the links, every id once. -/
structure CausalOrder (nodes order : List SyncNode) : Prop where
  linked : Linked SyncNode.id SyncNode.parents order
  inside : ∀ node ∈ order, node ∈ nodes
  covers : ∀ node ∈ nodes, node.id ∈ order.map SyncNode.id

section

theorem mapWrites_congr (same : one.transaction = two.transaction) (key : String) :
    mapWrites key one = mapWrites key two := by
  rw [mapWrites, mapWrites, same]

theorem CausalOrder.copy (causal : CausalOrder nodes order) (one : StateGraph.OneTransaction nodes)
    (member : node ∈ nodes) :
    ∃ copy ∈ order, copy.id = node.id ∧ copy.transaction = node.transaction := by
  obtain ⟨copy, inOrder, sameId⟩ := mem_map.mp (causal.covers node member)
  exact ⟨copy, inOrder, sameId, one copy (causal.inside copy inOrder) node member sameId⟩

/-- Whatever wins in a causal order is a leading node. -/
theorem CausalOrder.lwwResolve_cases (causal : CausalOrder nodes order)
    (one : StateGraph.OneTransaction nodes) (key : String) :
    (∃ node, Leads nodes key node ∧ lwwResolve order key = firstValue key node) ∨
      (∀ node ∈ nodes, mapWrites key node = []) ∧ lwwResolve order key = none := by
  rcases wins_or_unwritten order key with ⟨node, wins⟩ | ⟨unwritten, empty⟩
  · have resolves := wins.lwwResolve_eq
    obtain ⟨front, back, rfl, wrote, lower, notHigher⟩ := wins
    refine .inl ⟨node, ⟨causal.inside node (by simp), wrote, ?_, ?_⟩, resolves⟩
    · intro other member writes
      obtain ⟨copy, inOrder, -, sameTx⟩ := causal.copy one member
      rw [← mapWrites_congr sameTx] at writes
      rw [← sameTx]
      rcases mem_append.mp inOrder with inFront | rest
      · exact (lower copy inFront writes).le
      · rcases mem_cons.mp rest with rfl | inBack
        · exact le_refl _
        · exact notHigher copy inBack writes
    · intro other member writes differs path
      have linked := causal.linked
      rw [append_cons] at linked
      have agree : Agree SyncNode.id SyncNode.parents nodes (front ++ [node]) := by
        intro first inNodes second inFront same
        have inOrder : second ∈ front ++ node :: back := by
          rw [append_cons]
          exact mem_append_left _ inFront
        exact congrArg Transaction.parents
          (one first inNodes second (causal.inside second inOrder) same)
      have before := path.mem_of_agree agree linked.front (by simp)
      rw [map_append, mem_append] at before
      rcases before with earlier | same
      · obtain ⟨copy, inFront, sameId⟩ := mem_map.mp earlier
        have sameTx := one copy (causal.inside copy (by simp [inFront])) other member sameId
        rw [← mapWrites_congr sameTx] at writes
        rw [← sameTx]
        exact lower copy inFront writes
      · exact (differs (by simpa using same)).elim
  · refine .inr ⟨fun node member => ?_, empty⟩
    obtain ⟨copy, inOrder, -, sameTx⟩ := causal.copy one member
    rw [← mapWrites_congr sameTx]
    exact unwritten copy inOrder

/-- Every leading node wins in some causal order. -/
theorem Leads.exists_order (leads : Leads nodes key node) (one : StateGraph.OneTransaction nodes)
    (causal : CausalOrder nodes order) :
    ∃ other, CausalOrder nodes other ∧ lwwResolve other key = firstValue key node := by
  obtain ⟨copy, inOrder, sameId, sameTx⟩ := causal.copy one leads.member
  obtain ⟨front, back, linked, perm, reached⟩ := causal.linked.ancestors_first inOrder
  have inside : ∀ other ∈ front ++ copy :: back, other ∈ nodes :=
    fun other member => causal.inside other (perm.mem_iff.mp member)
  refine ⟨front ++ copy :: back, ⟨linked, inside, fun other member =>
    ((perm.map SyncNode.id).mem_iff).mpr (causal.covers other member)⟩, ?_⟩
  have lower : ∀ other ∈ front, mapWrites key other ≠ [] →
      other.transaction.priority < copy.transaction.priority := by
    intro other inFront writes
    rw [sameTx]
    refine leads.first other (inside other (by simp [inFront])) writes ?_ ?_
    · intro same
      exact linked.entry.1 (mem_map.mpr ⟨other, inFront, same.trans sameId.symm⟩)
    · exact sameId ▸ (reached other inFront).mono causal.inside
  have notHigher : ∀ other ∈ back, mapWrites key other ≠ [] →
      other.transaction.priority ≤ copy.transaction.priority := by
    intro other inBack writes
    rw [sameTx]
    exact leads.highest other (inside other (by simp [inBack])) writes
  have writes : mapWrites key copy ≠ [] := mapWrites_congr sameTx key ▸ leads.writes
  rw [firstValue, ← mapWrites_congr sameTx, ← firstValue]
  exact Wins.lwwResolve_eq ⟨front, back, rfl, writes, lower, notHigher⟩

end

namespace StateGraph

theorem Reachable.resolve_eq {Allowed : ∀ graph : StateGraph, Call crypto graph → Prop}
    (reached : Reachable crypto Allowed graph) (key : String) :
    graph.resolve key = lwwResolve graph.nodes.data key := by
  exact congrArg (Option.bind · _) (reached.cached.map key)

end StateGraph

open StateGraph

section
variable {crypto : Crypto} {timeline : List PolicyTimelineEntry} {nodes order : List SyncNode}
  {last : StateGraph}

/-- What replay checks of a node, whatever the graph. -/
abbrev Replayed (crypto : Crypto) (timeline : List PolicyTimelineEntry) : SyncNode → Prop :=
  Lawful crypto (some (timelinePolicy timeline)) .default

abbrev ReplayRun (crypto : Crypto) (timeline : List PolicyTimelineEntry) (nodes : List SyncNode)
    (last : StateGraph) : Prop :=
  Runs (attempt crypto (some (timelinePolicy timeline))) .empty nodes last []

theorem replay_ok_iff :
    replayWithPolicyTimeline crypto nodes timeline = .ok state ↔
      ∃ last, ReplayRun crypto timeline nodes last ∧
        state = ⟨last.entries fun key => key != e2eeKey,
          canonicalHash crypto (last.entries fun key => key != e2eeKey)⟩ := by
  unfold replayWithPolicyTimeline
  constructor
  · intro ok
    split at ok
    · cases ok
    · rename_i graph ran
      exact ⟨graph, run_ok_iff.mp ran, (Except.ok.inj ok).symm⟩
    · cases ok
  · rintro ⟨last, runs, rfl⟩
    rw [run_ok_iff.mpr runs]

theorem ReplayRun.intake (ran : ReplayRun crypto timeline nodes last) :
    Intake crypto (some (timelinePolicy timeline)) .default nodes last ∧
      ∀ node ∈ nodes, Replayed crypto timeline node ∧ last.nodes.contains node.id = true := by
  obtain ⟨intake, each⟩ := (Intake.empty crypto (some (timelinePolicy timeline)) nodes).runs
    (fun _ member => member) ran
  exact ⟨intake, fun node member => (each node member).resolve_right not_mem_nil⟩

theorem ReplayRun.causal (ran : ReplayRun crypto timeline nodes last) :
    CausalOrder nodes last.nodes.data :=
  ⟨ran.intake.1.reached.dag.linked, ran.intake.1.source,
    fun node member => contains_iff.mp (ran.intake.2 node member).2⟩

theorem ReplayRun.data_eq (ran : ReplayRun crypto timeline order last)
    (linked : Linked SyncNode.id SyncNode.parents order) : last.nodes.data = order := by
  cases ran with
  | finished => rfl
  | stalled nonempty trace stuck => exact (nonempty (eq_nil_of_length_eq_zero stuck.symm)).elim
  | again trace shorter tail =>
    obtain ⟨rfl, data⟩ := stored_in_order trace linked
    cases tail with
    | finished => exact data
    | stalled nonempty trace stuck => exact (nonempty rfl).elim
    | again trace shorter tail => exact (Nat.not_lt_zero _ shorter).elim

/-- A causal order replays exactly when every node passes in its turn. -/
theorem replayRun_iff (linked : Linked SyncNode.id SyncNode.parents order) :
    (∃ last, ReplayRun crypto timeline order last) ↔
      (∀ node ∈ order, Replayed crypto timeline node ∧ node.Genuine crypto) ∧
        WithinCeiling order := by
  constructor
  · rintro ⟨last, ran⟩
    obtain ⟨intake, each⟩ := ran.intake
    have data := ran.data_eq linked
    refine ⟨fun node member => ⟨(each node member).1, ?_⟩, data ▸ intake.within⟩
    obtain ⟨copy, inside, sameId, genuine⟩ :=
      intake.verified node.id (intake.marked node (data.symm ▸ member))
    rwa [← inj_on_of_nodup_map linked.nodup inside member sameId]
  · rintro ⟨each, within⟩
    obtain ⟨last, trace, -, -⟩ :=
      (Intake.empty crypto (some (timelinePolicy timeline)) order).store_all linked within
        fun node member => ⟨member, (each node member).1, .inr (each node member).2⟩
    exact ⟨last, trace.runs⟩

/-- Some order of the nodes can be replayed: content hashes and policy are in
order, every id has a copy with a good signature, and links and clocks allow a
first-to-last order. -/
structure Replayable (crypto : Crypto) (timeline : List PolicyTimelineEntry)
    (nodes : List SyncNode) : Prop where
  lawful : ∀ node ∈ nodes, Replayed crypto timeline node
  signed : ∀ node ∈ nodes, ∃ copy ∈ nodes, copy.id = node.id ∧ copy.Genuine crypto
  ordered : ∃ order, CausalOrder nodes order ∧ WithinCeiling order

theorem ReplayRun.replayable (ran : ReplayRun crypto timeline nodes last) :
    Replayable crypto timeline nodes := by
  obtain ⟨intake, each⟩ := ran.intake
  refine ⟨fun node member => (each node member).1, fun node member => ?_,
    last.nodes.data, ran.causal, intake.within⟩
  obtain ⟨stored, inData, sameId⟩ := mem_map.mp (contains_iff.mp (each node member).2)
  exact sameId ▸ intake.verified stored.id (intake.marked stored inData)

/-- A causal order of signed nodes, followed by the remaining copies, replays to
that order. -/
theorem CausalOrder.exists_run (causal : CausalOrder nodes order) (one : OneTransaction nodes)
    (within : WithinCeiling order) (lawful : ∀ node ∈ nodes, Replayed crypto timeline node)
    (genuine : ∀ node ∈ order, node.Genuine crypto) :
    ∃ others last, others.Perm nodes ∧ ReplayRun crypto timeline others last ∧
      last.nodes.data = order := by
  obtain ⟨front, same, sublist⟩ := subperm_of_subset causal.linked.nodup.of_map causal.inside
  obtain ⟨rest, split⟩ := sublist.exists_perm_append
  have perm : (order ++ rest).Perm nodes := (same.symm.append_right rest).trans split.symm
  obtain ⟨middle, stored, between, data⟩ :=
    (Intake.empty crypto (some (timelinePolicy timeline)) nodes).store_all causal.linked within
      fun node member => ⟨causal.inside node member, lawful node (causal.inside node member),
        .inr (genuine node member)⟩
  replace data : middle.nodes.data = order := data
  obtain ⟨last, repeated, -, unchanged⟩ := @Intake.repeat_all _ _ _ _ _ between rest fun node member => by
    have inNodes : node ∈ nodes := perm.mem_iff.mp (mem_append_right _ member)
    rw [data]
    exact ⟨inNodes, lawful node inNodes, causal.copy one inNodes⟩
  exact ⟨order ++ rest, last, perm, (stored.append repeated).runs, by rw [unchanged, data]⟩

/-- A replayable list has an order that replays. -/
theorem Replayable.exists_run (replayable : Replayable crypto timeline nodes)
    (one : OneTransaction nodes) :
    ∃ others last, others.Perm nodes ∧ ReplayRun crypto timeline others last := by
  classical
  obtain ⟨order, causal, within⟩ := replayable.ordered
  have exists_copy : ∀ node, ∃ copy, node ∈ nodes → copy ∈ nodes ∧ copy.id = node.id ∧
      copy.Genuine crypto := by
    intro node
    by_cases member : node ∈ nodes
    · obtain ⟨copy, found⟩ := replayable.signed node member
      exact ⟨copy, fun _ => found⟩
    · exact ⟨node, fun inside => absurd inside member⟩
  choose copy found using exists_copy
  have sameTx : ∀ node ∈ order, (copy node).transaction = node.transaction := by
    intro node member
    obtain ⟨inside, sameId, -⟩ := found node (causal.inside node member)
    exact one _ inside node (causal.inside node member) sameId
  have signedOrder : CausalOrder nodes (order.map copy) := by
    refine ⟨causal.linked.map fun node member => ⟨(found node (causal.inside node member)).2.1,
      congrArg Transaction.parents (sameTx node member)⟩, ?_, ?_⟩
    · intro node member
      obtain ⟨entry, inOrder, rfl⟩ := mem_map.mp member
      exact (found entry (causal.inside entry inOrder)).1
    · intro node member
      obtain ⟨entry, inOrder, sameId⟩ := mem_map.mp (causal.covers node member)
      refine mem_map.mpr ⟨copy entry, mem_map_of_mem inOrder, ?_⟩
      exact (found entry (causal.inside entry inOrder)).2.1.trans sameId
  obtain ⟨others, last, perm, ran, -⟩ := signedOrder.exists_run one
    (within.map fun node member => congrArg Transaction.lamport (sameTx node member))
    replayable.lawful fun node member => by
      obtain ⟨entry, inOrder, rfl⟩ := mem_map.mp member
      exact (found entry (causal.inside entry inOrder)).2.2
  exact ⟨others, last, perm, ran⟩

/-- A node too far ahead of an empty graph, or with a bad signature, ends a replay
that starts with it. -/
theorem replay_refused {node : SyncNode} {rest : List SyncNode}
    (bad : ¬ (node.lamport ≤ lamportSlack ∧ node.Genuine crypto)) :
    ∃ error, replayWithPolicyTimeline crypto (node :: rest) timeline = .error error := by
  have refused : ¬ Vetted crypto .empty node := by
    rintro ⟨-, ceiling, signed⟩
    refine bad ⟨ceiling.trans (Nat.min_le_left _ _ |>.trans (Nat.zero_add _).le), ?_⟩
    exact signed.resolve_left (Finset.notMem_empty _)
  obtain ⟨next, error, failed⟩ := @attempt_failed crypto (some (timelinePolicy timeline)) _ _ (.inl refused)
  refine ⟨error, ?_⟩
  have passed : pass (attempt crypto (some (timelinePolicy timeline))) .empty (node :: rest) =
      .error (next, error) := by
    rw [Retry.pass, failed]
  rw [replayWithPolicyTimeline, run_error (by simp) passed]

theorem withinCeiling_of_le (low : ∀ node ∈ order, node.lamport ≤ lamportSlack) :
    WithinCeiling order := by
  rintro front node back rfl
  refine (low node (by simp)).trans (le_min (Nat.le_add_left _ _) ?_)
  decide

/-- Both fail, or both succeed with the same map and hash. -/
def SameOutcome : Except SyncError ResolvedState → Except SyncError ResolvedState → Prop
  | .ok first, .ok second => first.map = second.map ∧ first.hash = second.hash
  | .error _, .error _ => True
  | _, _ => False

theorem sameOutcome_of_runs (ran : ReplayRun crypto timeline nodes last)
    (otherRan : ReplayRun crypto timeline others final) :
    SameOutcome (replayWithPolicyTimeline crypto nodes timeline)
        (replayWithPolicyTimeline crypto others timeline) ↔
      ∀ key, key ≠ e2eeKey → lwwResolve last.nodes.data key = lwwResolve final.nodes.data key := by
  rw [replay_ok_iff.mpr ⟨last, ran, rfl⟩, replay_ok_iff.mpr ⟨final, otherRan, rfl⟩]
  have sameMap : last.entries (fun key => key != e2eeKey) = final.entries (fun key => key != e2eeKey) ↔
      ∀ key, key ≠ e2eeKey → lwwResolve last.nodes.data key = lwwResolve final.nodes.data key := by
    rw [entries_eq_iff]
    refine forall_congr' fun key => ?_
    by_cases hidden : key = e2eeKey
    · simp [shown, hidden]
    · simp [shown, hidden, ran.intake.1.reached.resolve_eq, otherRan.intake.1.reached.resolve_eq]
  rw [← sameMap]
  exact ⟨And.left, fun same => ⟨same, congrArg (canonicalHash crypto) same⟩⟩

theorem oneTransaction_of_collisionFree (lawful : ∀ node ∈ nodes, Replayed crypto timeline node)
    (collisionFree : crypto.CollisionFree { tx | ∃ node ∈ nodes, node.transaction = tx }) :
    OneTransaction nodes := by
  intro first inNodes second member same
  refine collisionFree ⟨first, inNodes, rfl⟩ ⟨second, member, rfl⟩ ?_
  rw [(lawful first inNodes).hashed, (lawful second member).hashed, same]

theorem Replayable.perm (replayable : Replayable crypto timeline others)
    (perm : others.Perm nodes) : Replayable crypto timeline nodes := by
  obtain ⟨order, causal, within⟩ := replayable.ordered
  refine ⟨fun node member => replayable.lawful node (perm.mem_iff.mpr member), fun node member => ?_,
    order, ⟨causal.linked, fun node member => perm.mem_iff.mp (causal.inside node member),
      fun node member => causal.covers node (perm.mem_iff.mpr member)⟩, within⟩
  obtain ⟨copy, inside, found⟩ := replayable.signed node (perm.mem_iff.mpr member)
  exact ⟨copy, perm.mem_iff.mp inside, found⟩

/-- When every node is good on its own, every order of them replays. -/
theorem Replayable.runs_all (replayable : Replayable crypto timeline nodes)
    (one : OneTransaction nodes)
    (good : ∀ node ∈ nodes, node.lamport ≤ lamportSlack ∧ node.Genuine crypto) (perm : others.Perm nodes) :
    ∃ last, ReplayRun crypto timeline others last ∧ CausalOrder nodes last.nodes.data := by
  obtain ⟨order, causal, -⟩ := replayable.ordered
  obtain ⟨last, ran⟩ := (Intake.empty crypto (some (timelinePolicy timeline)) nodes).runs_all one
    causal.linked causal.inside causal.covers (fun node member => perm.mem_iff.mp member)
    (fun node member => .inr (perm.mem_iff.mpr member))
    fun node member => ⟨replayable.lawful node member, (good node member).2, (good node member).1⟩
  have order := ReplayRun.causal ran
  exact ⟨last, ran, order.linked, fun node member => perm.mem_iff.mp (order.inside node member),
    fun node member => order.covers node (perm.mem_iff.mpr member)⟩

theorem replay_fails (unreplayable : ¬ Replayable crypto timeline nodes) :
    ∃ error, replayWithPolicyTimeline crypto nodes timeline = .error error := by
  cases outcome : replayWithPolicyTimeline crypto nodes timeline with
  | error error => exact ⟨error, rfl⟩
  | ok state =>
    obtain ⟨last, ran, -⟩ := replay_ok_iff.mp outcome
    exact (unreplayable (ReplayRun.replayable ran)).elim

/-- Every order of the nodes replays to the same outcome. -/
def OrderIrrelevant (crypto : Crypto) (timeline : List PolicyTimelineEntry)
    (nodes : List SyncNode) : Prop :=
  ∀ others, others.Perm nodes → SameOutcome (replayWithPolicyTimeline crypto nodes timeline)
    (replayWithPolicyTimeline crypto others timeline)

theorem OrderIrrelevant.good (same : OrderIrrelevant crypto timeline nodes)
    (replayable : Replayable crypto timeline nodes) (one : OneTransaction nodes) :
    ∀ node ∈ nodes, node.lamport ≤ lamportSlack ∧ node.Genuine crypto := by
  intro node member
  by_contra bad
  obtain ⟨others, last, perm, ran⟩ := replayable.exists_run one
  obtain ⟨error, failed⟩ := @replay_refused crypto timeline node (nodes.erase node) bad
  have withFailed := same (node :: nodes.erase node) (perm_cons_erase member).symm
  have withRan := same others perm
  rw [failed] at withFailed
  rw [replay_ok_iff.mpr ⟨last, ran, rfl⟩] at withRan
  cases outcome : replayWithPolicyTimeline crypto nodes timeline with
  | ok state =>
    rw [outcome] at withFailed
    exact withFailed
  | error other =>
    rw [outcome] at withRan
    exact withRan

theorem OrderIrrelevant.ties (same : OrderIrrelevant crypto timeline nodes)
    (replayable : Replayable crypto timeline nodes) (one : OneTransaction nodes) : TiesAgree nodes := by
  have good := same.good replayable one
  obtain ⟨last, ran, causal⟩ := replayable.runs_all one good (List.Perm.refl nodes)
  have wins : ∀ key, key ≠ e2eeKey → ∀ node, Leads nodes key node →
      firstValue key node = lwwResolve last.nodes.data key := by
    intro key visible node leads
    obtain ⟨order, ordered, resolves⟩ := leads.exists_order one causal
    obtain ⟨others, final, perm, otherRan, data⟩ := ordered.exists_run one
      (withinCeiling_of_le fun other member => (good other (ordered.inside other member)).1)
      replayable.lawful fun other member => (good other (ordered.inside other member)).2
    have agree := (sameOutcome_of_runs ran otherRan).mp (same others perm) key visible
    rw [agree, data, resolves]
  intro key visible first second leadsFirst leadsSecond
  rw [wins key visible first leadsFirst, wins key visible second leadsSecond]

theorem TiesAgree.orderIrrelevant (ties : TiesAgree nodes)
    (replayable : Replayable crypto timeline nodes) (one : OneTransaction nodes)
    (good : ∀ node ∈ nodes, node.lamport ≤ lamportSlack ∧ node.Genuine crypto) :
    OrderIrrelevant crypto timeline nodes := by
  intro others perm
  obtain ⟨last, ran, causal⟩ := replayable.runs_all one good (List.Perm.refl nodes)
  obtain ⟨final, otherRan, otherCausal⟩ := replayable.runs_all one good perm
  refine (sameOutcome_of_runs ran otherRan).mpr fun key visible => ?_
  rcases causal.lwwResolve_cases one key with ⟨first, leadsFirst, wins⟩ | ⟨unwritten, empty⟩ <;>
    rcases otherCausal.lwwResolve_cases one key with ⟨second, leadsSecond, otherWins⟩ |
      ⟨otherUnwritten, otherEmpty⟩
  · rw [wins, otherWins, ties key visible first second leadsFirst leadsSecond]
  · exact (leadsFirst.writes (otherUnwritten first leadsFirst.member)).elim
  · exact (leadsSecond.writes (unwritten second leadsSecond.member)).elim
  · rw [empty, otherEmpty]

end

/-- The order of the nodes is irrelevant to replay exactly when no order of them
can be replayed, or every node is within the slack of an empty graph and signed
and nodes that may win under a key agree on its value. -/
theorem replay_order_irrelevant_iff (crypto : Crypto) (nodes : List SyncNode)
    (timeline : List PolicyTimelineEntry)
    (collisionFree : crypto.CollisionFree { tx | ∃ node ∈ nodes, node.transaction = tx }) :
    (∀ others, others.Perm nodes → SameOutcome (replayWithPolicyTimeline crypto nodes timeline)
        (replayWithPolicyTimeline crypto others timeline)) ↔
      ¬ Replayable crypto timeline nodes ∨
        (∀ node ∈ nodes, node.lamport ≤ lamportSlack ∧ node.Genuine crypto) ∧ TiesAgree nodes := by
  change OrderIrrelevant crypto timeline nodes ↔ _
  by_cases replayable : Replayable crypto timeline nodes
  · rw [or_iff_right (not_not_intro replayable)]
    have one := oneTransaction_of_collisionFree replayable.lawful collisionFree
    exact ⟨fun same => ⟨same.good replayable one, same.ties replayable one⟩,
      fun ⟨good, ties⟩ => ties.orderIrrelevant replayable one good⟩
  · refine iff_of_true (fun others perm => ?_) (.inl replayable)
    obtain ⟨error, failed⟩ := replay_fails replayable
    obtain ⟨otherError, otherFailed⟩ := replay_fails fun other => replayable (other.perm perm)
    rw [failed, otherFailed]
    trivial

/-- A node at the limit of what an empty graph takes. -/
def nearNode : SyncNode :=
  .newSigned Crypto.sample ⟨.padTo 32 [1], lamportSlack, 0, [.map (.set "a" [1])], []⟩
    (Crypto.sampleKey 1)

/-- A node that an empty graph refuses. -/
def farNode : SyncNode :=
  .newSigned Crypto.sample ⟨.padTo 32 [1], lamportSlack + 1, 0, [.map (.set "b" [2])], []⟩
    (Crypto.sampleKey 1)

theorem eq_key_of_mapWrites {op : MapOp}
    (only : node.transaction.ops = [.map op]) (writes : mapWrites key node ≠ []) : key = op.key := by
  obtain ⟨write, member⟩ := exists_mem_of_ne_nil _ writes
  obtain ⟨other, inOps, rfl⟩ := mapWrites_op member
  rw [only] at inOps
  rw [Op.map.inj (mem_singleton.mp inOps)]

theorem separate_keys_replay_alike :
    SameOutcome (replayWithPolicyTimeline Crypto.sample [sampleNode, nearNode] [])
      (replayWithPolicyTimeline Crypto.sample [nearNode, sampleNode] []) := by
  have good : ∀ node ∈ [sampleNode, nearNode],
      node.lamport ≤ lamportSlack ∧ node.Genuine Crypto.sample := by decide
  have ties : TiesAgree [sampleNode, nearNode] := by
    intro key _ first second leadsFirst leadsSecond
    have keyOf : ∀ node, Leads [sampleNode, nearNode] key node →
        node = sampleNode ∧ key = "k" ∨ node = nearNode ∧ key = "a" := by
      intro node leads
      have member := leads.member
      simp only [mem_cons, not_mem_nil, or_false] at member
      rcases member with rfl | rfl
      · exact .inl ⟨rfl, @eq_key_of_mapWrites _ _ (.set "k" [7]) rfl leads.writes⟩
      · exact .inr ⟨rfl, @eq_key_of_mapWrites _ _ (.set "a" [1]) rfl leads.writes⟩
    rcases keyOf first leadsFirst with ⟨rfl, rfl⟩ | ⟨rfl, rfl⟩ <;>
      rcases keyOf second leadsSecond with ⟨rfl, same⟩ | ⟨rfl, same⟩
    · rfl
    · exact absurd same (by decide)
    · exact absurd same (by decide)
    · rfl
  exact (replay_order_irrelevant_iff Crypto.sample [sampleNode, nearNode] []
    (Crypto.sample.collisionFree_of_nodes (by decide))).mpr (.inr ⟨good, ties⟩) _ (.swap _ _ _)

/-- The clock of the nearer node has to arrive first. -/
theorem farther_node_first_fails :
    [farNode, nearNode].Perm [nearNode, farNode] ∧
      ¬ SameOutcome (replayWithPolicyTimeline Crypto.sample [nearNode, farNode] [])
        (replayWithPolicyTimeline Crypto.sample [farNode, nearNode] []) := by
  refine ⟨.swap _ _ _, ?_⟩
  have checked : ((replayWithPolicyTimeline Crypto.sample [nearNode, farNode] []).toOption.isSome ∧
      (replayWithPolicyTimeline Crypto.sample [farNode, nearNode] []).toOption.isNone) := by
    decide +kernel
  cases first : replayWithPolicyTimeline Crypto.sample [nearNode, farNode] [] <;>
    cases second : replayWithPolicyTimeline Crypto.sample [farNode, nearNode] [] <;>
    simp_all [Except.toOption, SameOutcome]

end NodalMerge
