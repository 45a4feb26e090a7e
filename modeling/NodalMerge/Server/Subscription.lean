import NodalMerge.Server.Hydration
import NodalMerge.Server.ImportAgreement

/-! The wire format of a pack, metrics and the budget of a catch-up are left out. -/

namespace NodalMerge

open LinkedLog List MemoryNodeStore Retry StateGraph SyncStore

@[match_pattern] def slash : U8 := 47

@[match_pattern] def star : U8 := 42

/-- What follows each slash of a path. -/
def afterSlashes : List U8 → List (List U8)
  | [] => []
  | byte :: rest => if byte = slash then rest :: afterSlashes rest else afterSlashes rest

/-- What may follow a stretch without a slash. -/
def withinSegment : List U8 → List (List U8)
  | [] => [[]]
  | byte :: rest => (byte :: rest) :: if byte = slash then [] else withinSegment rest

/-- `**` stands for anything, `*` for anything without a slash; `/**` at the end
and `/**/` in the middle also stand for nothing at all. -/
def globMatch : List U8 → List U8 → Bool
  | [slash, star, star], path => path.isEmpty || path.head? = some slash
  | slash :: star :: star :: slash :: rest, path =>
    path.head? = some slash && (afterSlashes path).any (globMatch rest)
  | star :: star :: slash :: rest, path =>
    -- With nothing for `**/`, and then as any other `**`.
    globMatch rest path || path.tails.any (globMatch (slash :: rest))
  | [star, star], _ => true
  | star :: star :: rest, path => path.tails.any (globMatch rest)
  | star :: rest, path => (withinSegment path).any (globMatch rest)
  | [], path => path.isEmpty
  | _ :: _, [] => false
  | byte :: rest, head :: tail => byte = head && globMatch rest tail

example : globMatch (utf8 "a/**/c") (utf8 "a/b/c") = true := by decide

example : globMatch (utf8 "a/*/c") (utf8 "a/b/d/c") = false := by decide

/-- Compiled patterns; none of them means everything. -/
structure Subscription where
  matchers : List (List U8)

namespace Subscription

def everything : Subscription := ⟨[]⟩

def fromPatterns (patterns : List String) : Subscription :=
  if patterns.isEmpty || patterns.any (· = "**") then everything else ⟨patterns.map utf8⟩

def isMatch (matcher : List U8) (path : String) : Bool :=
  matcher = utf8 "**" || globMatch matcher (utf8 path)

variable (sub : Subscription)

def matchesEverything : Bool := sub.matchers.isEmpty

def matchesPath (path : String) : Bool :=
  sub.matchesEverything || sub.matchers.any (isMatch · path)

/-- A node without ops and one with an op in the system namespace always pass. -/
def acceptsNode (node : SyncNode) : Bool :=
  sub.matchesEverything || node.transaction.ops.isEmpty ||
    node.transaction.ops.any fun op => systemKey op.key || sub.matchesPath op.key

/-- Nothing is sent when no node is kept. -/
def filterPackForSubscriber (nodes : List SyncNode) : Option (List SyncNode) :=
  if sub.matchesEverything then some nodes
  else
    let kept := nodes.filter sub.acceptsNode
    if kept.isEmpty then none else some kept

/-- What a subscriber gets of the packs of a room. An empty pack is not relayed. -/
def sentPacks (packs : List (List SyncNode)) : List (List SyncNode) :=
  (packs.filter fun pack => !pack.isEmpty).filterMap sub.filterPackForSubscriber

/-- Every parent of a node that passes the filter passes it as well. -/
def Closed (graph : StateGraph) : Prop :=
  ∀ node ∈ graph.nodes.data, sub.acceptsNode node = true →
    ∀ parent ∈ graph.nodes.data, parent.id ∈ node.parents → sub.acceptsNode parent = true

end Subscription

/-- The graph after a series of imports, each with its time. -/
def importSeries (crypto : Crypto) (graph : StateGraph) (calls : List (Nat × List SyncNode)) :
    StateGraph :=
  calls.foldl (fun graph call => (importNodes crypto call.1 graph call.2).graph) graph

/-- The pack that each of the imports relays. -/
def relayPacks (crypto : Crypto) : StateGraph → List (Nat × List SyncNode) → List (List SyncNode)
  | _, [] => []
  | graph, (nowMs, nodes) :: rest =>
    importedNodes crypto nowMs graph nodes ::
      relayPacks crypto (importNodes crypto nowMs graph nodes).graph rest

namespace SyncStore

def receive (cipher : RoomCipher) (store : SyncStore crypto) (packs : List (List SyncNode)) :
    SyncStore crypto :=
  packs.foldl (fun store pack => (store.importPack cipher pack).1) store

/-- Every import stores all nodes of its pack. -/
def AdmitsAll (cipher : RoomCipher) : SyncStore crypto → List (List SyncNode) → Prop
  | _, [] => True
  | store, pack :: rest =>
    (∀ node ∈ pack, (store.importPack cipher pack).1.graph.nodes.contains node.id = true) ∧
      AdmitsAll cipher (store.importPack cipher pack).1 rest

end SyncStore

/-- The nodes that settle, pack by pack. -/
def arrived (known : List SyncNode) (packs : List (List SyncNode)) : List SyncNode :=
  packs.foldl settled known

/-- No pack has a node that is refused in its turn. -/
def PacksPass (crypto : Crypto) : List SyncNode → List (List SyncNode) → Prop
  | _, [] => True
  | known, pack :: rest =>
    PassesInTurn crypto known known pack ∧ PacksPass crypto (settled known pack) rest

section
variable {sub : Subscription} {server after client : StateGraph} {nodes added : List SyncNode}
  {graph : StateGraph}

theorem StateGraph.Intake.mono (intake : Intake crypto none .default nodes graph)
    (inside : ∀ node ∈ nodes, node ∈ more) :
    Intake crypto none .default more graph where
  reached := intake.reached
  steady := intake.steady
  clock := intake.clock
  source node member := inside node (intake.source node member)
  verified id known := by
    obtain ⟨copy, member, found⟩ := intake.verified id known
    exact ⟨copy, inside copy member, found⟩
  marked := intake.marked
  within := intake.within

theorem StateGraph.Intake.vetted (intake : Intake crypto none .default nodes graph)
    (stored : node ∈ graph.nodes.data) : Vetted crypto graph node := by
  have low := intake.reached.dag.clock node stored
  refine ⟨intake.reached.dag.hashed node stored, le_min (low.trans (Nat.le_add_right _ _)) ?_,
    .inl (intake.marked node stored)⟩
  exact low.trans intake.reached.dag.bounded

/-- The client holds just what the subscription lets through of the server's nodes. -/
structure Mirrors (crypto : Crypto) (sub : Subscription) (server client : StateGraph) : Prop where
  intake : Intake crypto none .default client.nodes.data client
  same : ∀ node, node ∈ client.nodes.data ↔
    node ∈ server.nodes.data ∧ sub.acceptsNode node = true

theorem Mirrors.empty (crypto : Crypto) (sub : Subscription) :
    Mirrors crypto sub .empty .empty where
  intake := .empty crypto none []
  same _ := iff_of_false not_mem_nil fun stored => not_mem_nil stored.1

section
variable (mirrors : Mirrors crypto sub server client)
include mirrors

theorem Mirrors.closed (reached : Reachable crypto (fun _ _ => True) server) :
    sub.Closed server := by
  intro node stored accepted parent parentStored edge
  have held := (mirrors.same node).mpr ⟨stored, accepted⟩
  obtain ⟨copy, copyHeld, sameId⟩ :=
    mem_map.mp (mirrors.intake.reached.dag.linked.closed held edge)
  obtain ⟨copyStored, copyAccepted⟩ := (mirrors.same copy).mp copyHeld
  rw [← inj_on_of_nodup_map reached.dag.linked.nodup copyStored parentStored sameId]
  exact copyAccepted

/-- What the client holds together with the pack it is sent. -/
theorem Mirrors.mem_append_iff (grows : (server.nodes.data ++ added).Perm after.nodes.data) :
    node ∈ client.nodes.data ++ added.filter sub.acceptsNode ↔
      node ∈ after.nodes.data ∧ sub.acceptsNode node = true := by
  rw [mem_append, mirrors.same, mem_filter, ← grows.mem_iff, mem_append,
    or_and_right]

theorem Mirrors.marked (id : NodeId) :
    id ∈ client.verifiedIds ↔ id ∈ client.nodes.data.map SyncNode.id := by
  constructor
  · intro known
    obtain ⟨copy, held, rfl, -⟩ := mirrors.intake.verified id known
    exact mem_map_of_mem held
  · intro held
    obtain ⟨copy, inClient, rfl⟩ := mem_map.mp held
    exact mirrors.intake.marked copy inClient

/-- When the import of a pack fails on no node. -/
theorem Mirrors.exists_runs_iff (pack : List SyncNode) :
    (∃ last still, Runs (attempt crypto none) client pack last still) ↔
      PassesInTurn crypto client.nodes.data client.nodes.data pack :=
  (NodalMerge.exists_runs_iff (mirrors.intake.steady rfl)).trans
    (exists_trace_iff (mirrors.intake.steady rfl) mirrors.intake.clock mirrors.marked)

/-- An import that fails does not store the node it fails on. -/
theorem Mirrors.runs_of_stored (reached : Reachable crypto (fun _ _ => True) after)
    (grows : (server.nodes.data ++ added).Perm after.nodes.data)
    (stored : ∀ node ∈ added.filter sub.acceptsNode,
      (importOneByOne crypto client (added.filter sub.acceptsNode)).nodes.contains node.id = true) :
    ∃ last still, Runs (attempt crypto none) client (added.filter sub.acceptsNode) last still := by
  cases ran : run (attempt crypto none) client (added.filter sub.acceptsNode) with
  | ok result => exact ⟨result.1, result.2, run_ok_iff.mp ran⟩
  | error failure =>
    obtain ⟨there, item, visits, failed⟩ := exists_visit_of_error ran
    have wide := mirrors.intake.mono fun node member =>
      mem_append_left (added.filter sub.acceptsNode) member
    have intake : Intake crypto none .default
        (client.nodes.data ++ added.filter sub.acceptsNode) there := by
      refine visits.invariant (fun here other next before visited proceeds => ?_) wide
      exact before.step (mem_append_right _ (by simpa using visited.mem)) proceeds
    have inPack : item ∈ added.filter sub.acceptsNode := by simpa using visits.mem
    have held := stored item inPack
    rw [importOneByOne, ran] at held
    simp only [finalState, attempt_failed_nodes failed] at held
    obtain ⟨copy, inThere, sameId⟩ := mem_map.mp (contains_iff.mp held)
    have copyStored := ((mirrors.mem_append_iff grows).mp (intake.source copy inThere)).1
    have itemStored := ((mirrors.mem_append_iff grows).mp (mem_append_right _ inPack)).1
    obtain rfl := inj_on_of_nodup_map reached.dag.linked.nodup copyStored itemStored sameId
    obtain ⟨next, proceeds, -⟩ := attempt_proceeds (intake.vetted inThere) (intake.steady rfl)
    rcases proceeds with done | later
    · cases failed.symm.trans done
    · cases failed.symm.trans later

end

theorem importOneByOne_of_runs (runs : Runs (attempt crypto none) graph nodes last still) :
    importOneByOne crypto graph nodes = last := by
  rw [importOneByOne, run_ok_iff.mpr runs]
  rfl

theorem contains_of_runs {id : NodeId} (runs : Runs (attempt crypto none) graph nodes last still)
    (held : id ∈ graph.nodes.data.map SyncNode.id) : last.nodes.contains id = true := by
  have kept : ∀ (state : StateGraph) other next, other ∈ nodes →
      state.nodes.contains id = true → (attempt crypto none state other).Proceeds next →
      next.nodes.contains id = true :=
    fun _ _ _ _ before proceeds => (attempt_effect proceeds).contains before
  exact runs.invariant kept (contains_iff.mpr held)

/-- A pack that the client stores as a whole. -/
theorem Mirrors.taken (mirrors : Mirrors crypto sub server client)
    (reached : Reachable crypto (fun _ _ => True) after)
    (grows : (server.nodes.data ++ added).Perm after.nodes.data)
    (stored : ∀ node ∈ added.filter sub.acceptsNode,
      (importOneByOne crypto client (added.filter sub.acceptsNode)).nodes.contains node.id = true) :
    PassesInTurn crypto client.nodes.data client.nodes.data (added.filter sub.acceptsNode) ∧
      Mirrors crypto sub after (importOneByOne crypto client (added.filter sub.acceptsNode)) ∧
      (importOneByOne crypto client (added.filter sub.acceptsNode)).nodes.data =
        settled client.nodes.data (added.filter sub.acceptsNode) := by
  obtain ⟨last, still, runs⟩ := mirrors.runs_of_stored reached grows stored
  rw [importOneByOne_of_runs runs] at stored ⊢
  refine ⟨(mirrors.exists_runs_iff _).mp ⟨last, still, runs⟩, ?_, data_eq_settled runs⟩
  have wide := mirrors.intake.mono fun node member =>
    mem_append_left (added.filter sub.acceptsNode) member
  have intake := (wide.runs (fun node member => mem_append_right _ member) runs).1
  have contained : ∀ node ∈ client.nodes.data ++ added.filter sub.acceptsNode,
      last.nodes.contains node.id = true := by
    intro node member
    rcases mem_append.mp member with held | inPack
    · exact contains_of_runs runs (mem_map_of_mem held)
    · exact stored node inPack
  have same (node : SyncNode) : node ∈ last.nodes.data ↔
      node ∈ after.nodes.data ∧ sub.acceptsNode node = true := by
    rw [← mirrors.mem_append_iff grows]
    refine ⟨intake.source node, fun member => ?_⟩
    obtain ⟨copy, inLast, sameId⟩ :=
      mem_map.mp (contains_iff.mp (contained node member))
    have copyStored := ((mirrors.mem_append_iff grows).mp (intake.source copy inLast)).1
    have nodeStored := ((mirrors.mem_append_iff grows).mp member).1
    rwa [← inj_on_of_nodup_map reached.dag.linked.nodup copyStored nodeStored sameId]
  refine ⟨intake.mono fun node member => ?_, same⟩
  exact (same node).mpr ((mirrors.mem_append_iff grows).mp member)

/-- A pack of which nothing is refused, and nothing lacks a parent. -/
theorem Mirrors.takes (mirrors : Mirrors crypto sub server client)
    (reached : Reachable crypto (fun _ _ => True) after)
    (grows : (server.nodes.data ++ added).Perm after.nodes.data) (closed : sub.Closed after)
    (passes : PassesInTurn crypto client.nodes.data client.nodes.data
      (added.filter sub.acceptsNode)) :
    ∀ node ∈ added.filter sub.acceptsNode,
      (importOneByOne crypto client (added.filter sub.acceptsNode)).nodes.contains node.id =
        true := by
  obtain ⟨last, still, runs⟩ := (mirrors.exists_runs_iff _).mpr passes
  rw [importOneByOne_of_runs runs]
  have each : ∀ node ∈ after.nodes.data, sub.acceptsNode node = true →
      last.nodes.contains node.id = true := by
    refine reached.dag.linked.forall_of_parents fun node stored below accepted => ?_
    have parents : ∀ parent ∈ node.parents, last.nodes.contains parent = true := by
      intro parent edge
      obtain ⟨other, otherStored, rfl⟩ := mem_map.mp (reached.dag.linked.closed stored edge)
      exact below other otherStored edge (closed node stored accepted other otherStored edge)
    rcases mem_append.mp ((mirrors.mem_append_iff grows).mpr ⟨stored, accepted⟩) with
      held | inPack
    · exact contains_of_runs runs (mem_map_of_mem held)
    · exact stored_of_runs runs inPack parents
  intro node inPack
  obtain ⟨stored, accepted⟩ := (mirrors.mem_append_iff grows).mp (mem_append_right _ inPack)
  exact each node stored accepted

/-- The packs in which a server sends the nodes by which its graph grows. -/
inductive Feed (crypto : Crypto) : StateGraph → List (List SyncNode) → StateGraph → Prop where
  | done {server : StateGraph} : Feed crypto server [] server
  | grows {server after final : StateGraph} {added : List SyncNode} {packs : List (List SyncNode)}
      (reached : Reachable crypto (fun _ _ => True) after)
      (data : (server.nodes.data ++ added).Perm after.nodes.data)
      (tail : Feed crypto after packs final) : Feed crypto server (added :: packs) final

theorem Feed.imports (reached : Reachable crypto (fun _ _ => True) graph)
    (calls : List (Nat × List SyncNode)) :
    Feed crypto graph (relayPacks crypto graph calls) (importSeries crypto graph calls) := by
  induction calls generalizing graph with
  | nil => exact .done
  | cons call rest ih =>
    have after := importNodes_reachable call.1 call.2 reached
    exact .grows after (.of_eq (importNodes_data call.1 call.2 reached).symm) (ih after)

theorem Feed.reachable (feed : Feed crypto server packs final)
    (reached : Reachable crypto (fun _ _ => True) server) :
    Reachable crypto (fun _ _ => True) final := by
  induction feed with
  | done => exact reached
  | grows after data tail ih => exact ih after

theorem Feed.subset (feed : Feed crypto server packs final) :
    ∀ node ∈ server.nodes.data, node ∈ final.nodes.data := by
  induction feed with
  | done => exact fun _ member => member
  | grows reached data tail ih =>
    exact fun node member => ih node (data.mem_iff.mp (mem_append_left _ member))

theorem Subscription.Closed.of_subset (closed : sub.Closed after)
    (inside : ∀ node ∈ server.nodes.data, node ∈ after.nodes.data) : sub.Closed server :=
  fun node stored accepted parent parentStored =>
    closed node (inside node stored) accepted parent (inside parent parentStored)

/-- A pack is sent as what the filter keeps of it, or not at all when that is nothing. -/
theorem read_sentPacks_cons {Result : Type} (read : List (List SyncNode) → Result)
    (passesOver : ∀ packs, read ([] :: packs) = read packs) (sub : Subscription)
    (pack : List SyncNode) (packs : List (List SyncNode)) :
    read (sub.sentPacks (pack :: packs)) =
      read (pack.filter sub.acceptsNode :: sub.sentPacks packs) := by
  cases pack with
  | nil => exact (passesOver _).symm
  | cons node rest =>
    have nonempty : (!(node :: rest).isEmpty) = true := rfl
    rw [Subscription.sentPacks, filter_cons, if_pos nonempty, filterMap_cons,
      Subscription.filterPackForSubscriber, ← Subscription.sentPacks]
    by_cases all : sub.matchesEverything = true
    · have keeps : (node :: rest).filter sub.acceptsNode = node :: rest := by
        refine filter_eq_self.mpr fun other _ => ?_
        rw [Subscription.acceptsNode, all, Bool.true_or, Bool.true_or]
      rw [if_pos all, keeps]
    · rw [if_neg all]
      cases kept : (node :: rest).filter sub.acceptsNode with
      | nil => exact (passesOver _).symm
      | cons first others => rfl

section
variable {store : SyncStore crypto} {pack : List SyncNode}

theorem admitsAll_sentPacks_cons : store.AdmitsAll cipher (sub.sentPacks (pack :: packs)) =
    store.AdmitsAll cipher (pack.filter sub.acceptsNode :: sub.sentPacks packs) := by
  refine read_sentPacks_cons _ (fun packs => ?_) ..
  rw [SyncStore.AdmitsAll, importPack_nil]
  simp

theorem packsPass_sentPacks_cons : PacksPass crypto known (sub.sentPacks (pack :: packs)) =
    PacksPass crypto known (pack.filter sub.acceptsNode :: sub.sentPacks packs) :=
  read_sentPacks_cons _ (fun _ => true_and _) ..

theorem receive_sentPacks_cons : store.receive cipher (sub.sentPacks (pack :: packs)) =
    store.receive cipher (pack.filter sub.acceptsNode :: sub.sentPacks packs) := by
  refine read_sentPacks_cons _ (fun packs => ?_) ..
  rw [SyncStore.receive, foldl_cons, importPack_nil]
  rfl

theorem arrived_sentPacks_cons : arrived known (sub.sentPacks (pack :: packs)) =
    arrived known (pack.filter sub.acceptsNode :: sub.sentPacks packs) :=
  read_sentPacks_cons _ (fun _ => rfl) ..

/-- The client stores all it is sent exactly when no node is refused in its turn
and the filter drops no parent of a node it keeps. -/
theorem Feed.admitsAll_iff (feed : Feed crypto server packs final)
    (reached : Reachable crypto (fun _ _ => True) server)
    (mirrors : Mirrors crypto sub server store.graph) (plain : store.roomKey = none) :
    store.AdmitsAll cipher (sub.sentPacks packs) ↔
      PacksPass crypto store.graph.nodes.data (sub.sentPacks packs) ∧ sub.Closed final := by
  induction feed generalizing store with
  | done => exact iff_of_true trivial ⟨trivial, mirrors.closed reached⟩
  | @grows server after final added packs afterReached data tail ih =>
    have graph := @importPack_graph crypto (added.filter sub.acceptsNode) cipher store plain
    have later := (importPack_roomKey cipher store
      (added.filter sub.acceptsNode)).trans plain
    rw [admitsAll_sentPacks_cons, packsPass_sentPacks_cons, SyncStore.AdmitsAll, PacksPass, graph]
    constructor
    · rintro ⟨stored, rest⟩
      obtain ⟨passes, next, settles⟩ := mirrors.taken afterReached data stored
      obtain ⟨restPasses, closed⟩ := (ih afterReached (graph ▸ next) later).mp rest
      rw [graph, settles] at restPasses
      exact ⟨⟨passes, restPasses⟩, closed⟩
    · rintro ⟨⟨passes, restPasses⟩, closed⟩
      have stored := mirrors.takes afterReached data (closed.of_subset tail.subset) passes
      obtain ⟨-, next, settles⟩ := mirrors.taken afterReached data stored
      refine ⟨stored, (ih afterReached (graph ▸ next) later).mpr ⟨?_, closed⟩⟩
      rw [graph, settles]
      exact restPasses

/-- What the client holds once it has stored all it was sent. -/
theorem Feed.received (feed : Feed crypto server packs final)
    (mirrors : Mirrors crypto sub server store.graph) (plain : store.roomKey = none)
    (admits : store.AdmitsAll cipher (sub.sentPacks packs)) :
    Mirrors crypto sub final (store.receive cipher (sub.sentPacks packs)).graph ∧
      (store.receive cipher (sub.sentPacks packs)).graph.nodes.data =
        arrived store.graph.nodes.data (sub.sentPacks packs) := by
  induction feed generalizing store with
  | done => exact ⟨mirrors, rfl⟩
  | @grows server after final added packs afterReached data tail ih =>
    have graph := @importPack_graph crypto (added.filter sub.acceptsNode) cipher store plain
    have later := (importPack_roomKey cipher store
      (added.filter sub.acceptsNode)).trans plain
    rw [admitsAll_sentPacks_cons] at admits
    obtain ⟨stored, rest⟩ := admits
    rw [graph] at stored
    obtain ⟨-, next, settles⟩ := mirrors.taken afterReached data stored
    have received := ih (graph ▸ next) later rest
    rw [graph, settles] at received
    rwa [receive_sentPacks_cons, arrived_sentPacks_cons]

end

/-- A node that writes a subscribed key passes the filter. -/
theorem acceptsNode_of_mapWrites (subscribed : sub.matchesPath key = true)
    (writes : mapWrites key node ≠ []) : sub.acceptsNode node = true := by
  obtain ⟨write, member⟩ := exists_mem_of_ne_nil _ writes
  obtain ⟨op, inOps, rfl⟩ := mapWrites_op member
  have found : (node.transaction.ops.any fun op => systemKey op.key || sub.matchesPath op.key) =
      true := any_eq_true.mpr ⟨.map op, inOps, Bool.or_eq_true_iff.mpr (.inr subscribed)⟩
  rw [Subscription.acceptsNode, found, Bool.or_true]

/-- The nodes that pass the filter resolve a subscribed key like all nodes do when
the first of the best writes have the same value in both orders. -/
theorem lwwResolve_eq_iff {all : List SyncNode} (subscribed : sub.matchesPath key = true)
    (same : ∀ node, node ∈ kept ↔ node ∈ all ∧ sub.acceptsNode node = true) :
    lwwResolve kept key = lwwResolve all key ↔
      ∀ first second, Wins kept key first → Wins all key second →
        firstValue key first = firstValue key second := by
  constructor
  · intro agree first second winsKept winsAll
    rw [← winsKept.lwwResolve_eq, agree, winsAll.lwwResolve_eq]
  · intro ties
    rcases wins_or_unwritten kept key with ⟨first, winsKept⟩ | ⟨unwritten, empty⟩ <;>
      rcases wins_or_unwritten all key with ⟨second, winsAll⟩ | ⟨allUnwritten, allEmpty⟩
    · rw [winsKept.lwwResolve_eq, winsAll.lwwResolve_eq, ties first second winsKept winsAll]
    · have stored := ((same first).mp winsKept.mem).1
      exact (winsKept.writes (allUnwritten first stored)).elim
    · have accepted := acceptsNode_of_mapWrites subscribed winsAll.writes
      have held := (same second).mpr ⟨winsAll.mem, accepted⟩
      exact (winsAll.writes (unwritten second held)).elim
    · rw [empty, allEmpty]

end

/-- A client that starts empty stores all it is sent under its subscription, and
agrees with the server on the subscribed keys, exactly when the filter drops no
parent of a node it keeps, no node is refused in its turn, and the first of the
best writes of a subscribed key have the same value in the order of arrival as
in the order of the server. -/
theorem scoped_subscriber_converges_iff (crypto : Crypto) (cipher : RoomCipher)
    (signingKey : crypto.SigningKey) (patterns : List String) (graph : StateGraph)
    (reached : Reachable crypto (fun _ _ => True) graph) (catchup : List SyncNode)
    (listed : catchup.Perm graph.nodes.data) (calls : List (Nat × List SyncNode)) :
    let sub := Subscription.fromPatterns patterns
    let sent := sub.sentPacks (catchup :: relayPacks crypto graph calls)
    let server := importSeries crypto graph calls
    ((SyncStore.new signingKey).AdmitsAll cipher sent ∧
        ∀ key, sub.matchesPath key = true →
          ((SyncStore.new signingKey).receive cipher sent).graph.resolve key = server.resolve key) ↔
      sub.Closed server ∧ PacksPass crypto [] sent ∧
        ∀ key, sub.matchesPath key = true → ∀ first second, Wins (arrived [] sent) key first →
          Wins server.nodes.data key second → firstValue key first = firstValue key second := by
  intro sub sent server
  have feed : Feed crypto .empty (catchup :: relayPacks crypto graph calls) server :=
    .grows reached listed (.imports reached calls)
  have mirrors : Mirrors crypto sub .empty (SyncStore.new signingKey).graph := .empty crypto sub
  have admits : (SyncStore.new signingKey).AdmitsAll cipher sent ↔
      PacksPass crypto [] sent ∧ sub.Closed server := feed.admitsAll_iff .start mirrors rfl
  have agrees (admitted : (SyncStore.new signingKey).AdmitsAll cipher sent) (key : String)
      (subscribed : sub.matchesPath key = true) :
      ((SyncStore.new signingKey).receive cipher sent).graph.resolve key = server.resolve key ↔
        ∀ first second, Wins (arrived [] sent) key first → Wins server.nodes.data key second →
          firstValue key first = firstValue key second := by
    obtain ⟨final, data⟩ := feed.received mirrors rfl admitted
    rw [final.intake.reached.resolve_eq, (feed.reachable .start).resolve_eq,
      lwwResolve_eq_iff subscribed final.same, data]
    rfl
  constructor
  · rintro ⟨admitted, same⟩
    obtain ⟨passes, closed⟩ := admits.mp admitted
    exact ⟨closed, passes, fun key subscribed =>
      (agrees admitted key subscribed).mp (same key subscribed)⟩
  · rintro ⟨closed, passes, ties⟩
    have admitted := admits.mpr ⟨passes, closed⟩
    exact ⟨admitted, fun key subscribed =>
      (agrees admitted key subscribed).mpr (ties key subscribed)⟩

/-- A write under another key, on top of the first one. -/
def childNode : SyncNode :=
  .newSigned Crypto.sample ⟨.padTo 32 [1], 2, 0, [.map (.set "a" [8])], [sampleNode.id]⟩
    (Crypto.sampleKey 1)

theorem relayPacks_childNode :
    relayPacks Crypto.sample sampleReader [(0, [childNode])] = [[childNode]] := by
  decide +kernel

theorem importSeries_childNode :
    (importSeries Crypto.sample sampleReader [(0, [childNode])]).nodes.data =
      [sampleNode, childNode] := by
  decide +kernel

theorem one_segment_subscriber_converges :
    let sub := Subscription.fromPatterns ["*"]
    let sent := sub.sentPacks
      ([sampleNode] :: relayPacks Crypto.sample sampleReader [(0, [childNode])])
    sent = [[sampleNode], [childNode]] ∧
      freshClient.AdmitsAll RoomCipher.sample sent ∧
      ∀ key, sub.matchesPath key = true →
        (freshClient.receive RoomCipher.sample sent).graph.resolve key =
          (importSeries Crypto.sample sampleReader [(0, [childNode])]).resolve key := by
  intro sub sent
  have packs : sent = [[sampleNode], [childNode]] := by
    simp only [sent, relayPacks_childNode]
    decide
  have order : arrived [] sent = [sampleNode, childNode] := by
    rw [packs]
    decide
  refine ⟨packs, (scoped_subscriber_converges_iff Crypto.sample RoomCipher.sample
    (Crypto.sampleKey 1) ["*"] sampleReader sampleReader_reachable [sampleNode] (.refl _)
    [(0, [childNode])]).mpr ⟨?_, ?_, ?_⟩⟩
  · intro node stored accepted parent parentStored _
    rw [importSeries_childNode] at parentStored
    have all : ∀ node ∈ [sampleNode, childNode], sub.acceptsNode node = true := by decide
    exact all parent parentStored
  · change PacksPass Crypto.sample [] sent
    rw [packs]
    exact ⟨⟨rfl, by decide, .inr (by decide), trivial⟩,
      ⟨rfl, by decide, .inr (by decide), trivial⟩, trivial⟩
  · intro key _ first second arrives wins
    rw [← wins.lwwResolve_eq, importSeries_childNode, ← order]
    exact arrives.lwwResolve_eq.symm

/-- The filter drops the parent of the only node that it sends. -/
theorem dropped_parent_blocks_subscriber :
    let sub := Subscription.fromPatterns ["a"]
    let sent := sub.sentPacks
      ([sampleNode] :: relayPacks Crypto.sample sampleReader [(0, [childNode])])
    Reachable Crypto.sample (fun _ _ => True) sampleReader ∧
      sampleReader.nodes.data = [sampleNode] ∧ sent = [[childNode]] ∧
      sub.matchesPath "a" = true ∧
      (importSeries Crypto.sample sampleReader [(0, [childNode])]).resolve "a" = some [8] ∧
      (freshClient.receive RoomCipher.sample sent).graph.nodes.contains childNode.id = false ∧
      (freshClient.receive RoomCipher.sample sent).graph.resolve "a" = none := by
  intro sub sent
  have packs : sent = [[childNode]] := by
    simp only [sent, relayPacks_childNode]
    decide
  refine ⟨sampleReader_reachable, rfl, packs, by decide, by decide +kernel, ?_⟩
  exact ⟨by decide +kernel, by decide +kernel⟩

end NodalMerge
