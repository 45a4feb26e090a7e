import NodalMerge.Library.Machine
import NodalMerge.Server.Hydration

/-! The bound of the channel is left out: every receiver takes everything. -/

namespace NodalMerge

open Function LinkedLog List Machine MemoryNodeStore Option StateGraph

/-- The envelope names the key of its sender; two sessions may have the same key. -/
structure RelayPack where
  sender : String
  session : Nat
  nodes : List SyncNode

def RelayPack.ids (pack : RelayPack) : List NodeId := pack.nodes.map SyncNode.id

/-- A session passes over every pack under its own key, also one that it has not sent. -/
def RelayPack.Reaches (receiver : Nat) (key : String) (pack : RelayPack) : Prop :=
  pack.sender ≠ key ∨ pack.session = receiver

structure Subscriber where
  pubkeyHex : String
  /-- How many packs were on the channel when it subscribed. -/
  since : Nat
  /-- The ids that the server held at the handshake. -/
  snapshot : Option (List NodeId)
  /-- What its last import accepted, until that is broadcast. -/
  accepted : List NodeId
  deriving DecidableEq

structure Relay where
  graph : StateGraph
  channel : List RelayPack
  sessions : Nat → Option Subscriber

inductive RelayAction where
  | subscribe (session : Nat) (pubkeyHex : String)
  | handshake (session : Nat)
  | importNodes (session nowMs : Nat) (nodes : List SyncNode)
  | broadcast (session : Nat)

namespace Relay

/-- A room before anyone has joined. -/
def start (graph : StateGraph) : Relay := ⟨graph, [], fun _ => none⟩

def setSession (state : Relay) (session : Nat) (member : Subscriber) : Relay :=
  { state with sessions := update state.sessions session (some member) }

/-- `get_nodes` of the accepted ids. -/
def pack (state : Relay) (session : Nat) (member : Subscriber) : RelayPack :=
  ⟨member.pubkeyHex, session, member.accepted.filterMap state.graph.nodes.get⟩

/-- One step of one session. Nothing is broadcast of an import that accepts nothing. -/
def perform (crypto : Crypto) (state : Relay) : RelayAction → Option Relay
  | .subscribe session pubkeyHex =>
    match state.sessions session with
    | some _ => none
    | none => some (state.setSession session ⟨pubkeyHex, state.channel.length, none, []⟩)
  | .handshake session =>
    match state.sessions session with
    | some ⟨pubkeyHex, since, none, accepted⟩ =>
      some (state.setSession session
        ⟨pubkeyHex, since, some (state.graph.nodes.data.map SyncNode.id), accepted⟩)
    | _ => none
  | .importNodes session nowMs nodes =>
    match state.sessions session with
    | some ⟨pubkeyHex, since, some snapshot, []⟩ =>
      let result := NodalMerge.importNodes crypto nowMs state.graph nodes
      some ({ state with graph := result.graph }.setSession session
        ⟨pubkeyHex, since, some snapshot, result.accepted⟩)
    | _ => none
  | .broadcast session =>
    match state.sessions session with
    | none => none
    | some member =>
      if member.accepted.isEmpty then none
      else some ({ state with channel := state.channel ++ [state.pack session member] }.setSession
        session { member with accepted := [] })

def Sent (state : Relay) (id : NodeId) : Prop := ∃ pack ∈ state.channel, id ∈ pack.ids

/-- The session has imported the node and not broadcast it yet. -/
def InHand (state : Relay) (session : Nat) (id : NodeId) : Prop :=
  ∃ member, state.sessions session = some member ∧ id ∈ member.accepted

structure Tracked (crypto : Crypto) (begun : StateGraph) (state : Relay) : Prop where
  reached : Reachable crypto (fun _ _ => True) state.graph
  grown : ∀ node ∈ begun.nodes.data, node ∈ state.graph.nodes.data
  accounted : ∀ node ∈ state.graph.nodes.data,
    begun.nodes.contains node.id = true ∨ state.Sent node.id ∨ ∃ session, state.InHand session node.id
  handed : ∀ session id, state.InHand session id → state.graph.nodes.contains id = true ∧
    ¬ state.Sent id ∧ ∀ other, state.InHand other id → other = session
  relayed : ∀ pack ∈ state.channel, ∀ node ∈ pack.nodes, node ∈ state.graph.nodes.data
  since : ∀ session member, state.sessions session = some member →
    member.since ≤ state.channel.length
  snapshots : ∀ session member snapshot, state.sessions session = some member →
    member.snapshot = some snapshot → (∀ node ∈ begun.nodes.data, node.id ∈ snapshot) ∧
      ∀ pack ∈ state.channel.take member.since, ∀ node ∈ pack.nodes,
        node.id ∈ snapshot ∧ ∀ parent ∈ node.parents, parent ∈ snapshot

section
variable {state next : Relay} {id : NodeId}

theorem inHand_setSession : (state.setSession session member).InHand other id ↔
    if other = session then id ∈ member.accepted else state.InHand other id := by
  unfold InHand setSession
  split
  · rename_i same
    subst same
    simp
  · rename_i differ
    simp [update_of_ne differ]

theorem sessions_setSession
    (lookup : (state.setSession session member).sessions other = some found) :
    found = member ∨ state.sessions other = some found := by
  by_cases same : other = session
  · subst same
    have here := update_self other (some member) state.sessions
    exact .inl (Option.some.inj (here.symm.trans lookup)).symm
  · have elsewhere := update_of_ne same (some member) state.sessions
    exact .inr (elsewhere.symm.trans lookup)

/-- What is broadcast is exactly what was accepted. -/
theorem ids_pack (stored : ∀ id ∈ member.accepted, state.graph.nodes.contains id = true) :
    (state.pack session member).ids = member.accepted := by
  have found (id : NodeId) (here : id ∈ member.accepted) :
      (state.graph.nodes.get id).map SyncNode.id = some id := by
    cases lookup : state.graph.nodes.get id with
    | none =>
      obtain ⟨node, inData, rfl⟩ := mem_map.mp (contains_iff.mp (stored id here))
      have absent := List.find?_eq_none.mp lookup node inData
      simp at absent
    | some node =>
      have same := List.find?_some lookup
      exact congrArg some (of_decide_eq_true same)
  rw [RelayPack.ids, pack, map_filterMap, filterMap_congr found, filterMap_some]

theorem importNodes_accepted {graph : StateGraph} (nowMs : Nat) (nodes : List SyncNode)
    (reached : Reachable crypto (fun _ _ => True) graph) :
    (NodalMerge.importNodes crypto nowMs graph nodes).accepted =
      (importedNodes crypto nowMs graph nodes).map SyncNode.id := by
  obtain ⟨added, data, accepted⟩ := importPasses_data crypto (some nowMs) graph nodes
  have same : graph.nodes.data ++ added =
      graph.nodes.data ++ importedNodes crypto nowMs graph nodes :=
    data.symm.trans (importNodes_data nowMs nodes reached)
  rw [← append_cancel_left same]
  exact accepted

/-- An import accepts no id again. -/
theorem importNodes_fresh {graph : StateGraph} (nowMs : Nat) (nodes : List SyncNode)
    (reached : Reachable crypto (fun _ _ => True) graph)
    (new : id ∈ (NodalMerge.importNodes crypto nowMs graph nodes).accepted) :
    graph.nodes.contains id = false := by
  have nodup : ((NodalMerge.importNodes crypto nowMs graph nodes).graph.nodes.data.map
      SyncNode.id).Nodup := (importNodes_reachable nowMs nodes reached).dag.linked.nodup
  rw [importNodes_data nowMs nodes reached, map_append, nodup_append,
    ← importNodes_accepted nowMs nodes reached] at nodup
  exact contains_eq_false.mpr fun old => nodup.2.2 id old id new rfl

theorem Tracked.sent_stored (tracked : Tracked crypto begun state) (sent : state.Sent id) :
    state.graph.nodes.contains id = true := by
  obtain ⟨pack, member, here⟩ := sent
  obtain ⟨node, inPack, rfl⟩ := mem_map.mp here
  exact contains_iff.mpr
    (mem_map_of_mem (tracked.relayed pack member node inPack))

theorem Tracked.start (reached : Reachable crypto (fun _ _ => True) begun) :
    Tracked crypto begun (start begun) where
  reached := reached
  grown _ member := member
  accounted _ member := .inl (contains_iff.mpr (mem_map_of_mem member))
  handed _ _ inHand := by simp [InHand, Relay.start] at inHand
  relayed _ member := by simp [Relay.start] at member
  since _ _ found := by simp [Relay.start] at found
  snapshots _ _ _ found := by simp [Relay.start] at found

variable {held : List NodeId}

section
variable (tracked : Tracked crypto begun state)
include tracked

/-- A session that keeps what it has in hand may change otherwise. -/
theorem Tracked.rejoin (same : ∀ id, id ∈ member.accepted ↔ state.InHand session id)
    (since : member.since ≤ state.channel.length)
    (snapshots : ∀ snapshot, member.snapshot = some snapshot →
      (∀ node ∈ begun.nodes.data, node.id ∈ snapshot) ∧
        ∀ pack ∈ state.channel.take member.since, ∀ node ∈ pack.nodes,
          node.id ∈ snapshot ∧ ∀ parent ∈ node.parents, parent ∈ snapshot) :
    Tracked crypto begun (state.setSession session member) := by
  have hands (other : Nat) (id : NodeId) : (state.setSession session member).InHand other id ↔
      state.InHand other id := by
    rw [inHand_setSession]
    split
    · rename_i here
      rw [here, same]
    · rfl
  refine ⟨tracked.reached, tracked.grown, fun node stored => ?_, fun holder id inHand => ?_,
    tracked.relayed, fun other found lookup => ?_, fun other found snapshot lookup taken => ?_⟩
  · refine (tracked.accounted node stored).imp_right (Or.imp_right ?_)
    exact Exists.imp fun holder => (hands holder node.id).mpr
  · obtain ⟨stored, unsent, alone⟩ := tracked.handed holder id ((hands holder id).mp inHand)
    exact ⟨stored, unsent, fun other held => alone other ((hands other id).mp held)⟩
  · rcases sessions_setSession lookup with rfl | before
    · exact since
    · exact tracked.since other found before
  · rcases sessions_setSession lookup with rfl | before
    · exact snapshots snapshot taken
    · exact tracked.snapshots other found snapshot before taken

/-- What the server holds at a handshake covers all that was sent before. -/
theorem Tracked.covers {packs : List RelayPack} (sent : ∀ pack ∈ packs, pack ∈ state.channel) :
    (∀ node ∈ begun.nodes.data, node.id ∈ state.graph.nodes.data.map SyncNode.id) ∧
      ∀ pack ∈ packs, ∀ node ∈ pack.nodes, node.id ∈ state.graph.nodes.data.map SyncNode.id ∧
        ∀ parent ∈ node.parents, parent ∈ state.graph.nodes.data.map SyncNode.id := by
  refine ⟨fun node held => mem_map_of_mem (tracked.grown node held), ?_⟩
  intro pack member node inPack
  have stored := tracked.relayed pack (sent pack member) node inPack
  exact ⟨mem_map_of_mem stored, fun parent edge =>
    tracked.reached.dag.linked.closed stored edge⟩

theorem Tracked.imports (nowMs : Nat) (nodes : List SyncNode)
    (found : state.sessions session = some member) (free : member.accepted = []) :
    let result := NodalMerge.importNodes crypto nowMs state.graph nodes
    Tracked crypto begun ({ state with graph := result.graph }.setSession session
      { member with accepted := result.accepted }) := by
  intro result
  have data : result.graph.nodes.data =
      state.graph.nodes.data ++ importedNodes crypto nowMs state.graph nodes :=
    importNodes_data nowMs nodes tracked.reached
  have accepted : result.accepted = (importedNodes crypto nowMs state.graph nodes).map SyncNode.id :=
    importNodes_accepted nowMs nodes tracked.reached
  have reached := importNodes_reachable nowMs nodes tracked.reached
  have grows (node : SyncNode) (old : node ∈ state.graph.nodes.data) :
      node ∈ result.graph.nodes.data := data ▸ mem_append_left _ old
  have fresh : ∀ id ∈ result.accepted, state.graph.nodes.contains id = false :=
    fun id => importNodes_fresh nowMs nodes tracked.reached
  have empty (id : NodeId) : ¬ state.InHand session id := by
    rintro ⟨holder, lookup, held⟩
    obtain rfl := Option.some.inj (found.symm.trans lookup)
    rw [free] at held
    cases held
  refine ⟨reached, fun node held => grows node (tracked.grown node held), ?_, ?_, ?_, ?_, ?_⟩
  · intro node stored
    rcases mem_append.mp (data ▸ stored : node ∈ _ ++ _) with old | new
    · refine (tracked.accounted node old).imp_right (Or.imp_right ?_)
      rintro ⟨holder, held⟩
      have other : holder ≠ session := fun same => empty node.id (same ▸ held)
      exact ⟨holder, inHand_setSession.mpr (by rw [if_neg other]; exact held)⟩
    · refine .inr (.inr ⟨session, inHand_setSession.mpr ?_⟩)
      rw [if_pos rfl, accepted]
      exact mem_map_of_mem new
  · intro holder id inHand
    have held := inHand_setSession.mp inHand
    have elsewhere {other : Nat} (differ : other ≠ session)
        (has : (({ state with graph := result.graph } : Relay).setSession session
          { member with accepted := result.accepted }).InHand other id) : state.InHand other id := by
      have has := inHand_setSession.mp has
      rw [if_neg differ] at has
      exact has
    split at held
    · rename_i here
      subst here
      refine ⟨?_, fun sent => ?_, fun other has => ?_⟩
      · rw [accepted] at held
        obtain ⟨node, new, rfl⟩ := mem_map.mp held
        exact contains_iff.mpr
          (mem_map_of_mem (data ▸ mem_append_right _ new))
      · exact absurd (tracked.sent_stored sent) (by simp [fresh id held])
      · by_contra differ
        exact absurd (tracked.handed other id (elsewhere differ has)).1 (by simp [fresh id held])
    · rename_i differ
      obtain ⟨stored, unsent, alone⟩ := tracked.handed holder id held
      refine ⟨?_, unsent, fun other has => ?_⟩
      · obtain ⟨node, old, rfl⟩ := mem_map.mp (contains_iff.mp stored)
        exact contains_iff.mpr (mem_map_of_mem (grows node old))
      · by_cases here : other = session
        · have new := inHand_setSession.mp has
          rw [if_pos here] at new
          exact absurd stored (by simp [fresh id new])
        · exact alone other (elsewhere here has)
  · exact fun pack member node inPack => grows node (tracked.relayed pack member node inPack)
  · intro other holder lookup
    rcases sessions_setSession lookup with rfl | before
    · exact tracked.since session member found
    · exact tracked.since other holder before
  · intro other holder snapshot lookup taken
    rcases sessions_setSession lookup with rfl | before
    · exact tracked.snapshots session member snapshot found taken
    · exact tracked.snapshots other holder snapshot before taken

theorem Tracked.sends (found : state.sessions session = some member) :
    Tracked crypto begun ({ state with
      channel := state.channel ++ [state.pack session member] }.setSession
      session { member with accepted := [] }) := by
  have hands (other : Nat) (id : NodeId) : (({ state with
      channel := state.channel ++ [state.pack session member] } : Relay).setSession session
        { member with accepted := [] }).InHand other id ↔
          other ≠ session ∧ state.InHand other id := by
    rw [inHand_setSession]
    split
    · rename_i here
      simp [here]
    · rename_i differ
      exact (and_iff_right differ).symm
  have ids : (state.pack session member).ids = member.accepted :=
    ids_pack fun id held => (tracked.handed session id ⟨member, found, held⟩).1
  have sends (id : NodeId) :
      (∃ pack ∈ state.channel ++ [state.pack session member], id ∈ pack.ids) ↔
        state.Sent id ∨ id ∈ member.accepted := by
    simp only [mem_append, mem_singleton, or_and_right, exists_or, exists_eq_left, ids]
    rfl
  refine ⟨tracked.reached, tracked.grown, ?_, ?_, ?_, ?_, ?_⟩
  · intro node stored
    rcases tracked.accounted node stored with old | sent | ⟨holder, held⟩
    · exact .inl old
    · exact .inr (.inl ((sends node.id).mpr (.inl sent)))
    · by_cases here : holder = session
      · subst here
        obtain ⟨same, lookup, has⟩ := held
        obtain rfl := Option.some.inj (found.symm.trans lookup)
        exact .inr (.inl ((sends node.id).mpr (.inr has)))
      · exact .inr (.inr ⟨holder, (hands holder node.id).mpr ⟨here, held⟩⟩)
  · intro holder id inHand
    obtain ⟨differ, held⟩ := (hands holder id).mp inHand
    obtain ⟨stored, unsent, alone⟩ := tracked.handed holder id held
    refine ⟨stored, fun sent => ?_, fun other has => alone other ((hands other id).mp has).2⟩
    rcases (sends id).mp sent with before | now
    · exact unsent before
    · exact differ (alone session ⟨member, found, now⟩).symm
  · intro pack inChannel node inPack
    rcases mem_append.mp inChannel with old | new
    · exact tracked.relayed pack old node inPack
    · obtain rfl := mem_singleton.mp new
      obtain ⟨id, -, lookup⟩ := mem_filterMap.mp inPack
      exact mem_of_find?_eq_some lookup
  · intro other holder lookup
    refine le_trans ?_ (length_append ▸ Nat.le_add_right _ _)
    rcases sessions_setSession lookup with rfl | before
    · exact tracked.since session member found
    · exact tracked.since other holder before
  · intro other holder snapshot lookup taken
    have early {since : Nat} (bounded : since ≤ state.channel.length) :
        (state.channel ++ [state.pack session member]).take since = state.channel.take since :=
      take_append_of_le_length bounded
    rcases sessions_setSession lookup with rfl | before
    · obtain ⟨held, sent⟩ := tracked.snapshots session member snapshot found taken
      refine ⟨held, fun pack inChannel => sent pack ?_⟩
      rw [← early (tracked.since session member found)]
      exact inChannel
    · obtain ⟨held, sent⟩ := tracked.snapshots other holder snapshot before taken
      refine ⟨held, fun pack inChannel => sent pack ?_⟩
      rw [← early (tracked.since other holder before)]
      exact inChannel

theorem Tracked.step (stepped : state.perform crypto action = some next) :
    Tracked crypto begun next := by
  cases action with
  | subscribe session pubkeyHex =>
    dsimp only [perform] at stepped
    split at stepped
    · cases stepped
    · rename_i absent
      cases stepped
      refine tracked.rejoin (fun id => ?_) le_rfl fun snapshot taken => ?_
      · simp [InHand, absent]
      · cases taken
  | handshake session =>
    dsimp only [perform] at stepped
    split at stepped
    · rename_i pubkeyHex since accepted found
      cases stepped
      have subscribed : since ≤ state.channel.length := tracked.since session _ found
      refine tracked.rejoin (fun id => ?_) subscribed fun snapshot taken => ?_
      · simp [InHand, found]
      · cases taken
        exact tracked.covers fun pack member => mem_of_mem_take member
    · cases stepped
  | importNodes session nowMs nodes =>
    dsimp only [perform] at stepped
    split at stepped
    · rename_i pubkeyHex since snapshot found
      cases stepped
      exact tracked.imports nowMs nodes found rfl
    · cases stepped
  | broadcast session =>
    dsimp only [perform] at stepped
    split at stepped
    · cases stepped
    · rename_i member found
      split at stepped
      · cases stepped
      · cases stepped
        exact tracked.sends found

end

/-- No id is on the channel twice, or twice in one hand. -/
def Once (state : Relay) : Prop :=
  (state.channel.flatMap RelayPack.ids).Nodup ∧
    ∀ session member, state.sessions session = some member → member.accepted.Nodup

theorem Once.step (once : state.Once) (tracked : Tracked crypto begun state)
    (stepped : state.perform crypto action = some next) : next.Once := by
  have rejoins {state : Relay} (once : state.Once) {session} {member : Subscriber}
      (distinct : member.accepted.Nodup) : (state.setSession session member).Once := by
    refine ⟨once.1, fun other found lookup => ?_⟩
    rcases sessions_setSession lookup with rfl | before
    · exact distinct
    · exact once.2 other found before
  cases action with
  | subscribe session pubkeyHex =>
    dsimp only [perform] at stepped
    split at stepped <;> cases stepped
    exact rejoins once nodup_nil
  | handshake session =>
    dsimp only [perform] at stepped
    split at stepped <;> cases stepped
    rename_i found
    have distinct := once.2 session _ found
    exact rejoins once distinct
  | importNodes session nowMs nodes =>
    dsimp only [perform] at stepped
    split at stepped <;> cases stepped
    refine @rejoins { state with graph := _ } once _ _ ?_
    have nodup := (importNodes_reachable nowMs nodes tracked.reached).dag.linked.nodup
    dsimp only
    rw [importNodes_accepted nowMs nodes tracked.reached]
    refine nodup.sublist ?_
    change _ <+ (NodalMerge.importNodes crypto nowMs state.graph nodes).graph.nodes.data.map _
    rw [importNodes_data nowMs nodes tracked.reached, map_append]
    exact sublist_append_right ..
  | broadcast session =>
    dsimp only [perform] at stepped
    split at stepped
    · cases stepped
    · rename_i member found
      split at stepped <;> cases stepped
      refine @rejoins { state with channel := state.channel ++ [state.pack session member] }
        ⟨?_, once.2⟩ _ _ nodup_nil
      have held (id : NodeId) (has : id ∈ member.accepted) :=
        tracked.handed session id ⟨member, found, has⟩
      rw [flatMap_append, flatMap_singleton, ids_pack fun id has => (held id has).1]
      refine once.1.append (once.2 session member found) fun id sent has => (held id has).2.1 ?_
      exact mem_flatMap.mp sent

/-- However the sessions interleave, every node that the room took in is relayed once: while
one session alone has it in hand it is not on the channel, and then it is there once. -/
theorem relayed_once (crypto : Crypto) (rows : List SyncNode) (actions : List RelayAction) :
    Always (perform crypto) (fun state => (state.channel.flatMap RelayPack.ids).Nodup ∧
        ∀ node ∈ state.graph.nodes.data,
          (hydrate crypto .empty rows).1.nodes.contains node.id = true ∨
            (state.Sent node.id ∧ ∀ session, ¬ state.InHand session node.id) ∨
            (¬ state.Sent node.id ∧ ∃! session, state.InHand session node.id))
      (start (hydrate crypto .empty rows).1) actions := by
  have reached : Reachable crypto (fun _ _ => True) (hydrate crypto .empty rows).1 :=
    (hydrate_grows (.empty : StateGraph) rows).reached .start
  generalize (hydrate crypto .empty rows).1 = begun at reached ⊢
  refine always_of_exec fun _ state ran => ?_
  obtain ⟨tracked, once⟩ :=
    exec_history (motive := fun _ state => Tracked crypto begun state ∧ state.Once)
      (fun _ _ _ _ _ stepped both => ⟨both.1.step stepped, both.2.step both.1 stepped⟩)
      ⟨.start reached, nodup_nil, by simp [start]⟩ ran
  refine ⟨once.1, fun node stored => ?_⟩
  refine (tracked.accounted node stored).imp_right fun where_ => ?_
  by_cases sent : state.Sent node.id
  · exact .inl ⟨sent, fun session has => (tracked.handed session _ has).2.1 sent⟩
  · obtain ⟨session, has⟩ := where_.resolve_left sent
    exact .inr ⟨sent, session, has, (tracked.handed session _ has).2.2⟩

/-- The parents of what a pack carries to the receiver are in it, in an earlier pack
that reached the receiver or came from it, or held already. -/
def InOrder (receiver : Nat) (key : String) (held : List NodeId) (channel : List RelayPack) :
    Prop :=
  ∀ earlier pack later, channel = earlier ++ pack :: later → pack.sender ≠ key →
    ∀ node ∈ pack.nodes, ∀ parent ∈ node.parents, parent ∈ pack.ids ∨
      (∃ before ∈ earlier, before.Reaches receiver key ∧ parent ∈ before.ids) ∨ parent ∈ held

/-- When a session broadcasts, no other session has a parent of its nodes in hand, and
the parents on the channel reached the receiver, unless they were held already. -/
def NothingHeldBack (receiver : Nat) (key : String) (held : List NodeId) (state : Relay) :
    RelayAction → Prop
  | .broadcast session => ∀ member, state.sessions session = some member →
      member.pubkeyHex ≠ key → ∀ node ∈ (state.pack session member).nodes,
        ∀ parent ∈ node.parents, parent ∉ held →
          (∀ other, state.InHand other parent → other = session) ∧
          (state.Sent parent → ∃ before ∈ state.channel, before.Reaches receiver key ∧
            parent ∈ before.ids)
  | _ => True

/-- One broadcast: its parents have reached the receiver unless someone still has them in
hand or they have been sent past it. -/
theorem Tracked.sends_in_order_iff (tracked : Tracked crypto begun state)
    (base : ∀ node ∈ begun.nodes.data, node.id ∈ held)
    (found : state.sessions session = some member)
    (inPack : node ∈ (state.pack session member).nodes) (edge : parent ∈ node.parents) :
    (parent ∈ (state.pack session member).ids ∨
        (∃ before ∈ state.channel, before.Reaches receiver key ∧ parent ∈ before.ids) ∨
        parent ∈ held) ↔
      (parent ∉ held → (∀ other, state.InHand other parent → other = session) ∧
        (state.Sent parent → ∃ before ∈ state.channel, before.Reaches receiver key ∧
          parent ∈ before.ids)) := by
  have ids : (state.pack session member).ids = member.accepted :=
    ids_pack fun id held => (tracked.handed session id ⟨member, found, held⟩).1
  obtain ⟨id, -, lookup⟩ := mem_filterMap.mp inPack
  have known := tracked.reached.dag.linked.closed (mem_of_find?_eq_some lookup) edge
  constructor
  · rintro (same | sent | already) missing
    · rw [ids] at same
      obtain ⟨-, unsent, alone⟩ := tracked.handed session parent ⟨member, found, same⟩
      exact ⟨alone, fun sent => absurd sent unsent⟩
    · refine ⟨fun other inHand => ?_, fun _ => sent⟩
      obtain ⟨before, inChannel, -, here⟩ := sent
      exact absurd ⟨before, inChannel, here⟩ (tracked.handed other parent inHand).2.1
    · exact absurd already missing
  · intro clear
    by_cases already : parent ∈ held
    · exact .inr (.inr already)
    obtain ⟨stored, inGraph, rfl⟩ := mem_map.mp known
    rcases tracked.accounted stored inGraph with begins | sent | ⟨holder, inHand⟩
    · obtain ⟨old, inBegun, same⟩ := mem_map.mp (contains_iff.mp begins)
      exact absurd (same ▸ base old inBegun) already
    · exact .inr (.inl ((clear already).2 sent))
    · obtain rfl := (clear already).1 holder inHand
      obtain ⟨same, lookup, has⟩ := inHand
      obtain rfl := Option.some.inj (found.symm.trans lookup)
      exact .inl (ids ▸ has)

/-- One step adds to the order only when it broadcasts. -/
theorem Tracked.inOrder_step_iff (tracked : Tracked crypto begun state)
    (base : ∀ node ∈ begun.nodes.data, node.id ∈ held)
    (stepped : state.perform crypto action = some next) :
    InOrder receiver key held next.channel ↔
      InOrder receiver key held state.channel ∧ state.NothingHeldBack receiver key held action := by
  have same (quiet : next.channel = state.channel)
      (silent : state.NothingHeldBack receiver key held action) :
      InOrder receiver key held next.channel ↔
        InOrder receiver key held state.channel ∧ state.NothingHeldBack receiver key held action := by
    rw [quiet]
    exact (and_iff_left silent).symm
  cases action <;> dsimp only [perform] at stepped
  case subscribe session pubkeyHex =>
    split at stepped
    · cases stepped
    · cases stepped
      exact same rfl trivial
  case handshake session =>
    split at stepped
    · cases stepped
      exact same rfl trivial
    · cases stepped
  case importNodes session nowMs nodes =>
    split at stepped
    · cases stepped
      exact same rfl trivial
    · cases stepped
  case broadcast session =>
    split at stepped
    · cases stepped
    · rename_i member found
      split at stepped
      · cases stepped
      · cases stepped
        refine forall_split_concat_iff.trans (and_congr_right fun _ => ?_)
        have one (other : Subscriber) (lookup : state.sessions session = some other) :=
          Option.some.inj (found.symm.trans lookup)
        constructor
        · intro sends other lookup foreign node inPack parent edge
          obtain rfl := one other lookup
          exact (tracked.sends_in_order_iff base found inPack edge).mp
            (sends foreign node inPack parent edge)
        · intro clear foreign node inPack parent edge
          exact (tracked.sends_in_order_iff base found inPack edge).mpr
            (clear member found foreign node inPack parent edge)

theorem tracked_of_run (reached : Reachable crypto (fun _ _ => True) begun)
    (ran : exec (perform crypto) (start begun) actions = some state) : Tracked crypto begun state :=
  exec_invariant (fun _ _ _ stepped tracked => Tracked.step tracked stepped) (.start reached) ran

/-- What was sent before a receiver subscribed needs no order: its handshake has it. -/
theorem Tracked.inOrder_drop_iff (tracked : Tracked crypto begun state)
    (found : state.sessions session = some member) (taken : member.snapshot = some snapshot)
    (receiver : Nat) (key : String) :
    InOrder receiver key snapshot (state.channel.drop member.since) ↔
      InOrder receiver key snapshot state.channel := by
  obtain ⟨-, sent⟩ := tracked.snapshots session member snapshot found taken
  have whole := take_append_drop member.since state.channel
  constructor
  · intro ordered earlier pack later split foreign node inPack parent edge
    rcases append_eq_append_iff.mp (whole.trans split) with
      ⟨rest, rfl, tail⟩ | ⟨rest, front, tail⟩
    · refine (ordered rest pack later tail foreign node inPack parent edge).imp_right ?_
      exact Or.imp_left fun ⟨before, member, here⟩ =>
        ⟨before, mem_append_right _ member, here⟩
    · cases rest with
      | nil =>
        have received := ordered [] pack later tail.symm foreign node inPack parent edge
        exact received.imp_right (Or.imp_left (by simp))
      | cons head rest =>
        obtain ⟨rfl, -⟩ := List.cons.inj tail
        have early : pack ∈ state.channel.take member.since := by
          rw [front]
          simp
        exact .inr (.inr ((sent pack early node inPack).2 parent edge))
  · intro ordered earlier pack later split foreign node inPack parent edge
    have placed : state.channel = state.channel.take member.since ++ earlier ++ pack :: later := by
      rw [append_assoc, ← split, whole]
    rcases ordered _ pack later placed foreign node inPack parent edge with
      same | ⟨before, inFront, reaches, here⟩ | held
    · exact .inl same
    · rcases mem_append.mp inFront with early | received
      · obtain ⟨other, inBefore, rfl⟩ := mem_map.mp here
        exact .inr (.inr (sent before early other inBefore).1)
      · exact .inr (.inl ⟨before, received, reaches, here⟩)
    · exact .inr (.inr held)

end

/-- For every receiver, the packs that reach it come in causal order exactly when,
along the run, no pack from another key is broadcast while a parent that the receiver's
handshake did not see is in hand of another session or has been sent past the receiver
by one with its key. -/
theorem causal_delivery_iff (crypto : Crypto) (begun : StateGraph)
    (reached : Reachable crypto (fun _ _ => True) begun) (actions : List RelayAction)
    (state : Relay) (receiver : Nat) (member : Subscriber) (snapshot : List NodeId)
    (ran : exec (perform crypto) (start begun) actions = some state)
    (joined : state.sessions receiver = some member) (taken : member.snapshot = some snapshot) :
    InOrder receiver member.pubkeyHex snapshot (state.channel.drop member.since) ↔
      Along (perform crypto) (NothingHeldBack receiver member.pubkeyHex snapshot) (start begun)
        actions := by
  have tracked := tracked_of_run reached ran
  obtain ⟨base, -⟩ := tracked.snapshots receiver member snapshot joined taken
  rw [tracked.inOrder_drop_iff joined taken]
  refine exec_history (motive := fun actions state =>
    InOrder receiver member.pubkeyHex snapshot state.channel ↔
    Along (perform crypto) (NothingHeldBack receiver member.pubkeyHex snapshot) (start begun)
      actions) ?_ ?_ ran
  · intro front middle action next before stepped ordered
    rw [along_concat_iff before, ← ordered,
      (tracked_of_run reached before).inOrder_step_iff base stepped]
  · refine iff_of_true (fun earlier pack later split => ?_) trivial
    simp [start] at split

/-- A receiver and an author join an empty room, the author writes, and a newcomer
learns the write from its handshake. -/
def writing : List RelayAction :=
  [.subscribe 0 "receiver", .handshake 0, .subscribe 1 "author", .handshake 1,
    .importNodes 1 0 [sampleNode], .subscribe 2 "newcomer", .handshake 2]

/-- The newcomer answers after the author has broadcast. -/
theorem prompt_broadcast_in_order : ∃ state, exec (perform Crypto.sample) (start .empty)
        (writing ++ [.broadcast 1] ++ [.importNodes 2 0 [replyNode]] ++ [.broadcast 2]) = some state ∧
      state.channel.map RelayPack.ids = [[sampleNode.id], [replyNode.id]] ∧
      ∃ member snapshot, state.sessions 0 = some member ∧ member.snapshot = some snapshot ∧
        InOrder 0 member.pubkeyHex snapshot (state.channel.drop member.since) := by
  have checked : ((exec (perform Crypto.sample) (start .empty) writing).any fun written =>
      ((written.sessions 1).any fun member => (written.pack 1 member).nodes = [sampleNode]) ∧
      (written.perform Crypto.sample (.broadcast 1)).any fun sent =>
      (sent.perform Crypto.sample (.importNodes 2 0 [replyNode])).any fun replied =>
      ((replied.sessions 2).any fun member => (replied.pack 2 member).nodes = [replyNode]) ∧
      (replied.channel.any fun pack => pack.sender = "author" ∧ sampleNode.id ∈ pack.ids) ∧
      (replied.perform Crypto.sample (.broadcast 2)).any fun state =>
        state.channel.map RelayPack.ids = [[sampleNode.id], [replyNode.id]] ∧
          state.sessions 0 = some ⟨"receiver", 0, some [], []⟩) = true := by
    decide +kernel
  simp only [Option.any_eq_true, List.any_eq_true, decide_eq_true_eq] at checked
  obtain ⟨written, wrote, ⟨author, isAuthor, first⟩, sent, sends, replied, replies,
    ⟨newcomer, isNewcomer, second⟩, ⟨pack, inChannel, sender, here⟩, state, broadcast, channel,
    receiver⟩ := checked
  have ranSent := exec_concat_iff.mpr ⟨_, wrote, sends⟩
  have ranReplied := exec_concat_iff.mpr ⟨_, ranSent, replies⟩
  have ran := exec_concat_iff.mpr ⟨_, ranReplied, broadcast⟩
  refine ⟨state, ran, channel, _, _, receiver, rfl, ?_⟩
  refine (causal_delivery_iff Crypto.sample .empty .start _ _ 0 _ _ ran receiver rfl).mpr ?_
  rw [along_concat_iff ranReplied, along_concat_iff ranSent, along_concat_iff wrote]
  refine ⟨⟨⟨along_of_forall (by simp [writing, NothingHeldBack]), ?_⟩, trivial⟩, ?_⟩
  · intro member found _ node inPack parent edge
    obtain rfl := Option.some.inj (isAuthor.symm.trans found)
    rw [first] at inPack
    obtain rfl := mem_singleton.mp inPack
    cases edge
  · intro member found _ node inPack parent edge _
    obtain rfl := Option.some.inj (isNewcomer.symm.trans found)
    rw [second] at inPack
    obtain rfl := mem_singleton.mp inPack
    obtain rfl : parent = sampleNode.id := mem_singleton.mp edge
    have foreign : pack.sender ≠ "receiver" := by
      rw [sender]
      decide
    refine ⟨fun other inHand => ?_, fun _ => ⟨pack, inChannel, .inl foreign, here⟩⟩
    exact absurd ⟨pack, inChannel, here⟩
      ((tracked_of_run .start ranReplied).handed other _ inHand).2.1

/-- The newcomer answers before the author has broadcast. -/
theorem reply_overtakes : ∃ state, exec (perform Crypto.sample) (start .empty)
        (writing ++ [.importNodes 2 0 [replyNode]] ++ [.broadcast 2]) = some state ∧
      ∃ member snapshot, state.sessions 0 = some member ∧ member.snapshot = some snapshot ∧
        ¬ InOrder 0 member.pubkeyHex snapshot (state.channel.drop member.since) := by
  have checked : ((exec (perform Crypto.sample) (start .empty)
      (writing ++ [.importNodes 2 0 [replyNode]] ++ [.broadcast 2])).any fun state =>
      state.sessions 0 = some ⟨"receiver", 0, some [], []⟩ ∧
      state.channel.map (fun pack => (pack.sender, pack.nodes)) = [("newcomer", [replyNode])]) =
        true := by
    decide +kernel
  obtain ⟨state, ran, shown⟩ := (any_eq_true _ _).mp checked
  obtain ⟨receiver, channel⟩ := of_decide_eq_true shown
  obtain ⟨pack, only, same⟩ := map_eq_singleton_iff.mp channel
  obtain ⟨sender, nodes⟩ := Prod.mk.inj same
  have foreign : pack.sender ≠ "receiver" := by
    rw [sender]
    decide
  refine ⟨state, ran, _, _, receiver, rfl, fun ordered => ?_⟩
  have received := ordered [] pack [] only foreign replyNode (by rw [nodes]; simp) sampleNode.id
    (mem_singleton_self _)
  rcases received with same | ⟨before, none, -⟩ | none
  · rw [RelayPack.ids, nodes] at same
    exact absurd same (by decide)
  · cases none
  · cases none

end Relay

end NodalMerge
