import NodalMerge.Crdt.Intention

namespace NodalMerge

namespace StateGraph

/-- Feed a fresh graph node by node. -/
def replay (crypto : Crypto) (nodes : List SyncNode) : StateGraph :=
  nodes.foldl (fun graph node => (applyRemote crypto graph node).1) .empty

/-- The sessions of one author, with every node stored so far. A restart may
replay any of those nodes in any order; all of them in causal order is one. -/
inductive History (crypto : Crypto) (signingKey : crypto.SigningKey) :
    StateGraph → List SyncNode → Prop where
  | start : History crypto signingKey .empty []
  | insert (history : History crypto signingKey graph made) (nonempty : text ≠ "")
      (ran : applyLocalTextRangeOp crypto graph signingKey wallMs (.insert key anchor text)
        parents = some (after, .ok ids)) :
      History crypto signingKey after (localNode crypto graph signingKey wallMs
        [graph.lowerRangeOp (.insert key anchor text)] parents :: made)
  | refused (history : History crypto signingKey graph made)
      (ran : applyLocalTextRangeOp crypto graph signingKey wallMs (.insert key anchor text)
        parents = some (after, .error error)) :
      History crypto signingKey after made
  | restart (history : History crypto signingKey graph made)
      (own : ∀ node ∈ replayed, node ∈ made) :
      History crypto signingKey (replay crypto replayed) made

/-- A node that inserts one non-empty range. -/
structure Typed (author : PublicKey) (node : SyncNode) : Prop where
  author : node.transaction.author = author
  bounded : node.lamport ≤ u64Max
  range : ∃ key anchor text, text ≠ "" ∧
    node.transaction.ops = [.text (.insertRange key anchor text)]

/-- The projection shows the characters of the stored nodes, all of them visible. -/
structure Shows (graph : StateGraph) (key : String) : Prop where
  plain : (graph.live key).Plain
  visible : ∀ item ∈ (graph.live key).items, item.deleted = false
  ids : ∀ id, id ∈ (graph.live key).ids ↔ ∃ node ∈ graph.nodes.data, id ∈ node.mintedIds key

/-- What holds between the calls of one author's sessions. -/
structure Session (crypto : Crypto) (author : PublicKey) (graph : StateGraph)
    (made : List SyncNode) : Prop where
  reached : Reachable crypto (fun _ call => call.KeepsSettings) graph
  shows : ∀ key, graph.Shows key
  known : ∀ node ∈ graph.nodes.data, node ∈ made
  typed : ∀ node ∈ made, Typed author node

open MemoryNodeStore String TextProjection

variable {author : PublicKey}
variable {graph after : StateGraph} {node : SyncNode} {key : String}

theorem Typed.extends_applyNode (typed : Typed author node) {projection : TextProjection}
    (plain : projection.Plain) :
    projection.Extends (projection.applyNode node key) (node.mintedIds key) := by
  obtain ⟨opKey, anchor, text, _, single⟩ := typed.range
  rw [applyNode, SyncNode.mintedIds, single, List.foldl_cons, List.foldl_nil, List.flatMap_cons,
    List.flatMap_nil, List.append_nil, applyOp, Op.mintedIds]
  by_cases same : opKey = key
  · rw [if_pos same, if_pos same]
    exact plain.applyRangeInsert _ anchor text
  · rw [if_neg same, if_neg same]
    exact ⟨plain, fun _ member => member, fun _ member => .inl member, by simp⟩

theorem Shows.store (shows : graph.Shows key) (typed : Typed author node)
    (live : after.live key = (graph.live key).applyNode node key)
    (stored : after.nodes.data = graph.nodes.data ++ [node]) : after.Shows key := by
  have extended := @Typed.extends_applyNode author node key typed _ shows.plain
  rw [← live] at extended
  refine ⟨extended.plain, fun item member => ?_, fun id => ?_⟩
  · exact (extended.added item member).elim (shows.visible item) And.left
  · rw [extended.mem_ids, shows.ids, stored]
    simp [or_and_right, exists_or]

/-- A session goes on with a node that is stored and folded in. -/
theorem Session.store (session : Session crypto author graph made)
    (reached : Reachable crypto (fun _ call => call.KeepsSettings) after)
    (typed : Typed author node) (live : ∀ key, after.live key = (graph.live key).applyNode node key)
    (stored : after.nodes.data = graph.nodes.data ++ [node]) {more : List SyncNode}
    (wider : ∀ other ∈ made, other ∈ more) (self : node ∈ more)
    (allTyped : ∀ other ∈ more, Typed author other) : Session crypto author after more where
  reached := reached
  shows key := (session.shows key).store typed (live key) stored
  known := by
    intro other member
    rw [stored, List.mem_append, List.mem_singleton] at member
    rcases member with old | rfl
    · exact wider other (session.known other old)
    · exact self
  typed := allTyped

theorem Session.remote (session : Session crypto author graph made) (own : node ∈ made) :
    Session crypto author (applyRemote crypto graph node).1 made := by
  have reached := session.reached.remote node none trivial
  rcases applyRemoteChecked_cases crypto graph node none with
    ⟨_, admissible, same⟩ | ⟨_, _, _, same⟩
  · rw [applyRemote, same]
    rw [same] at reached
    have typed := session.typed node own
    obtain ⟨_, _, _, _, single⟩ := typed.range
    exact session.store reached typed (live_updateFromNode_single single _)
      (put_fresh admissible.fresh)
      (fun _ member => member) own session.typed
  · rw [applyRemote, same]
    rw [same] at reached
    exact ⟨reached, fun key => ⟨(session.shows key).plain, (session.shows key).visible,
      (session.shows key).ids⟩, session.known, session.typed⟩

theorem Session.empty (typed : ∀ node ∈ made, Typed author node) :
    Session crypto author .empty made where
  reached := .start
  shows _ := ⟨.empty, fun _ member => (List.not_mem_nil member).elim,
    fun _ => ⟨fun member => (List.not_mem_nil member).elim,
      fun ⟨_, member, _⟩ => (List.not_mem_nil member).elim⟩⟩
  known _ member := (List.not_mem_nil member).elim
  typed := typed

theorem Session.replay (typed : ∀ node ∈ made, Typed author node) {replayed : List SyncNode}
    (own : ∀ node ∈ replayed, node ∈ made) :
    Session crypto author (replay crypto replayed) made := by
  have from_ (graph : StateGraph) (session : Session crypto author graph made) :
      Session crypto author
        (replayed.foldl (fun graph node => (applyRemote crypto graph node).1) graph) made := by
    induction replayed generalizing graph with
    | nil => exact session
    | cons node rest ih =>
      exact ih (fun other member => own other (.tail _ member)) _
        (session.remote (own node (.head _)))
  exact from_ .empty (.empty typed)

theorem History.session (history : History crypto signingKey graph made) :
    Session crypto (crypto.verifyingKey signingKey) graph made := by
  induction history with
  | start => exact .empty fun _ member => (List.not_mem_nil member).elim
  | @insert graph made text wallMs key anchor parents after ids _ nonempty ran ih =>
    obtain ⟨room, ⟨error, failed⟩ | ⟨fresh, committed⟩⟩ := applyLocalTextRangeOp_cases ran
    · cases (Prod.mk.inj failed).2
    · obtain ⟨rfl, _⟩ := Prod.mk.inj committed
      have typed : Typed (crypto.verifyingKey signingKey) (localNode crypto graph signingKey wallMs
          [graph.lowerRangeOp (.insert key anchor text)] parents) := by
        refine ⟨?_, ?_, key, graph.canonicalAnchor key anchor, text, nonempty, ?_⟩
        · rw [localNode_transaction]
          rfl
        · rw [SyncNode.lamport, localNode_transaction]
          exact room
        · rw [localNode_transaction]
          rfl
      obtain ⟨_, _, _, _, single⟩ := typed.range
      refine ih.store (ih.reached.rangeEdit trivial ran) typed
        (live_updateFromNode_single single _) (put_fresh fresh)
        (fun _ member => .tail _ member) (.head _) ?_
      intro other member
      rcases List.mem_cons.mp member with rfl | old
      · exact typed
      · exact ih.typed other old
  | refused _ ran ih =>
    have reached := ih.reached.rangeEdit trivial ran
    obtain ⟨room, ⟨error, failed⟩ | ⟨fresh, committed⟩⟩ := applyLocalTextRangeOp_cases ran
    · obtain ⟨rfl, _⟩ := Prod.mk.inj failed
      exact ⟨reached, fun key => ⟨(ih.shows key).plain, (ih.shows key).visible,
        (ih.shows key).ids⟩, ih.known, ih.typed⟩
    · cases (Prod.mk.inj committed).2
  | restart _ own ih => exact .replay ih.typed own

/-- The union of two lists is as long as both together if and only if the
second has no repetitions and shares nothing with the first. -/
theorem length_union_iff {union first second : List OpId} (nodup : union.Nodup)
    (firstNodup : first.Nodup) (members : ∀ id, id ∈ union ↔ id ∈ first ∨ id ∈ second) :
    union.length = first.length + second.length ↔
      second.Nodup ∧ ∀ id ∈ second, id ∉ first := by
  have same : union.toFinset = (first ++ second).toFinset := by
    ext id
    simp [members]
  have count : (first ++ second).toFinset.card = (first ++ second).length ↔
      (first ++ second).Nodup :=
    @Multiset.toFinset_card_eq_card_iff_nodup _ _ (↑(first ++ second) : Multiset OpId)
  rw [← List.toFinset_card_of_nodup nodup, same, ← List.length_append, count, List.nodup_append]
  constructor
  · rintro ⟨_, secondNodup, apart⟩
    exact ⟨secondNodup, fun id inSecond inFirst => apart id inFirst id inSecond rfl⟩
  · rintro ⟨secondNodup, apart⟩
    refine ⟨firstNodup, secondNodup, ?_⟩
    rintro id inFirst _ inSecond rfl
    exact apart id inSecond inFirst

theorem Shows.resolveText_length (shows : graph.Shows key)
    (reached : Reachable crypto (fun _ call => call.KeepsSettings) graph) :
    (graph.resolveText key).toList.length = (graph.live key).ids.length := by
  have all : (graph.live key).visible = (graph.live key).items :=
    List.filter_eq_self.mpr fun item member => by simp [shows.visible item member]
  rw [resolveText, reached.resident.textProjection_eq reached.settings.2.2, resolveString,
    toList_ofList, List.length_map, all, TextProjection.ids, List.length_map]

section

/-- An earlier insert shares no id with a new one if and only if its range ends
below the clock or begins above what the new one reserves. -/
theorem Typed.disjoint_iff (typed : Typed author node) {base : OpId} (own : base.author = author)
    (room : base.lamport ≤ u64Max) (nonempty : text ≠ "") :
    (node.mintedIds key).Disjoint (charIds base 0 text.toList) ↔
      ∀ other earlier, .text (.insertRange key other earlier) ∈ node.transaction.ops →
        node.lamport + earlier.toList.length ≤ base.lamport ∨
          base.lamport + text.toList.length ≤ node.lamport := by
  obtain ⟨opKey, opAnchor, opText, opNonempty, single⟩ := typed.range
  have chars {content : String} (filled : content ≠ "") : content.toList ≠ [] := by
    rw [ne_eq, toList_eq_nil_iff]
    exact filled
  rw [SyncNode.mintedIds, single, List.flatMap_cons, List.flatMap_nil, List.append_nil,
    Op.mintedIds]
  by_cases same : opKey = key
  · subst same
    rw [if_pos rfl, charIds_disjoint_iff (typed.author.trans own.symm) typed.bounded room
      (chars opNonempty) (chars nonempty)]
    constructor
    · intro apart other earlier member
      cases List.mem_singleton.mp member
      exact apart
    · intro apart
      exact apart opAnchor opText (.head _)
  · rw [if_neg same]
    refine ⟨fun _ other earlier member => ?_, fun _ => List.disjoint_nil_left _⟩
    cases List.mem_singleton.mp member
    exact (same rfl).elim

/-- The stored characters of a key are out of the way of a new insert. -/
theorem Session.fresh_iff (session : Session crypto (crypto.verifyingKey signingKey) graph made)
    (room : graph.lamport + 1 ≤ u64Max) (nonempty : text ≠ "") :
    (∀ id ∈ charIds ⟨graph.lamport + 1, crypto.verifyingKey signingKey⟩ 0 text.toList,
        id ∉ (graph.live key).ids) ↔
      ∀ node ∈ graph.nodes.data, ∀ other earlier,
        .text (.insertRange key other earlier) ∈ node.transaction.ops →
          node.lamport + earlier.toList.length ≤ graph.lamport + 1 := by
  have each (node : SyncNode) (stored : node ∈ graph.nodes.data) :=
    @Typed.disjoint_iff _ node key text (session.typed node (session.known node stored))
      ⟨graph.lamport + 1, crypto.verifyingKey signingKey⟩ rfl room nonempty
  constructor
  · intro fresh node stored other earlier member
    have older : node.lamport ≤ graph.lamport := session.reached.dag.clock node stored
    have disjoint : (node.mintedIds key).Disjoint
        (charIds ⟨graph.lamport + 1, crypto.verifyingKey signingKey⟩ 0 text.toList) :=
      fun id minted new => fresh id new (((session.shows key).ids id).mpr ⟨node, stored, minted⟩)
    have apart := (each node stored).mp disjoint other earlier member
    exact apart.resolve_right (by simp only; omega)
  · intro below id new known
    obtain ⟨node, stored, minted⟩ := ((session.shows key).ids id).mp known
    exact (each node stored).mpr
      (fun other earlier member => .inl (below node stored other earlier member)) minted new

end

/-- A committed insert adds as many characters as it has new ids. -/
theorem History.commit_length_iff (history : History crypto signingKey graph made)
    (nonempty : text ≠ "") (room : graph.lamport + 1 ≤ u64Max)
    (fresh : graph.nodes.contains (localNode crypto graph signingKey wallMs
      [graph.lowerRangeOp (.insert key anchor text)] parents).id = false) :
    ((graph.commitLocal [graph.lowerRangeOp (.insert key anchor text)] (localNode crypto graph
        signingKey wallMs [graph.lowerRangeOp (.insert key anchor text)] parents)).resolveText
          key).toList.length = (graph.resolveText key).toList.length + text.toList.length ↔
      graph.lamport + text.toList.length ≤ u64Max ∧
        ∀ node ∈ graph.nodes.data, ∀ other earlier,
          .text (.insertRange key other earlier) ∈ node.transaction.ops →
            node.lamport + earlier.toList.length ≤ graph.lamport + 1 := by
  have session := history.session
  have later := (history.insert nonempty (applyLocalTextRangeOp_commit room fresh)).session
  have plain := (session.shows key).plain
  have present := (graph.live key).resolveAnchorAfterVisible_present
    (graph.canonicalAnchor key anchor)
  have extended := @Plain.insertChars ⟨graph.lamport + 1, crypto.verifyingKey signingKey⟩ _
    plain 0 _ present text.toList
  rw [← live_commitLocal_insert] at extended
  have count := length_union_iff extended.plain.nodup plain.nodup fun _ => extended.mem_ids
  rw [charIds_length, charIds_nodup_iff (show graph.lamport + 1 + 0 ≤ u64Max from room),
    session.fresh_iff room nonempty] at count
  rw [(later.shows key).resolveText_length later.reached,
    (session.shows key).resolveText_length session.reached]
  refine count.trans (and_congr_left fun _ => ?_)
  simp only
  omega

/-- In any history of inserts and restarts, an insert adds all of its characters
to the visible text if and only if its ids do not run out and every stored range
of the key ends at or below the clock. Its ids are new if and only if each range
made so far ends at or below the clock or begins above the new ids. -/
theorem insert_keeps_text_iff (crypto : Crypto) (signingKey : crypto.SigningKey)
    (graph : StateGraph) (made : List SyncNode) (history : History crypto signingKey graph made)
    (key : String) (anchor : TextRangeAnchor) (text : String) (nonempty : text ≠ "") (wallMs : Nat)
    (parents : Enumeration graph.leaves)
    (collisionFree : crypto.CollisionFree (insert (localTransaction crypto graph signingKey wallMs
      [graph.lowerRangeOp (.insert key anchor text)] parents) graph.transactions)) :
    ((∃ after ids, applyLocalTextRangeOp crypto graph signingKey wallMs (.insert key anchor text)
          parents = some (after, .ok ids) ∧
        (after.resolveText key).toList.length =
          (graph.resolveText key).toList.length + text.toList.length) ↔
      graph.lamport + text.toList.length ≤ u64Max ∧
        ∀ node ∈ graph.nodes.data, ∀ other earlier,
          .text (.insertRange key other earlier) ∈ node.transaction.ops →
            node.lamport + earlier.toList.length ≤ graph.lamport + 1) ∧
    (graph.lamport + 1 ≤ u64Max →
      ((∀ node ∈ made, ∀ otherKey, (node.mintedIds otherKey).Disjoint
        ((localNode crypto graph signingKey wallMs
          [graph.lowerRangeOp (.insert key anchor text)] parents).mintedIds key)) ↔
      ∀ node ∈ made, ∀ otherKey other earlier,
        .text (.insertRange otherKey other earlier) ∈ node.transaction.ops →
          node.lamport + earlier.toList.length ≤ graph.lamport + 1 ∨
            graph.lamport + text.toList.length < node.lamport)) := by
  have session := history.session
  refine ⟨?_, fun room => ?_⟩
  · have fresh := localNode_fresh session.reached.dag collisionFree
    constructor
    · rintro ⟨after, ids, ran, grown⟩
      obtain ⟨room, ⟨error, failed⟩ | ⟨_, committed⟩⟩ := applyLocalTextRangeOp_cases ran
      · cases (Prod.mk.inj failed).2
      · obtain ⟨rfl, _⟩ := Prod.mk.inj committed
        exact (history.commit_length_iff nonempty room fresh).mp grown
    · intro condition
      have length : 1 ≤ text.toList.length := by
        rw [Nat.one_le_iff_ne_zero, ne_eq, List.length_eq_zero_iff, toList_eq_nil_iff]
        exact nonempty
      have room : graph.lamport + 1 ≤ u64Max := le_trans (Nat.add_le_add_left length _) condition.1
      exact ⟨_, _, applyLocalTextRangeOp_commit room fresh,
        (history.commit_length_iff nonempty room fresh).mpr condition⟩
  · have each (node : SyncNode) (own : node ∈ made) (otherKey : String) :=
      @Typed.disjoint_iff _ node otherKey text (session.typed node own)
        ⟨graph.lamport + 1, crypto.verifyingKey signingKey⟩ rfl room nonempty
    have minted : (localNode crypto graph signingKey wallMs
        [graph.lowerRangeOp (.insert key anchor text)] parents).mintedIds key =
        charIds ⟨graph.lamport + 1, crypto.verifyingKey signingKey⟩ 0 text.toList := by
      rw [SyncNode.mintedIds, localNode_transaction]
      exact (List.append_nil _).trans (if_pos rfl)
    rw [minted]
    constructor
    · intro disjoint node own otherKey other earlier member
      have apart := (each node own otherKey).mp (disjoint node own otherKey) other earlier member
      simp only at apart
      omega
    · intro apart node own otherKey
      refine (each node own otherKey).mpr fun other earlier member => ?_
      have outside := apart node own otherKey other earlier member
      simp only
      omega

theorem draft_history : History Crypto.sample (Crypto.sampleKey 1) draft [draftNode] :=
  .insert .start (by decide) (applyLocalTextRangeOp_commit (by decide) (by decide))

theorem draft_grows :
    ∃ after ids, applyLocalTextRangeOp Crypto.sample draft (Crypto.sampleKey 1) 0
        (.insert "doc" (.offset 1) "b") ⟨[draftNode.id], by simp, by decide⟩ =
          some (after, .ok ids) ∧
      (after.resolveText "doc").toList.length =
        (draft.resolveText "doc").toList.length + "b".toList.length := by
  refine (insert_keeps_text_iff Crypto.sample (Crypto.sampleKey 1) draft [draftNode] draft_history
    "doc" (.offset 1) "b" (by decide) 0 ⟨[draftNode.id], by simp, by decide⟩
    (draft_collisionFree (by decide))).1.mpr ⟨by decide, ?_⟩
  intro node member other earlier inserted
  cases List.mem_singleton.mp member
  cases List.mem_singleton.mp inserted
  decide

def restartedDraft : StateGraph := replay Crypto.sample [draftNode]

/-- After a restart the next character takes the id of the last one typed
before, and is dropped. -/
theorem restart_loses_text :
    History Crypto.sample (Crypto.sampleKey 1) restartedDraft [draftNode] ∧
      draft.nodes.data = [draftNode] ∧ restartedDraft.resolveText "doc" = "ac" ∧
      (applyLocalTextRangeOp Crypto.sample restartedDraft (Crypto.sampleKey 1) 0
        (.insert "doc" (.offset 2) "d") ⟨[draftNode.id], by simp, by decide⟩).map
          (fun outcome => (outcome.1.resolveText "doc", outcome.2.toBool)) =
        some ("ac", true) :=
  ⟨.restart draft_history fun _ member => member, rfl, by decide, by decide⟩

end StateGraph

end NodalMerge
