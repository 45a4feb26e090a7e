import NodalMerge.Crdt.Canonical
import NodalMerge.Crdt.Convergence

namespace NodalMerge

open Function LastWriter List ListItemCache

theorem not_lt_zero_priority (prio : Priority) : ¬ prio < Priority.zero := by
  have bytes (values : List U8) : ¬ values < List.replicate values.length 0 := by
    induction values with
    | nil => simp
    | cons value rest ih =>
      rw [length_cons, replicate_succ, cons_lt_cons_iff]
      simpa using fun _ => ih
  intro less
  rcases Prod.Lex.lt_iff.mp less with earlier | ⟨-, lower⟩
  · exact absurd earlier (Nat.not_lt_zero _)
  · have bound := bytes (ofLex prio).2.val
    rw [(ofLex prio).2.property] at bound
    exact bound lower

namespace StateGraph

/-- What the scan keeps for a key: the priority to beat, and the value. -/
abbrev ReplayEntry := Priority × Option (List U8)

def replayOp (tx : Transaction) (perKey : HashMap String ReplayEntry) :
    Op → HashMap String ReplayEntry
  | .map op =>
    let entry := (perKey.lookup op.key).getD (Priority.zero, none)
    perKey.insert op.key
      (if entry.1 < tx.priority then (tx.priority, (op.candidate tx).value) else entry)
  | .list _ => perKey
  | .text _ => perKey

/-- The node of an id, unless the scan skips it. -/
def scanned (graph : StateGraph) (skipLocal : Bool) (id : NodeId) : Option SyncNode :=
  if skipLocal && decide (id ∈ graph.localNodeIds) then none else graph.nodes.get id

/-- `resolve_replay`, with the ids in the order in which the store lists them. -/
def resolveReplay (graph : StateGraph) (ids : List NodeId) (skipLocal : Bool) (key : String) :
    Option (List U8) :=
  let perKey := (ids.filterMap (graph.scanned skipLocal)).foldl
    (fun perKey node => node.transaction.ops.foldl (replayOp node.transaction) perKey) ∅
  (perKey.lookup key).bind Prod.snd

/-- The entry of a key, as the scan reads it. -/
def entryOf (perKey : HashMap String ReplayEntry) (key : String) : ReplayEntry :=
  (perKey.lookup key).getD (Priority.zero, none)

/-- The entry that stands for a winner. -/
def entryFor (current : Option MapWinner) : ReplayEntry :=
  current.elim (Priority.zero, none) fun winner => (winner.priority, winner.value)

def takeWrite (entry : ReplayEntry) (write : MapWinner) : ReplayEntry :=
  if entry.1 < write.priority then (write.priority, write.value) else entry

theorem entryOf_replayOp (tx : Transaction) (key : String) (perKey : HashMap String ReplayEntry)
    (op : Op) : entryOf (replayOp tx perKey op) key =
      (op.mapWrite tx key).elim (entryOf perKey key) (takeWrite (entryOf perKey key)) := by
  cases op with
  | map op =>
    have prio : (op.candidate tx).priority = tx.priority := by cases op <;> rfl
    simp only [replayOp, entryOf, Op.mapWrite, lookup_insert_ite]
    by_cases same : op.key = key
    · subst same
      simp only [↓reduceIte, Option.getD_some, Option.elim_some, takeWrite, prio]
    · simp only [same, Ne.symm same, ↓reduceIte, Option.elim_none]
  | list op => rfl
  | text op => rfl

theorem takeWrite_entryFor (positive : write.priority ≠ Priority.zero)
    (current : Option MapWinner) : takeWrite (entryFor current) write =
      entryFor (keep MapWinner.priority current write) := by
  cases current with
  | none =>
    have above : Priority.zero < write.priority :=
      lt_of_le_of_ne (not_lt.mp (not_lt_zero_priority _)) positive.symm
    exact if_pos above
  | some winner =>
    by_cases above : winner.priority < write.priority
    · rw [keep_higher above]
      exact if_pos above
    · rw [keep_lower (not_lt.mp above)]
      exact if_neg above

/-- Writes of one node move an entry as they move the winner, and not at all with
priority zero. -/
theorem foldl_takeWrite {node : SyncNode} {writes : List MapWinner}
    (same : ∀ write ∈ writes, write.priority = node.transaction.priority)
    (current : Option MapWinner) : writes.foldl takeWrite (entryFor current) =
      entryFor (if node.transaction.priority = Priority.zero then current
        else writes.foldl (keep MapWinner.priority) current) := by
  induction writes generalizing current with
  | nil => simp
  | cons write rest ih =>
    rw [forall_mem_cons] at same
    by_cases zero : node.transaction.priority = Priority.zero
    · have idle : takeWrite (entryFor current) write = entryFor current := by
        rw [takeWrite, same.1, zero, if_neg (not_lt_zero_priority _)]
      rw [foldl_cons, idle, ih same.2, if_pos zero, if_pos zero]
    · rw [foldl_cons, takeWrite_entryFor (by rwa [same.1]), ih same.2, if_neg zero,
        if_neg zero, foldl_cons]

theorem entryOf_nodes (key : String) (nodes : List SyncNode) :
    entryOf (nodes.foldl (fun perKey node =>
        node.transaction.ops.foldl (replayOp node.transaction) perKey) ∅) key =
      entryFor (winner MapWinner.priority (nodes.flatMap (mapWrites key))) := by
  induction nodes using reverseRecOn with
  | nil => rfl
  | append_singleton front last ih =>
    rw [foldl_append, flatMap_append, winner_append, flatMap_singleton, foldl_cons, foldl_nil,
      foldl_filterMap_elim (entryOf · key) _
        (fun perKey op => entryOf_replayOp last.transaction key perKey op), ih,
      @foldl_takeWrite last, mapWrites]
    · split <;> rfl
    · intro write member
      obtain ⟨op, -, found⟩ := mem_filterMap.mp member
      exact Op.mapWrite_priority found

section
variable {graph : StateGraph} {ids : List NodeId}

/-- The scan reads the stored nodes it does not skip, in some order. -/
theorem scanned_perm (nodup : (graph.nodes.data.map SyncNode.id).Nodup)
    (listed : ids.Perm graph.nodes.allIds) (skipLocal : Bool) :
    (ids.filterMap (graph.scanned skipLocal)).Perm (graph.nodes.data.filter fun node =>
      !(skipLocal && decide (node.id ∈ graph.localNodeIds))) := by
  refine (listed.filterMap _).trans (.of_eq ?_)
  rw [MemoryNodeStore.allIds, filterMap_map, ← filterMap_eq_filter]
  refine filterMap_congr fun node member => ?_
  have found := MemoryNodeStore.get_of_mem nodup member
  simp only [Function.comp, scanned, found, Option.guard]
  split <;> simp_all

theorem resolveReplay_eq (nodup : (graph.nodes.data.map SyncNode.id).Nodup)
    (distinct : Distinct graph.nodes.data) (listed : ids.Perm graph.nodes.allIds)
    (skipLocal : Bool) (key : String) : graph.resolveReplay ids skipLocal key =
      lwwResolve (graph.nodes.data.filter fun node =>
        !(skipLocal && decide (node.id ∈ graph.localNodeIds))) key := by
  have same := scanned_perm nodup listed skipLocal
  have apart : Distinct (ids.filterMap (graph.scanned skipLocal)) :=
    same.symm.pairwise (distinct.sublist filter_sublist) fun differ => Ne.symm differ
  have entry := congrArg Prod.snd (entryOf_nodes key (ids.filterMap (graph.scanned skipLocal)))
  rw [winner_mapWrites_perm same apart key] at entry
  rw [resolveReplay, lwwResolve]
  refine Eq.trans ?_ (entry.trans ?_)
  · rw [entryOf]
    cases Finmap.lookup key _ <;> rfl
  · rw [entryFor]
    cases winner MapWinner.priority _ <;> rfl

end

theorem Reachable.canonicalView {Allowed : ∀ graph : StateGraph, Call crypto graph → Prop}
    {graph : StateGraph} (reached : Reachable crypto Allowed graph) : CanonicalView graph ∅ := by
  induction reached with
  | start => exact .empty
  | call _ _ ran ih => exact ih.run ran

/-- The winner caches resolve the map as a scan of all stored nodes does, and the
canonical one as a scan of the nodes that are not local. -/
theorem map_caches_equal_replay (crypto : Crypto) (graph : StateGraph)
    (reached : Reachable crypto (fun _ _ => True) graph) (distinct : Distinct graph.nodes.data)
    (ids : List NodeId) (listed : ids.Perm graph.nodes.allIds) (key : String) :
    graph.resolve key = graph.resolveReplay ids false key ∧
      graph.resolveCanonical key = graph.resolveReplay ids true key := by
  have view := reached.canonicalView
  rw [resolveReplay_eq view.nodup distinct listed, resolveReplay_eq view.nodup distinct listed]
  constructor
  · have all : (graph.nodes.data.filter fun node =>
        !(false && decide (node.id ∈ graph.localNodeIds))) = graph.nodes.data :=
      filter_eq_self.mpr fun _ _ => rfl
    rw [resolve, lwwResolve, all]
    exact congrArg (Option.bind · _) (reached.cached.map key)
  · have remote : graph.canonicalNodes ∅ = graph.nodes.data.filter fun node =>
        !(true && decide (node.id ∈ graph.localNodeIds)) :=
      filter_congr fun node _ => by simp [isCanonical]
    rw [resolveCanonical, view.view key, remote]
    rfl

theorem rivaled_write_equals_replay :
    sampleRivaled.resolve "k" = some [9] ∧
      sampleRivaled.resolve "k" = sampleRivaled.resolveReplay sampleRivaled.nodes.allIds false "k" ∧
      sampleRivaled.resolveCanonical "k" =
        sampleRivaled.resolveReplay sampleRivaled.nodes.allIds true "k" :=
  ⟨by decide, map_caches_equal_replay Crypto.sample sampleRivaled
    (.remote (.call .start trivial sampleWrite_run) rivalNode none trivial)
    (by unfold Distinct; decide) _ (.refl _) "k"⟩

/-- One op of the scan of a list. -/
def seqOp (listKey : String) (prio : Priority) (items : HashMap ItemId ListItemCache) :
    Op → HashMap ItemId ListItemCache
  | .list op =>
    if op.key = listKey then
      items.insert op.itemId (((items.lookup op.itemId).getD .default).applyOp op prio)
    else items
  | .map _ => items
  | .text _ => items

def seqItems (nodes : List SyncNode) (listKey : String) : HashMap ItemId ListItemCache :=
  nodes.foldl (fun items node =>
    node.transaction.ops.foldl (seqOp listKey node.transaction.priority) items) ∅

def visibleItems (items : HashMap ItemId ListItemCache) : Finset (FracIdx ×ₗ ItemId) :=
  items.keys.biUnion fun item =>
    match (items.lookup item).bind ListItemCache.visiblePosition with
    | some position => {toLex (position, item)}
    | none => ∅

/-- `resolve_list_seq`; the item ids make the order by position total. -/
def resolveListSeq (nodes : List SyncNode) (listKey : String) : List (ItemId × FracIdx) :=
  (inOrder (visibleItems (seqItems nodes listKey))).map fun entry =>
    ((ofLex entry).2, (ofLex entry).1)

theorem mem_visibleItems {position : FracIdx} : toLex (position, item) ∈ visibleItems items ↔
      ((items.lookup item).getD .default).visiblePosition = some position := by
  rw [visibleItems, Finset.mem_biUnion]
  constructor
  · rintro ⟨other, -, member⟩
    split at member
    · rename_i place found
      obtain ⟨rfl, rfl⟩ := Prod.mk.inj (toLex.injective (Finset.mem_singleton.mp member))
      obtain ⟨state, held, shown⟩ := Option.bind_eq_some_iff.mp found
      rw [held]
      exact shown
    · cases member
  · intro shown
    cases held : items.lookup item with
    | none =>
      rw [held] at shown
      cases shown
    | some state =>
      rw [held] at shown
      refine ⟨item, Finmap.mem_keys.mpr (Finmap.mem_of_lookup_eq_some held), ?_⟩
      rw [held]
      simp only [Option.bind_some]
      rw [show state.visiblePosition = some position from shown]
      exact Finset.mem_singleton_self _

/-- The state of an item after a scan. -/
def seqItem (nodes : List SyncNode) (listKey : String) (item : ItemId) : ListItemCache :=
  ((seqItems nodes listKey).lookup item).getD .default

/-- The ops of a node on one list item, of any priority. -/
def seqEntries (key : String) (item : ItemId) (node : SyncNode) : List (ListOp × Priority) :=
  (node.transaction.ops.filterMap (Op.listWrite key item)).map fun op =>
    (op, node.transaction.priority)

theorem seqItem_eq (nodes : List SyncNode) (key : String) (item : ItemId) :
    seqItem nodes key item =
      (nodes.flatMap (seqEntries key item)).foldl ListItemCache.enter .default := by
  induction nodes using reverseRecOn with
  | nil => rfl
  | append_singleton front last ih =>
    rw [flatMap_append, foldl_append, flatMap_singleton, ← ih, seqEntries,
      foldl_map, seqItem, seqItems, foldl_append]
    refine foldl_filterMap_elim (fun items : HashMap ItemId ListItemCache =>
        (items.lookup item).getD .default)
      (Op.listWrite key item) (fun items op => ?_) _ _
    cases op with
    | map op => rfl
    | list op =>
      simp only [seqOp, Op.listWrite]
      by_cases sameKey : op.key = key
      · by_cases sameItem : op.itemId = item
        · subst sameItem
          simp [sameKey, ListItemCache.enter]
        · simp [sameKey, sameItem, Ne.symm sameItem]
      · simp [sameKey]
    | text op => rfl

end StateGraph

/-- The op gives its item a position. -/
def ListOp.isPosition : ListOp → Bool
  | .delete _ _ => false
  | _ => true

def ListOp.isInsert : ListOp → Bool
  | .insert _ _ _ => true
  | _ => false

def ListOp.isDelete : ListOp → Bool
  | .delete _ _ => true
  | _ => false

namespace ListItemCache

variable {entries : List (ListOp × Priority)}

/-- What the ops on an item leave: positions count with a priority above zero only. -/
structure Shows (entries : List (ListOp × Priority)) (item : ListItemCache) : Prop where
  inserted : item.sawInsert = entries.any fun entry => entry.1.isInsert
  deleted : item.deleted = entries.any fun entry => entry.1.isDelete
  placed : item.position.isSome =
    entries.any fun entry => decide (entry.2 ≠ Priority.zero) && entry.1.isPosition
  unplaced : item.position = none → item.posPriority = Priority.zero

theorem isSome_place {item : ListItemCache} (unplaced : item.position = none →
      item.posPriority = Priority.zero) (position : FracIdx) (prio : Priority) :
    (item.place position prio).position.isSome =
        (item.position.isSome || decide (prio ≠ Priority.zero)) ∧
      ((item.place position prio).position = none →
        (item.place position prio).posPriority = Priority.zero) := by
  unfold place
  by_cases above : item.posPriority < prio
  · have positive : prio ≠ Priority.zero := by
      rintro rfl
      exact not_lt_zero_priority _ above
    simp [above, positive]
  · rw [if_neg above]
    refine ⟨?_, unplaced⟩
    cases held : item.position with
    | some current => rfl
    | none =>
      rw [unplaced held, not_lt] at above
      simpa using (le_antisymm above (not_lt.mp (not_lt_zero_priority prio)))

theorem shows_foldl (entries : List (ListOp × Priority)) :
    Shows entries (entries.foldl enter .default) := by
  induction entries using reverseRecOn with
  | nil => exact ⟨rfl, rfl, rfl, fun _ => rfl⟩
  | append_singleton front last ih =>
    rw [foldl_append, foldl_cons, foldl_nil]
    generalize front.foldl enter .default = item at ih
    obtain ⟨op, prio⟩ := last
    have placed (position : FracIdx) := isSome_place ih.unplaced position prio
    rw [enter, applyOp_eq]
    cases op with
    | insert key id position =>
      refine ⟨by simp [ListOp.isInsert], ?_, ?_, (placed position).2⟩
      · simp only [place, apply_ite, ih.deleted]
        simp [ListOp.isDelete]
      · rw [any_append, ← ih.placed]
        simpa [ListOp.isPosition] using (placed position).1
    | move key id position =>
      refine ⟨?_, ?_, ?_, (placed position).2⟩
      · simp only [place, apply_ite, ih.inserted]
        simp [ListOp.isInsert]
      · simp only [place, apply_ite, ih.deleted]
        simp [ListOp.isDelete]
      · rw [any_append, ← ih.placed]
        simpa [ListOp.isPosition] using (placed position).1
    | delete key id =>
      refine ⟨?_, by simp [ListOp.isDelete], ?_, ih.unplaced⟩
      · simp [ListOp.isInsert, ih.inserted]
      · simp [ListOp.isPosition, ih.placed]

/-- Two states of an item with one position. -/
def Together (item other : ListItemCache) : Prop :=
  item.position = other.position ∧ item.posPriority = other.posPriority

theorem Together.enter (together : Together item other) (entry : ListOp × Priority) :
    Together (item.enter entry) (other.enter entry) := by
  obtain ⟨op, prio⟩ := entry
  rw [ListItemCache.enter, ListItemCache.enter, applyOp_eq, applyOp_eq]
  cases op with
  | delete key id => exact together
  | insert key id position | move key id position =>
    simp only [place, together.2]
    split
    · exact ⟨rfl, rfl⟩
    · exact together

theorem Together.enter_zero (together : Together item other) (op : ListOp) :
    Together (item.enter (op, Priority.zero)) other := by
  rw [ListItemCache.enter, applyOp_eq]
  cases op with
  | delete key id => exact together
  | insert key id position | move key id position =>
    simp only [place, not_lt_zero_priority, ↓reduceIte]
    exact together

/-- Ops of priority zero do not move an item. -/
theorem together_foldl (entries : List (ListOp × Priority)) :
    Together (entries.foldl enter .default)
      ((entries.filter fun entry => entry.2 ≠ Priority.zero).foldl enter .default) := by
  induction entries using reverseRecOn with
  | nil => exact ⟨rfl, rfl⟩
  | append_singleton front last ih =>
    obtain ⟨op, prio⟩ := last
    by_cases zero : prio = Priority.zero
    · subst zero
      simpa using ih.enter_zero op
    · simpa [zero] using ih.enter (op, prio)

theorem isSome_visiblePosition (item : ListItemCache) :
    item.visiblePosition.isSome = item.isVisible := by
  cases seen : item.isVisible with
  | false => simp [visiblePosition, seen]
  | true =>
    rw [visiblePosition, if_pos seen]
    simp only [isVisible, Bool.and_eq_true] at seen
    exact seen.2

theorem Together.visiblePosition_iff (together : Together item other) :
    item.visiblePosition = other.visiblePosition ↔ item.isVisible = other.isVisible := by
  constructor
  · intro same
    rw [← isSome_visiblePosition, same, isSome_visiblePosition]
  · intro same
    rw [visiblePosition, visiblePosition, same, together.1]

end ListItemCache

namespace StateGraph

/-- The views count nodes of a priority above zero. -/
def ranked (nodes : List SyncNode) : List SyncNode :=
  nodes.filter fun node => node.transaction.priority ≠ Priority.zero

def unranked (nodes : List SyncNode) : List SyncNode :=
  nodes.filter fun node => node.transaction.priority = Priority.zero

/-- One of the nodes has an op of the kind on the list item. -/
def OnItem (nodes : List SyncNode) (kind : ListOp → Bool) (key : String) (item : ItemId) : Prop :=
  ∃ node ∈ nodes, ∃ op : ListOp, .list op ∈ node.transaction.ops ∧
    op.key = key ∧ op.itemId = item ∧ kind op = true

/-- What the nodes of priority zero reference, delete and insert makes no difference. -/
structure UnrankedIdle (nodes : List SyncNode) : Prop where
  blobs : blobHashesReferencedBy (unranked nodes) ⊆ blobHashesReferencedBy (ranked nodes)
  deletes : ∀ key item, OnItem (unranked nodes) ListOp.isDelete key item →
    OnItem (ranked nodes) ListOp.isInsert key item → OnItem (ranked nodes) ListOp.isDelete key item
  inserts : ∀ key item, OnItem (unranked nodes) ListOp.isInsert key item →
    OnItem (ranked nodes) ListOp.isPosition key item →
    OnItem (ranked nodes) ListOp.isInsert key item ∨ OnItem nodes ListOp.isDelete key item

section
variable {nodes order : List SyncNode} {key : String}

theorem onItem_split :
    OnItem nodes kind key item ↔
      OnItem (ranked nodes) kind key item ∨ OnItem (unranked nodes) kind key item := by
  simp only [OnItem, ranked, unranked, mem_filter, decide_eq_true_eq, ← exists_or]
  refine exists_congr fun node => ?_
  by_cases zero : node.transaction.priority = Priority.zero <;> simp [zero]

theorem any_seqEntries (listed : order.Perm nodes) :
    ((order.flatMap (seqEntries key item)).any fun entry => kind entry.1) = true ↔
      OnItem nodes kind key item := by
  simp only [any_flatMap, any_eq_true, seqEntries, any_map, OnItem, Function.comp]
  refine exists_congr fun node => and_congr listed.mem_iff ?_
  constructor
  · rintro ⟨write, member, holds⟩
    obtain ⟨op, inOps, found⟩ := mem_filterMap.mp member
    cases op with
    | list other =>
      simp only [Op.listWrite] at found
      split at found
      · rename_i same
        cases found
        exact ⟨write, inOps, same.1, same.2, holds⟩
      · cases found
    | map other | text other => cases found
  · rintro ⟨op, inOps, sameKey, sameItem, holds⟩
    exact ⟨op, mem_filterMap.mpr ⟨_, inOps, if_pos ⟨sameKey, sameItem⟩⟩, holds⟩

/-- The views take the entries of the nodes above priority zero. -/
theorem flatMap_listEntries :
    order.flatMap (listEntries key item) = (ranked order).flatMap (seqEntries key item) ∧
      ((order.flatMap (seqEntries key item)).filter fun entry => entry.2 ≠ Priority.zero) =
        order.flatMap (listEntries key item) := by
  induction order with
  | nil => exact ⟨rfl, rfl⟩
  | cons node rest ih =>
    rw [flatMap_cons, flatMap_cons, filter_append, ih.2]
    by_cases zero : node.transaction.priority = Priority.zero
    · have idle : listEntries key item node = [] := by simp [listEntries, listWrites, zero]
      have dropped : (seqEntries key item node).filter (fun entry => entry.2 ≠ Priority.zero) =
          [] := by
        simp [seqEntries, filter_map, comp_def, zero]
      rw [idle, dropped]
      exact ⟨by simpa [ranked, zero] using ih.1, rfl⟩
    · have same : listEntries key item node = seqEntries key item node := by
        simp [listEntries, listWrites, seqEntries, zero]
      have kept : (seqEntries key item node).filter (fun entry => entry.2 ≠ Priority.zero) =
          seqEntries key item node := by
        simp [seqEntries, filter_map, comp_def, zero]
      rw [same, kept, ih.1]
      exact ⟨by simp [ranked, zero], rfl⟩

theorem visible_iff (listed : order.Perm nodes) :
    ((order.flatMap (seqEntries key item)).foldl ListItemCache.enter .default).isVisible =
        ((order.flatMap (listEntries key item)).foldl ListItemCache.enter .default).isVisible ↔
      (OnItem (unranked nodes) ListOp.isDelete key item →
        OnItem (ranked nodes) ListOp.isInsert key item →
          OnItem (ranked nodes) ListOp.isDelete key item) ∧
      (OnItem (unranked nodes) ListOp.isInsert key item →
        OnItem (ranked nodes) ListOp.isPosition key item →
        OnItem (ranked nodes) ListOp.isInsert key item ∨ OnItem nodes ListOp.isDelete key item) := by
  obtain ⟨only, kept⟩ := @flatMap_listEntries order key item
  have above : (ranked order).Perm (ranked nodes) := listed.filter _
  have all := shows_foldl (order.flatMap (seqEntries key item))
  have counted := shows_foldl (order.flatMap (listEntries key item))
  have together := together_foldl (order.flatMap (seqEntries key item))
  rw [kept] at together
  rw [Bool.eq_iff_iff]
  simp only [ListItemCache.isVisible, Bool.and_eq_true, Bool.not_eq_true', Bool.eq_false_iff,
    together.1]
  rw [all.inserted, all.deleted, counted.inserted, counted.deleted, counted.placed, only]
  have places : ((ranked order).flatMap (seqEntries key item)).any (fun entry =>
      decide (entry.2 ≠ Priority.zero) && entry.1.isPosition) = true ↔
        OnItem (ranked nodes) ListOp.isPosition key item := by
    rw [← any_seqEntries above, ← only, ← kept, any_filter, any_filter]
    simp only [← Bool.and_assoc, Bool.and_self]
  simp only [ne_eq, any_seqEntries listed, any_seqEntries above, @onItem_split nodes]
  have inserted : OnItem (ranked nodes) ListOp.isInsert key item →
      OnItem (ranked nodes) ListOp.isPosition key item := by
    rintro ⟨node, member, op, inOps, sameKey, sameItem, inserts⟩
    cases op with
    | insert => exact ⟨node, member, _, inOps, sameKey, sameItem, rfl⟩
    | delete | move => cases inserts
  tauto

end

section
variable {graph : StateGraph}

/-- A list is shown alike exactly when each of its items is. -/
theorem resolveList_eq_seq_iff (cached : graph.core.Cached) (key : String) :
    graph.resolveList key = resolveListSeq order key ↔
      ∀ item, ((graph.stateCaches.listCache key).item item).visiblePosition =
        (seqItem order key item).visiblePosition := by
  have swap : Function.Injective fun entry : FracIdx ×ₗ ItemId =>
      ((ofLex entry).2, (ofLex entry).1) := by
    intro first second same
    obtain ⟨items, positions⟩ := Prod.mk.inj same
    exact Prod.ext positions items
  have shown : (graph.stateCaches.listCache key).Consistent := cached.consistent key
  rw [resolveList_eq, resolveListSeq, inOrder_eq_sort, (map_injective_iff.mpr swap).eq_iff]
  have sorted : Function.Injective fun visible : Finset (FracIdx ×ₗ ItemId) => visible.sort := by
    intro one other same
    rw [← one.sort_toFinset (· ≤ ·), ← other.sort_toFinset (· ≤ ·)]
    exact congrArg toFinset same
  rw [sorted.eq_iff]
  constructor
  · intro same item
    refine Option.ext fun position => ?_
    rw [← shown, same, mem_visibleItems]
    rfl
  · intro alike
    refine Finset.ext fun entry => ?_
    have moved := shown (ofLex entry).1 (ofLex entry).2
    rw [alike] at moved
    exact moved.trans mem_visibleItems.symm

theorem blobs_eq_iff (reached : Reachable crypto (fun _ _ => True) graph)
    (listed : order.Perm graph.nodes.data) :
    graph.referencedBlobHashes = blobHashesReferencedBy order ↔
      blobHashesReferencedBy (unranked graph.nodes.data) ⊆
        blobHashesReferencedBy (ranked graph.nodes.data) := by
  have counted : graph.referencedBlobHashes = blobHashesReferencedBy (ranked graph.nodes.data) := by
    ext hash
    rw [mem_referencedBlobHashes reached, mem_blobHashesReferencedBy]
    simp [ranked, and_assoc]
  have all : blobHashesReferencedBy order = blobHashesReferencedBy (ranked graph.nodes.data) ∪
      blobHashesReferencedBy (unranked graph.nodes.data) := by
    ext hash
    simp only [Finset.mem_union, mem_blobHashesReferencedBy, listed.mem_iff, ranked, unranked,
      mem_filter, ← exists_or]
    refine exists_congr fun node => ?_
    by_cases zero : node.transaction.priority = Priority.zero <;> simp [zero]
  rw [counted, all, eq_comm, Finset.union_eq_left]

end

/-- The list and blob caches show what a scan of the stored nodes shows exactly when what
the nodes of priority zero reference, delete and insert makes no difference. -/
theorem list_and_blob_caches_equal_replay_iff (crypto : Crypto) (graph : StateGraph)
    (reached : Reachable crypto (fun _ _ => True) graph) (distinct : Distinct graph.nodes.data)
    (order : List SyncNode) (listed : order.Perm graph.nodes.data) :
    (∀ key, graph.resolveList key = resolveListSeq order key) ∧
        graph.referencedBlobHashes = blobHashesReferencedBy order ↔
      UnrankedIdle graph.nodes.data := by
  have cached := reached.cached
  have item (key : String) (item : ItemId) :
      ((graph.stateCaches.listCache key).item item).visiblePosition =
          (seqItem order key item).visiblePosition ↔
        ((order.flatMap (seqEntries key item)).foldl ListItemCache.enter .default).isVisible =
          ((order.flatMap (listEntries key item)).foldl ListItemCache.enter .default).isVisible := by
    have state : (graph.stateCaches.listCache key).item item =
        (order.flatMap (listEntries key item)).foldl ListItemCache.enter .default :=
      (cached.items key item).trans (listEntries_perm listed.symm distinct key item)
    rw [state, seqItem_eq, eq_comm, ← flatMap_listEntries.2]
    exact (together_foldl _).visiblePosition_iff
  simp only [resolveList_eq_seq_iff cached, item, visible_iff listed, blobs_eq_iff reached listed]
  constructor
  · rintro ⟨lists, blobs⟩
    exact ⟨blobs, fun key item => (lists key item).1, fun key item => (lists key item).2⟩
  · intro idle
    exact ⟨fun key item => ⟨idle.deletes key item, idle.inserts key item⟩, idle.blobs⟩

/-- Two list items and a blob. -/
def listNode : SyncNode :=
  .new Crypto.sample ⟨.padTo 32 [2], 1, 0, [.list (.insert "l" (.padTo 16 [1]) "V"),
    .list (.insert "l" (.padTo 16 [2]) "W"), .map (.setBlob "k" (.padTo 32 [5]))], []⟩

/-- The first item goes. -/
def cutNode : SyncNode :=
  .new Crypto.sample ⟨.padTo 32 [3], 2, 0, [.list (.delete "l" (.padTo 16 [1]))], [listNode.id]⟩

theorem cut_list_equals_replay :
    let graph := (applyRemote Crypto.sample (applyRemote Crypto.sample .empty listNode).1 cutNode).1
    (graph.stateCaches.listCache "l").visible = {toLex ("W", .padTo 16 [2])} ∧
      graph.referencedBlobHashes = {Bytes.padTo 32 [5]} ∧
      (∀ key, graph.resolveList key = resolveListSeq graph.nodes.data key) ∧
      graph.referencedBlobHashes = blobHashesReferencedBy graph.nodes.data := by
  intro graph
  have ranks : unranked graph.nodes.data = [] := by decide
  refine ⟨by decide, by decide, (list_and_blob_caches_equal_replay_iff Crypto.sample graph
    ((Reachable.start.remote listNode none trivial).remote cutNode none trivial)
    (by unfold Distinct; decide) _ (.refl _)).mpr ⟨?_, ?_, ?_⟩⟩
  · rw [ranks]
    exact Finset.empty_subset _
  all_goals
    rintro key item ⟨node, member, -⟩
    rw [ranks] at member
    cases member

/-- An unsigned node of the author zero at clock zero. -/
def zeroNode : SyncNode :=
  .new Crypto.sample ⟨Bytes.zero 32, 0, 0, [.map (.setBlob "k" (.padTo 32 [5]))], []⟩

theorem zero_blob_not_referenced :
    ∃ graph, Reachable Crypto.sample (fun _ _ => True) graph ∧ Distinct graph.nodes.data ∧
      graph.nodes.data = [zeroNode] ∧ graph.referencedBlobHashes = ∅ ∧
      blobHashesReferencedBy graph.nodes.data = {Bytes.padTo 32 [5]} :=
  ⟨_, Reachable.start.remote zeroNode none trivial, by unfold Distinct; decide, by decide, by decide,
    by decide⟩

end StateGraph

end NodalMerge
