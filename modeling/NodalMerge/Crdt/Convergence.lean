import NodalMerge.Crdt.Network
import NodalMerge.Crdt.Views
import NodalMerge.Library.Confluence

namespace NodalMerge

open Confluence LastWriter List MemoryNodeStore

namespace ListItemCache

/-- Take a position when its priority is strictly higher. -/
def place (item : ListItemCache) (position : FracIdx) (prio : Priority) : ListItemCache :=
  if item.posPriority < prio then { item with position := some position, posPriority := prio }
  else item

theorem applyOp_eq (item : ListItemCache) (op : ListOp) (prio : Priority) :
    item.applyOp op prio = match op with
      | .insert _ _ position => { item.place position prio with sawInsert := true }
      | .move _ _ position => item.place position prio
      | .delete _ _ => { item with deleted := true } := by
  cases op with
  | insert key id position =>
    simp only [applyOp, place]
    split <;> rfl
  | delete key id => rfl
  | move key id position => rfl

theorem place_comm (distinct : prio ≠ other) (item : ListItemCache) (position rival : FracIdx) :
    (item.place position prio).place rival other = (item.place rival other).place position prio := by
  unfold place
  rcases lt_or_gt_of_ne distinct with less | greater
  · by_cases first : item.posPriority < prio
    · have second := first.trans less
      simp [first, second, less, less.not_gt]
    · by_cases second : item.posPriority < other
      · simp [first, second, less.not_gt]
      · simp [first, second]
  · by_cases second : item.posPriority < other
    · have first := second.trans greater
      simp [first, second, greater, greater.not_gt]
    · by_cases first : item.posPriority < prio
      · simp [first, second, greater.not_gt]
      · simp [first, second]

theorem place_sawInsert (item : ListItemCache) (position : FracIdx) (prio : Priority) :
    { item with sawInsert := true }.place position prio =
      { item.place position prio with sawInsert := true } := by
  unfold place
  split <;> rfl

theorem place_deleted (item : ListItemCache) (position : FracIdx) (prio : Priority) :
    { item with deleted := true }.place position prio =
      { item.place position prio with deleted := true } := by
  unfold place
  split <;> rfl

/-- Ops of different transactions on one item commute. -/
theorem applyOp_comm (distinct : prio ≠ other) (item : ListItemCache) (first second : ListOp) :
    (item.applyOp first prio).applyOp second other =
      (item.applyOp second other).applyOp first prio := by
  simp only [applyOp_eq]
  cases first <;> cases second <;>
    simp only [place_sawInsert, place_deleted, place_comm distinct]

end ListItemCache

/-- The ops of a node on one list item, under the node's priority. -/
def listEntries (key : String) (item : ItemId) (node : SyncNode) : List (ListOp × Priority) :=
  (listWrites key item node).map fun op => (op, node.transaction.priority)

def ListItemCache.enter (item : ListItemCache) (entry : ListOp × Priority) : ListItemCache :=
  item.applyOp entry.1 entry.2

theorem listEntries_priority (member : entry ∈ listEntries key item node) :
    entry.2 = node.transaction.priority := by
  obtain ⟨op, _, rfl⟩ := mem_map.mp member
  rfl

namespace Core

/-- The cached views show the stored nodes. -/
structure Cached (core : Core) : Prop where
  map : ∀ key, core.stateCaches.mapAll.lookup key =
    winner MapWinner.priority (core.nodes.data.flatMap (mapWrites key))
  blobs : core.stateCaches.blobHashes =
    (core.nodes.data.flatMap blobWrites).foldl (fun hashes hash => insert hash hashes) ∅
  items : ∀ key item, (core.stateCaches.listCache key).item item =
    (core.nodes.data.flatMap (listEntries key item)).foldl ListItemCache.enter .default
  consistent : core.stateCaches.ListsConsistent

theorem Cached.empty : StateGraph.empty.core.Cached where
  map _ := rfl
  blobs := rfl
  items _ _ := rfl
  consistent _ := ListCacheState.default_consistent

theorem Cached.step {crypto : Crypto} {core after : Core} (cached : core.Cached)
    (step : Step crypto core after) : after.Cached := by
  cases step with
  | advance forward bounded => exact ⟨cached.map, cached.blobs, cached.items, cached.consistent⟩
  | @store _ node canonical parents fresh hashed bounded =>
    have stored : (core.store node canonical).nodes.data = core.nodes.data ++ [node] :=
      put_fresh fresh
    refine ⟨?_, ?_, ?_, ?_⟩
    · intro key
      rw [stored, flatMap_append, winner_append, flatMap_singleton, ← cached.map key]
      exact core.stateCaches.updateStateCaches_mapAll node canonical key
    · rw [stored, flatMap_append, foldl_append, flatMap_singleton, ← cached.blobs]
      exact core.stateCaches.updateStateCaches_blobHashes node canonical
    · intro key item
      rw [stored, flatMap_append, foldl_append, flatMap_singleton,
        ← cached.items key item, listEntries, foldl_map]
      exact core.stateCaches.updateStateCaches_listItem node canonical key item
    · exact StateCaches.updateStateCaches_consistent cached.consistent node canonical

theorem Cached.steps {after : Core} (cached : core.Cached) (steps : Steps crypto core after) :
    after.Cached := by
  induction steps with
  | refl => exact cached
  | tail _ last ih => exact ih.step last

end Core

namespace StateGraph

theorem Reachable.cached {Allowed : ∀ graph : StateGraph, Call crypto graph → Prop}
    (reached : Reachable crypto Allowed graph) : graph.core.Cached := by
  induction reached with
  | start => exact .empty
  | call reached _ ran ih => exact ih.steps (Call.run_steps reached.dag ran)

/-- Stored nodes are told apart by their priorities. -/
def Distinct (nodes : List SyncNode) : Prop :=
  nodes.Pairwise fun first second => first.transaction.priority ≠ second.transaction.priority

variable {nodes : List SyncNode}

theorem winner_mapWrites_perm (same : nodes.Perm others)
    (distinct : Distinct nodes) (key : String) :
    winner MapWinner.priority (nodes.flatMap (mapWrites key)) =
      winner MapWinner.priority (others.flatMap (mapWrites key)) := by
  refine foldl_flatMap_perm (fun differ => Ne.symm differ) ?_ same distinct none
  intro first second differ one inFirst two inSecond current
  apply keep_comm
  rw [mapWrites_priority inFirst, mapWrites_priority inSecond]
  exact differ

theorem listEntries_perm (same : nodes.Perm others)
    (distinct : Distinct nodes) (key : String) (item : ItemId) :
    (nodes.flatMap (listEntries key item)).foldl ListItemCache.enter .default =
      (others.flatMap (listEntries key item)).foldl ListItemCache.enter .default := by
  refine foldl_flatMap_perm (fun differ => Ne.symm differ) ?_ same distinct _
  intro first second differ one inFirst two inSecond current
  apply ListItemCache.applyOp_comm
  rw [listEntries_priority inFirst, listEntries_priority inSecond]
  exact differ

theorem resolveList_eq (graph : StateGraph) (key : String) :
    graph.resolveList key = (graph.stateCaches.listCache key).visible.sort.map fun entry =>
      ((ofLex entry).2, (ofLex entry).1) := by
  unfold resolveList StateCaches.listCache
  cases graph.stateCaches.lists.lookup key with
  | none => simp [ListCacheState.default]
  | some cache => rfl

/-- Two graphs that store the same nodes in any order show the same views. -/
theorem views_eq_of_perm {first second : StateGraph} (cached : first.core.Cached)
    (otherCached : second.core.Cached) (same : first.nodes.data.Perm second.nodes.data)
    (distinct : Distinct first.nodes.data) :
    first.resolve = second.resolve ∧ first.resolveWithMeta = second.resolveWithMeta ∧
      (∀ key, first.resolveList key = second.resolveList key) ∧
      first.referencedBlobHashes = second.referencedBlobHashes := by
  have maps (key : String) : first.stateCaches.mapAll.lookup key =
      second.stateCaches.mapAll.lookup key :=
    calc first.stateCaches.mapAll.lookup key
      _ = winner MapWinner.priority (first.nodes.data.flatMap (mapWrites key)) := cached.map key
      _ = winner MapWinner.priority (second.nodes.data.flatMap (mapWrites key)) :=
        winner_mapWrites_perm same distinct key
      _ = second.stateCaches.mapAll.lookup key := (otherCached.map key).symm
  have items (key : String) (item : ItemId) : (first.stateCaches.listCache key).item item =
      (second.stateCaches.listCache key).item item :=
    calc (first.stateCaches.listCache key).item item
      _ = (first.nodes.data.flatMap (listEntries key item)).foldl ListItemCache.enter .default :=
        cached.items key item
      _ = (second.nodes.data.flatMap (listEntries key item)).foldl ListItemCache.enter .default :=
        listEntries_perm same distinct key item
      _ = (second.stateCaches.listCache key).item item := (otherCached.items key item).symm
  refine ⟨?_, ?_, ?_, ?_⟩
  · funext key
    rw [resolve, resolve, maps]
  · funext key
    rw [resolveWithMeta, resolveWithMeta, maps]
  · intro key
    have visible : (first.stateCaches.listCache key).visible =
        (second.stateCaches.listCache key).visible := by
      ext entry
      have shown := cached.consistent key (ofLex entry).1 (ofLex entry).2
      have otherShown := otherCached.consistent key (ofLex entry).1 (ofLex entry).2
      have moved : (first.core.stateCaches.listCache key).item (ofLex entry).2 =
          (second.core.stateCaches.listCache key).item (ofLex entry).2 := items key _
      rw [moved] at shown
      exact shown.trans otherShown.symm
    rw [resolveList_eq, resolveList_eq, visible]
  · refine cached.blobs.trans (Eq.trans ?_ otherCached.blobs.symm)
    refine foldl_flatMap_perm (fun differ => Ne.symm differ) ?_ same distinct _
    intro first second _ one _ two _ hashes
    exact Finset.insert_comm two one hashes

end StateGraph

theorem mem_foldl_insert {Item : Type} [DecidableEq Item] {entries : List Item}
    {start : Finset Item} {item : Item} :
    item ∈ entries.foldl (fun found entry => insert entry found) start ↔
      item ∈ start ∨ item ∈ entries := by
  induction entries generalizing start with
  | nil => simp
  | cons head rest ih =>
    rw [foldl_cons, ih, Finset.mem_insert, mem_cons]
    tauto

/-- A graph knows the hashes of its nodes, but for those of the lowest priority. -/
theorem mem_referencedBlobHashes {hash : Hash}
    (reached : StateGraph.Reachable crypto (fun _ _ => True) graph) :
    hash ∈ graph.referencedBlobHashes ↔ ∃ node ∈ graph.nodes.data,
      node.transaction.priority ≠ Priority.zero ∧ hash ∈ node.blobHashes := by
  have writes (node : SyncNode) : hash ∈ blobWrites node ↔
      node.transaction.priority ≠ Priority.zero ∧ hash ∈ node.blobHashes := by
    unfold blobWrites
    split
    · simp_all
    · rename_i counted
      exact (and_iff_right counted).symm
  have blobs : graph.referencedBlobHashes =
      (graph.nodes.data.flatMap blobWrites).foldl (fun hashes hash => insert hash hashes) ∅ :=
    reached.cached.blobs
  rw [blobs, mem_foldl_insert, mem_flatMap]
  simp [writes]

theorem mem_blobHashesReferencedBy {hash : Hash} :
    hash ∈ blobHashesReferencedBy nodes ↔ ∃ node ∈ nodes, hash ∈ node.blobHashes := by
  rw [blobHashesReferencedBy, mem_toFinset, mem_flatMap]

namespace World

open StateGraph

variable {crypto : Crypto} {key : Peer → crypto.SigningKey}

/-- Peers with the same ids hold the same nodes, in some order. -/
theorem Sound.perm_of_ids (sound : Sound crypto key world)
    (collisionFree : crypto.CollisionFree world.transactions)
    (dag : ∀ peer, (world.graph peer).core.Dag crypto)
    (same : ∀ id, (world.graph first).nodes.contains id = true ↔
      (world.graph second).nodes.contains id = true) :
    (world.graph first).nodes.data.Perm (world.graph second).nodes.data := by
  have holds {one two : Peer} (ids : ∀ id, (world.graph one).nodes.contains id = true →
      (world.graph two).nodes.contains id = true) :
      ∀ node ∈ (world.graph one).nodes.data, node ∈ (world.graph two).nodes.data := by
    intro node member
    have stored := ids node.id
      (contains_iff.mpr (mem_map.mpr ⟨node, member, rfl⟩))
    obtain ⟨copy, present, sameId⟩ :=
      mem_map.mp (contains_iff.mp stored)
    have equal := sound.eq_of_id collisionFree (sound.known two copy present)
      (sound.known one node member) ((dag two).hashed copy present) ((dag one).hashed node member)
      sameId
    rw [← equal]
    exact present
  have nodup (peer : Peer) : (world.graph peer).nodes.data.Nodup :=
    (dag peer).linked.nodup.of_map _
  refine (perm_ext_iff_of_nodup (nodup first) (nodup second)).mpr fun node => ?_
  exact ⟨holds (fun id => (same id).mp) node, holds (fun id => (same id).mpr) node⟩

theorem Sound.distinct_stored (sound : Sound crypto key world)
    (dag : (world.graph peer).core.Dag crypto) : Distinct (world.graph peer).nodes.data := by
  have nodup : (world.graph peer).nodes.data.Nodup := dag.linked.nodup.of_map _
  refine List.Pairwise.imp_of_mem ?_ nodup
  intro first second inFirst inSecond differ same
  exact differ (sound.distinct first (sound.known peer first inFirst) second
    (sound.known peer second inSecond) same)

/-- Peers with distinct keys that hold the same node ids show the same maps,
lists and blob references, whatever the order of writes and deliveries. -/
theorem peers_converge [DecidableEq Peer] (crypto : Crypto) (key : Peer → crypto.SigningKey)
    (injective : Function.Injective fun peer => crypto.verifyingKey (key peer))
    (world : World Peer) (run : Run crypto key (fun _ _ => True) world)
    (collisionFree : crypto.CollisionFree world.transactions) (first second : Peer)
    (same : ∀ id, (world.graph first).nodes.contains id = true ↔
      (world.graph second).nodes.contains id = true) :
    (world.graph first).resolve = (world.graph second).resolve ∧
      (world.graph first).resolveWithMeta = (world.graph second).resolveWithMeta ∧
      (∀ listKey, (world.graph first).resolveList listKey =
        (world.graph second).resolveList listKey) ∧
      (world.graph first).referencedBlobHashes = (world.graph second).referencedBlobHashes := by
  have sound := run.sound injective
  have dag (peer : Peer) := (run.reachable peer).dag
  exact views_eq_of_perm (run.reachable first).cached (run.reachable second).cached
    (sound.perm_of_ids collisionFree dag same) (sound.distinct_stored (dag first))

theorem sampleShared_converges :
    (sampleShared.graph true).resolve "k" = some [7] ∧
      (sampleShared.graph true).resolve = (sampleShared.graph false).resolve :=
  ⟨by decide, (peers_converge Crypto.sample sampleKeys sampleKeys_injective sampleShared
    ((sampleWritten_run trivial).deliver false sampleNode (.head _) trivial)
    sampleShared_collisionFree true false
    (fun _ => Iff.rfl)).1⟩

end World

end NodalMerge
