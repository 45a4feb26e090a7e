import NodalMerge.Crdt.Graph
import NodalMerge.Library.LastWriter

namespace NodalMerge

open LastWriter List ListCacheState

/-- The candidate an op offers for a map key. -/
def Op.mapWrite (tx : Transaction) (key : String) : Op → Option MapWinner
  | .map op => if op.key = key then some (op.candidate tx) else none
  | _ => none

/-- What a node writes under a map key, in op order. -/
def mapWrites (key : String) (node : SyncNode) : List MapWinner :=
  if node.transaction.priority = Priority.zero then []
  else node.transaction.ops.filterMap (Op.mapWrite node.transaction key)

theorem Op.mapWrite_priority {key : String} {op : Op} (found : op.mapWrite tx key = some write) :
    write.priority = tx.priority := by
  cases op with
  | map op =>
    simp only [Op.mapWrite] at found
    split at found
    · cases found
      cases op <;> rfl
    · cases found
  | list op => cases found
  | text op => cases found

theorem mapWrites_priority (member : write ∈ mapWrites key node) :
    write.priority = node.transaction.priority := by
  unfold mapWrites at member
  split at member
  · simp at member
  · obtain ⟨op, _, found⟩ := mem_filterMap.mp member
    exact Op.mapWrite_priority found

theorem mapWrites_op (member : write ∈ mapWrites key node) :
    ∃ op : MapOp, .map op ∈ node.transaction.ops ∧ op.key = key := by
  unfold mapWrites at member
  split at member
  · simp at member
  · obtain ⟨op, inOps, found⟩ := mem_filterMap.mp member
    cases op with
    | map op =>
      simp only [Op.mapWrite] at found
      split at found
      · rename_i same
        exact ⟨op, inOps, same⟩
      · cases found
    | list op => cases found
    | text op => cases found

theorem lookup_lwwUpdate (cache : HashMap String MapWinner) (key other : String)
    (candidate : MapWinner) :
    (lwwUpdate cache other candidate).lookup key =
      if other = key then keep MapWinner.priority (cache.lookup key) candidate
      else cache.lookup key := by
  unfold lwwUpdate
  by_cases same : other = key
  · subst same
    cases found : cache.lookup other with
    | none => simp [keep]
    | some current =>
      simp only [keep]
      split
      · exact Finmap.lookup_insert _
      · exact found
  · rw [if_neg same]
    split
    · split
      · exact Finmap.lookup_insert_of_ne _ (Ne.symm same)
      · rfl
    · exact Finmap.lookup_insert_of_ne _ (Ne.symm same)

/-- An op-wise change of one cell is a fold over the writes to that cell. -/
theorem foldl_filterMap_elim {Cells State Write : Type} (view : Cells → State)
    (write : Op → Option Write) {step : Cells → Op → Cells} {apply : State → Write → State}
    (stepwise : ∀ cells op, view (step cells op) =
      (write op).elim (view cells) (apply (view cells)))
    (ops : List Op) (cells : Cells) :
    view (ops.foldl step cells) = (ops.filterMap write).foldl apply (view cells) := by
  induction ops generalizing cells with
  | nil => rfl
  | cons op rest ih =>
    rw [foldl_cons, ih, stepwise, filterMap_cons]
    cases write op <;> rfl

namespace StateCaches

/-- A list op touches the list views and the conflict stream only. -/
theorem applyListOp_frame (caches : StateCaches) (tx : Transaction) (op : ListOp) :
    (caches.applyListOp tx op).mapAll = caches.mapAll ∧
      (caches.applyListOp tx op).mapCanonical = caches.mapCanonical ∧
      (caches.applyListOp tx op).blobHashes = caches.blobHashes := by
  simp only [applyListOp, updateListConflictState]
  split
  · cases op <;> exact ⟨rfl, rfl, rfl⟩
  · exact ⟨rfl, rfl, rfl⟩

theorem applyOp_mapAll (tx : Transaction) (canonical : Bool) (caches : StateCaches) (op : Op)
    (key : String) :
    (applyOp tx canonical caches op).mapAll.lookup key =
      (op.mapWrite tx key).elim (caches.mapAll.lookup key)
        (keep MapWinner.priority (caches.mapAll.lookup key)) := by
  cases op with
  | map op =>
    simp only [applyOp, applyMapOp, lookup_lwwUpdate, Op.mapWrite]
    split <;> rfl
  | list op =>
    rw [applyOp, (caches.applyListOp_frame tx op).1]
    rfl
  | text op => rfl

theorem applyOp_mapCanonical (tx : Transaction) (caches : StateCaches) (op : Op) (key : String) :
    (applyOp tx true caches op).mapCanonical.lookup key =
      (op.mapWrite tx key).elim (caches.mapCanonical.lookup key)
        (keep MapWinner.priority (caches.mapCanonical.lookup key)) := by
  cases op with
  | map op =>
    simp only [applyOp, applyMapOp, ↓reduceIte, lookup_lwwUpdate, Op.mapWrite]
    split <;> rfl
  | list op =>
    rw [applyOp, (caches.applyListOp_frame tx op).2.1]
    rfl
  | text op => rfl

theorem applyOp_mapCanonical_local (tx : Transaction) (caches : StateCaches) (op : Op) :
    (applyOp tx false caches op).mapCanonical = caches.mapCanonical := by
  cases op with
  | map op => rfl
  | list op => exact (caches.applyListOp_frame tx op).2.1
  | text op => rfl

theorem updateStateCaches_mapAll (caches : StateCaches) (node : SyncNode) (canonical : Bool)
    (key : String) :
    (caches.updateStateCaches node canonical).mapAll.lookup key =
      (mapWrites key node).foldl (keep MapWinner.priority) (caches.mapAll.lookup key) := by
  unfold updateStateCaches mapWrites
  split
  · rfl
  · exact foldl_filterMap_elim (·.mapAll.lookup key) (Op.mapWrite node.transaction key)
      (fun caches op => applyOp_mapAll node.transaction canonical caches op key) _ caches

theorem updateStateCaches_mapCanonical (caches : StateCaches) (node : SyncNode) (key : String) :
    (caches.updateStateCaches node true).mapCanonical.lookup key =
      (mapWrites key node).foldl (keep MapWinner.priority) (caches.mapCanonical.lookup key) := by
  unfold updateStateCaches mapWrites
  split
  · rfl
  · exact foldl_filterMap_elim (·.mapCanonical.lookup key) (Op.mapWrite node.transaction key)
      (fun caches op => applyOp_mapCanonical node.transaction caches op key) _ caches

theorem updateStateCaches_mapCanonical_local (caches : StateCaches) (node : SyncNode) :
    (caches.updateStateCaches node false).mapCanonical = caches.mapCanonical := by
  unfold updateStateCaches
  split
  · rfl
  · generalize node.transaction.ops = ops
    induction ops generalizing caches with
    | nil => rfl
    | cons op rest ih => rw [foldl_cons, ih, applyOp_mapCanonical_local]

end StateCaches

def Op.blobHash? : Op → Option Hash
  | .map op => op.blobHash?
  | _ => none

def blobWrites (node : SyncNode) : List Hash :=
  if node.transaction.priority = Priority.zero then []
  else node.transaction.ops.filterMap Op.blobHash?

/-- The blob hashes that the ops of a node set. -/
def SyncNode.blobHashes (node : SyncNode) : List Hash :=
  node.transaction.ops.filterMap Op.blobHash?

def blobHashesReferencedBy (nodes : List SyncNode) : Finset Hash :=
  (nodes.flatMap SyncNode.blobHashes).toFinset

theorem StateCaches.updateStateCaches_blobHashes (caches : StateCaches) (node : SyncNode)
    (canonical : Bool) :
    (caches.updateStateCaches node canonical).blobHashes =
      (blobWrites node).foldl (fun hashes hash => insert hash hashes) caches.blobHashes := by
  unfold updateStateCaches blobWrites
  split
  · rfl
  · refine foldl_filterMap_elim (·.blobHashes) Op.blobHash? (fun caches op => ?_) _ caches
    cases op with
    | map op =>
      simp only [applyOp, applyMapOp, Op.blobHash?]
      cases op.blobHash? <;> rfl
    | list op => exact (caches.applyListOp_frame node.transaction op).2.2
    | text op => rfl

def Op.listWrite (key : String) (item : ItemId) : Op → Option ListOp
  | .list op => if op.key = key ∧ op.itemId = item then some op else none
  | _ => none

/-- The ops of a node on one list item. -/
def listWrites (key : String) (item : ItemId) (node : SyncNode) : List ListOp :=
  if node.transaction.priority = Priority.zero then []
  else node.transaction.ops.filterMap (Op.listWrite key item)

def ListCacheState.item (cache : ListCacheState) (item : ItemId) : ListItemCache :=
  (cache.items.lookup item).getD ListItemCache.default

theorem ListCacheState.update_item (cache : ListCacheState) (op : ListOp) (prio : Priority)
    (item : ItemId) :
    (cache.update op prio).item item =
      if op.itemId = item then (cache.item item).applyOp op prio else cache.item item := by
  unfold ListCacheState.item ListCacheState.update
  by_cases same : op.itemId = item
  · subst same
    simp
  · simp [same, Ne.symm same]

/-- The ordered set shows exactly the visible items at their positions. -/
def ListCacheState.Consistent (cache : ListCacheState) : Prop :=
  ∀ position item, toLex (position, item) ∈ cache.visible ↔
    (cache.item item).visiblePosition = some position

theorem ListCacheState.default_consistent : ListCacheState.default.Consistent := by
  intro position item
  simp [ListCacheState.default, ListCacheState.item, ListItemCache.visiblePosition,
    ListItemCache.default, ListItemCache.isVisible]

theorem mem_moveVisible {visible : Finset (FracIdx ×ₗ ItemId)}
    (shown : ∀ position, toLex (position, itemId) ∈ visible ↔ was = some position)
    (position : FracIdx) (item : ItemId) :
    toLex (position, item) ∈ moveVisible visible itemId was now ↔
      if itemId = item then now = some position else toLex (position, item) ∈ visible := by
  unfold moveVisible
  by_cases unmoved : was = now
  · rw [if_pos unmoved]
    split
    · rename_i same
      rw [← same, shown, unmoved]
    · rfl
  · rw [if_neg unmoved]
    by_cases same : itemId = item
    · subst same
      cases was <;> cases now <;> simp_all [eq_comm]
    · cases was <;> cases now <;> simp_all [eq_comm]

theorem ListCacheState.update_consistent {cache : ListCacheState} (consistent : cache.Consistent)
    (op : ListOp) (prio : Priority) : (cache.update op prio).Consistent := by
  intro position item
  rw [update_item]
  refine (mem_moveVisible (fun position => consistent position op.itemId) position item).trans ?_
  split
  · rename_i same
    subst same
    rfl
  · exact consistent position item

namespace StateCaches

def listCache (caches : StateCaches) (key : String) : ListCacheState :=
  (caches.lists.lookup key).getD ListCacheState.default

theorem applyOp_listCache (tx : Transaction) (canonical : Bool) (caches : StateCaches) (op : Op)
    (key : String) :
    (applyOp tx canonical caches op).listCache key = match op with
      | .list op => if op.key = key then (caches.listCache key).update op tx.priority
        else caches.listCache key
      | _ => caches.listCache key := by
  cases op with
  | map op => rfl
  | list op =>
    simp only [applyOp, applyListOp, listCache, updateListCache, lookup_insert_ite]
    by_cases same : op.key = key
    · subst same
      simp
    · simp [same, Ne.symm same]
  | text op => rfl

theorem applyOp_listItem (tx : Transaction) (canonical : Bool) (caches : StateCaches) (op : Op)
    (key : String) (item : ItemId) :
    ((applyOp tx canonical caches op).listCache key).item item =
      (op.listWrite key item).elim ((caches.listCache key).item item)
        (fun write => ((caches.listCache key).item item).applyOp write tx.priority) := by
  rw [applyOp_listCache]
  cases op with
  | map op => rfl
  | list op =>
    simp only [Op.listWrite]
    by_cases sameKey : op.key = key
    · by_cases sameItem : op.itemId = item
      · simp [sameKey, sameItem, update_item]
      · simp [sameKey, sameItem, update_item]
    · simp [sameKey]
  | text op => rfl

theorem updateStateCaches_listItem (caches : StateCaches) (node : SyncNode) (canonical : Bool)
    (key : String) (item : ItemId) :
    ((caches.updateStateCaches node canonical).listCache key).item item =
      (listWrites key item node).foldl
        (fun state write => state.applyOp write node.transaction.priority)
        ((caches.listCache key).item item) := by
  unfold updateStateCaches listWrites
  split
  · rfl
  · refine foldl_filterMap_elim (fun caches => (caches.listCache key).item item)
      (Op.listWrite key item) (fun caches op => ?_) _ caches
    exact applyOp_listItem node.transaction canonical caches op key item

/-- Every list view shows its items as they are. -/
def ListsConsistent (caches : StateCaches) : Prop :=
  ∀ key, (caches.listCache key).Consistent

theorem updateStateCaches_consistent {caches : StateCaches} (consistent : caches.ListsConsistent)
    (node : SyncNode) (canonical : Bool) :
    (caches.updateStateCaches node canonical).ListsConsistent := by
  unfold updateStateCaches
  split
  · exact consistent
  · generalize node.transaction.ops = ops
    induction ops generalizing caches with
    | nil => exact consistent
    | cons op rest ih =>
      refine ih fun key => ?_
      rw [applyOp_listCache]
      cases op with
      | map op => exact consistent key
      | list op =>
        simp only
        split
        · exact update_consistent (consistent key) op _
        · exact consistent key
      | text op => exact consistent key

end StateCaches

end NodalMerge
