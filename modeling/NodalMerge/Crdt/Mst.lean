import Mathlib.Data.List.GetD
import Mathlib.Data.List.Sort
import NodalMerge.Library.DigitTrie
import NodalMerge.Crdt.Encoding

/-! On the wire, paths and ids are hex text; here they stay nibbles and bytes. -/

namespace NodalMerge

open DigitTrie Function List

abbrev Nibble := Fin 16

/-- `blake3::Hasher::new_keyed`, all updates and `finalize`. -/
abbrev KeyedHash := List U8 → List U8 → Hash

def mstLeafKey : List U8 := utf8 "nodalmerge-mst-leaf-000000000000"

def mstInternalKey : List U8 := utf8 "nodalmerge-mst-internal-00000000"

structure MstNode where
  hash : Hash
  children : Nibble → Option Hash
  keys : List NodeId

structure MstNodeWire where
  path : List Nibble
  hash : Hash
  children : Nibble → Option Hash
  keys : List NodeId

/-- The field `nodes` of the source: nibble paths with their nodes. -/
abbrev MerkleSearchTree := HashMap (List Nibble) MstNode

def leafHash (keyed : KeyedHash) (keys : List NodeId) : Hash :=
  keyed mstLeafKey (keys.flatMap Subtype.val)

def internalHash (keyed : KeyedHash) (children : Nibble → Option Hash) : Hash :=
  keyed mstInternalKey
    ((finRange 16).flatMap fun nibble => ((children nibble).getD (Bytes.zero 32)).val)

def nibbleAt (id : NodeId) (depth : Nat) : Nibble :=
  let byte := id.val.getD (depth / 2) 0
  if depth % 2 = 0 then Fin.ofNat 16 (byte.val / 16) else Fin.ofNat 16 byte.val

/-- The ids that continue with the nibble. -/
def group (ids : List NodeId) (depth : Nat) (nibble : Nibble) : List NodeId :=
  ids.filter fun id => nibbleAt id depth = nibble

abbrev BuildTree := List Nibble → List NodeId → MerkleSearchTree → Hash × MerkleSearchTree

/-- One turn of the loop over the groups. -/
def buildChild (build : BuildTree) (path : List Nibble) (ids : List NodeId)
    (state : (Nibble → Option Hash) × MerkleSearchTree) (nibble : Nibble) :
    (Nibble → Option Hash) × MerkleSearchTree :=
  let members := group ids path.length nibble
  if members.isEmpty then state
  else
    let built := build (path ++ [nibble]) members state.2
    (update state.1 nibble (some built.1), built.2)

def insertLeaf (keyed : KeyedHash) (path : List Nibble) (ids : List NodeId)
    (tree : MerkleSearchTree) : Hash × MerkleSearchTree :=
  let hash := leafHash keyed ids
  (hash, tree.insert path ⟨hash, fun _ => none, ids⟩)

/-- `build_recursive`. The first number is how many nibbles are left below the
path; there are none when `path.len() == 64`. -/
def buildRecursive (keyed : KeyedHash) :
    Nat → BuildTree
  | 0, path, sortedIds, tree => insertLeaf keyed path sortedIds tree
  | remaining + 1, path, sortedIds, tree =>
    if sortedIds.length = 1 then insertLeaf keyed path sortedIds tree
    else
      let built := (finRange 16).foldl
        (buildChild (buildRecursive keyed remaining) path sortedIds) (fun _ => none, tree)
      let hash := internalHash keyed built.1
      (hash, built.2.insert path ⟨hash, built.1, []⟩)

def mstDepth : Nat := 64

def fromIds (keyed : KeyedHash) (ids : List NodeId) : MerkleSearchTree :=
  if ids.isEmpty then ∅
  else (buildRecursive keyed mstDepth [] (ids.insertionSort (· ≤ ·)) ∅).2

def getNodeWire (tree : MerkleSearchTree) (path : List Nibble) : Option MstNodeWire :=
  (tree.lookup path).map fun node => ⟨path, node.hash, node.children, node.keys⟩

/-- The node `build_recursive` makes for the ids, apart from the nodes below it. -/
def subtree (keyed : KeyedHash) : Nat → Nat → List NodeId → MstNode
  | 0, _, ids => ⟨leafHash keyed ids, fun _ => none, ids⟩
  | remaining + 1, depth, ids =>
    if ids.length = 1 then ⟨leafHash keyed ids, fun _ => none, ids⟩
    else
      let children nibble :=
        if (group ids depth nibble).isEmpty then none
        else some (subtree keyed remaining (depth + 1) (group ids depth nibble)).hash
      ⟨internalHash keyed children, children, []⟩

/-- The ids of the node that is reached along the nibbles, if there is one. -/
def idsAt : Nat → Nat → List NodeId → List Nibble → Option (List NodeId)
  | _, _, ids, [] => some ids
  | 0, _, _, _ :: _ => none
  | remaining + 1, depth, ids, nibble :: rest =>
    if ids.length = 1 ∨ (group ids depth nibble).isEmpty then none
    else idsAt remaining (depth + 1) (group ids depth nibble) rest

/-- The node at a path in what `build_recursive` adds for the ids. -/
def added (keyed : KeyedHash) (remaining : Nat) (path : List Nibble) (ids : List NodeId)
    (target : List Nibble) : Option MstNode :=
  if path.isPrefixOf target then
    (idsAt remaining path.length ids (target.drop path.length)).map
      (subtree keyed (path.length + remaining - target.length) target.length)
  else none

variable {path : List Nibble} {ids : List NodeId}

theorem added_outside (outside : ¬ path <+: target) :
    added keyed remaining path ids target = none := by
  rw [added, if_neg (by simpa using outside)]

theorem added_append (rest : List Nibble) :
    added keyed remaining path ids (path ++ rest) = (idsAt remaining path.length ids rest).map
      (subtree keyed (remaining - rest.length) (path.length + rest.length)) := by
  rw [added, if_pos (by simp), drop_left, length_append, Nat.add_sub_add_left]

theorem added_self :
    added keyed remaining path ids path = some (subtree keyed remaining path.length ids) := by
  have root : added keyed remaining path ids (path ++ []) = _ := added_append []
  simpa [idsAt] using root

theorem added_child (nibble : Nibble) (rest : List Nibble) :
    added keyed (remaining + 1) path ids (path ++ nibble :: rest) =
      if ids.length = 1 ∨ (group ids path.length nibble).isEmpty then none
      else added keyed remaining (path ++ [nibble]) (group ids path.length nibble)
        (path ++ nibble :: rest) := by
  have regroup : path ++ nibble :: rest = (path ++ [nibble]) ++ rest := by simp
  rw [added_append, idsAt]
  split
  · rfl
  · rw [regroup, added_append, length_append, length_cons, Nat.add_sub_add_right,
      length_singleton, Nat.add_assoc, Nat.add_comm 1]

theorem subtree_single (single : ids.length = 1) :
    subtree keyed remaining path.length ids = ⟨leafHash keyed ids, fun _ => none, ids⟩ := by
  cases remaining <;> simp [subtree, single]

section
variable (leaf : remaining = 0 ∨ ids.length = 1)
include leaf

theorem idsAt_leaf : idsAt remaining depth ids (nibble :: rest) = none := by
  rcases leaf with rfl | single
  · rfl
  · cases remaining with
    | zero => rfl
    | succ remaining => simp [idsAt, single]

theorem added_leaf : added keyed remaining path ids target =
      if target = path then some ⟨leafHash keyed ids, fun _ => none, ids⟩ else none := by
  split
  · rename_i same
    subst same
    rw [added_self]
    rcases leaf with rfl | single
    · rfl
    · rw [subtree_single single]
  · rename_i differs
    rw [added]
    split
    · rename_i below
      obtain ⟨rest, rfl⟩ := isPrefixOf_iff_prefix.mp below
      cases rest with
      | nil => simp at differs
      | cons nibble rest => rw [drop_left, idsAt_leaf leaf, Option.map_none]
    · rfl

theorem lookup_insertLeaf :
    (insertLeaf keyed path ids tree).2.lookup target =
      (added keyed remaining path ids target).or (tree.lookup target) := by
  rw [insertLeaf, lookup_insert_ite, added_leaf leaf]
  split <;> rfl

end

section Children

variable {digest : Nibble → Hash} {below : Nibble → Option MstNode}

theorem buildChild_hash
    (hashes : ∀ nibble tree, (build (path ++ [nibble]) (group ids path.length nibble) tree).1 =
      digest nibble)
    (nibbles : List Nibble) (state : (Nibble → Option Hash) × MerkleSearchTree) (nibble : Nibble) :
    (nibbles.foldl (buildChild build path ids) state).1 nibble =
      if nibble ∈ nibbles ∧ group ids path.length nibble ≠ [] then some (digest nibble)
      else state.1 nibble := by
  induction nibbles generalizing state with
  | nil => simp
  | cons first rest ih =>
    rw [foldl_cons, ih]
    by_cases same : nibble = first
    · subst same
      by_cases empty : group ids path.length nibble = [] <;> simp [buildChild, empty, hashes]
    · by_cases empty : group ids path.length first = [] <;> simp [buildChild, empty, same]

/-- Only the group of `nibble` can add the target. -/
theorem buildChild_lookup (lookups : ∀ nibble tree,
      (build (path ++ [nibble]) (group ids path.length nibble) tree).2.lookup target =
        (below nibble).or (tree.lookup target))
    (others : ∀ other, other ≠ nibble → below other = none) (nibbles : List Nibble)
    (state : (Nibble → Option Hash) × MerkleSearchTree) :
    (nibbles.foldl (buildChild build path ids) state).2.lookup target =
      if nibble ∈ nibbles ∧ group ids path.length nibble ≠ []
      then (below nibble).or (state.2.lookup target) else state.2.lookup target := by
  induction nibbles generalizing state with
  | nil => simp
  | cons first rest ih =>
    rw [foldl_cons, ih]
    by_cases same : nibble = first
    · subst same
      by_cases empty : group ids path.length nibble = []
      · simp [buildChild, empty]
      · have stored : (buildChild build path ids state nibble).2.lookup target =
            (below nibble).or (state.2.lookup target) := by
          rw [buildChild, if_neg (by simpa using empty), lookups]
        rw [stored]
        cases below nibble <;> simp [empty]
    · have silent := others first (Ne.symm same)
      have kept : (buildChild build path ids state first).2.lookup target =
          state.2.lookup target := by
        rw [buildChild]
        split
        · rfl
        · rw [lookups, silent, Option.none_or]
      simp [kept, same]

end Children

theorem subtree_children (several : ids.length ≠ 1) (depth : Nat) (nibble : Nibble) :
    (subtree keyed (remaining + 1) depth ids).children nibble =
      if group ids depth nibble ≠ []
      then some (subtree keyed remaining (depth + 1) (group ids depth nibble)).hash else none := by
  by_cases empty : group ids depth nibble = [] <;> simp [subtree, several, empty]

theorem subtree_eq (several : ids.length ≠ 1) (depth : Nat) :
    subtree keyed (remaining + 1) depth ids =
      ⟨internalHash keyed (subtree keyed (remaining + 1) depth ids).children,
        (subtree keyed (remaining + 1) depth ids).children, []⟩ := by
  rw [subtree, if_neg several]

/-- The hash that is returned, and what is in the map afterwards. -/
theorem buildRecursive_spec (path : List Nibble) (ids : List NodeId) (tree : MerkleSearchTree) :
    (buildRecursive keyed remaining path ids tree).1 =
        (subtree keyed remaining path.length ids).hash ∧
      ∀ target, (buildRecursive keyed remaining path ids tree).2.lookup target =
        (added keyed remaining path ids target).or (tree.lookup target) := by
  induction remaining generalizing path ids tree with
  | zero => exact ⟨rfl, fun target => lookup_insertLeaf (.inl rfl)⟩
  | succ remaining ih =>
    rw [buildRecursive]
    split
    · rename_i single
      exact ⟨by rw [subtree_single single]; rfl, fun target => lookup_insertLeaf (.inr single)⟩
    · rename_i several
      have hashes (nibble tree) := (ih (path ++ [nibble]) (group ids path.length nibble) tree).1
      have lookups (target nibble tree) :=
        (ih (path ++ [nibble]) (group ids path.length nibble) tree).2 target
      have children : ((finRange 16).foldl
          (buildChild (buildRecursive keyed remaining) path ids) (fun _ => none, tree)).1 =
            (subtree keyed (remaining + 1) path.length ids).children := by
        funext nibble
        rw [buildChild_hash hashes, subtree_children several, length_append]
        simp
      dsimp only
      rw [children]
      refine ⟨by rw [subtree_eq several], ?_⟩
      intro target
      rw [lookup_insert_ite]
      split
      · rename_i same
        rw [same, added_self, ← subtree_eq several]
        rfl
      · rename_i below
        by_cases inside : path <+: target
        · obtain ⟨rest, rfl⟩ := inside
          cases rest with
          | nil => simp at below
          | cons nibble rest =>
            have others (other : Nibble) (differs : other ≠ nibble) :
                added keyed remaining (path ++ [other]) (group ids path.length other)
                  (path ++ nibble :: rest) = none := by
              refine added_outside fun within => differs ?_
              rw [prefix_append_right_inj, cons_prefix_cons] at within
              exact within.1
            rw [buildChild_lookup (lookups _) others, added_child]
            by_cases empty : group ids path.length nibble = [] <;> simp [several, empty]
        · have silent (other : Nibble) : added keyed remaining (path ++ [other])
              (group ids path.length other) target = none :=
            added_outside fun within => inside ((prefix_append _ _).trans within)
          have others (other : Nibble) (_ : other ≠ 0) := silent other
          rw [buildChild_lookup (lookups target) others, silent, added_outside inside]
          simp

theorem nibbleAt_high (id : NodeId) (index : Nat) :
    (nibbleAt id (2 * index)).val = (id.val.getD index 0).val / 16 := by
  rw [nibbleAt, Nat.mul_mod_right, if_pos rfl, Nat.mul_div_cancel_left _ (by decide), Fin.val_ofNat]
  omega

theorem nibbleAt_low (id : NodeId) (index : Nat) :
    (nibbleAt id (2 * index + 1)).val = (id.val.getD index 0).val % 16 := by
  have half : (2 * index + 1) / 2 = index := by omega
  rw [nibbleAt, half, if_neg (by omega), Fin.val_ofNat]

theorem route_nibbleAt_injective : Function.Injective (route nibbleAt mstDepth) := by
  intro first second same
  have digits (depth : Nat) (fits : depth < mstDepth) :
      nibbleAt first depth = nibbleAt second depth :=
    map_inj_left.mp same depth (mem_range.mpr fits)
  refine Subtype.ext (ext_getElem (first.property.trans second.property.symm) ?_)
  intro index firstFits secondFits
  have high := congrArg Fin.val (digits (2 * index) (by unfold mstDepth; omega))
  have low := congrArg Fin.val (digits (2 * index + 1) (by unfold mstDepth; omega))
  rw [nibbleAt_high, nibbleAt_high, getD_eq_getElem _ _ firstFits,
    getD_eq_getElem _ _ secondFits] at high
  rw [nibbleAt_low, nibbleAt_low, getD_eq_getElem _ _ firstFits,
    getD_eq_getElem _ _ secondFits] at low
  apply Fin.ext
  omega

/-- The ids below a path, in the order given. -/
def listed (ids : List NodeId) (path : List Nibble) : List NodeId :=
  ids.filter fun id => route nibbleAt path.length id = path

theorem listed_toFinset : (listed ids path).toFinset = under nibbleAt ids.toFinset path := by
  ext id
  simp [listed, mem_under]

theorem length_listed (distinct : ids.Nodup) :
    (listed ids path).length = (under nibbleAt ids.toFinset path).card := by
  rw [← listed_toFinset]
  exact (toFinset_card_of_nodup (distinct.filter _)).symm

theorem group_listed (nibble : Nibble) :
    group (listed ids path) path.length nibble = listed ids (path ++ [nibble]) := by
  rw [group, listed, filter_filter, listed]
  refine filter_congr fun id _ => ?_
  rw [← Bool.decide_and, decide_eq_decide, route_eq_child, and_comm]

theorem idsAt_child (depth : Nat) (rest : List Nibble) (nibble : Nibble) :
    idsAt remaining depth ids (rest ++ [nibble]) =
      (idsAt remaining depth ids rest).bind fun above =>
        if remaining ≤ rest.length ∨ above.length = 1 ∨
          (group above (depth + rest.length) nibble).isEmpty then none
        else some (group above (depth + rest.length) nibble) := by
  induction rest generalizing remaining depth ids with
  | nil =>
    cases remaining <;> simp [idsAt]
  | cons first rest ih =>
    cases remaining with
    | zero => rfl
    | succ remaining =>
      rw [cons_append, idsAt, idsAt]
      split
      · rfl
      · simp only [ih, length_cons, Nat.add_le_add_iff_right, Nat.add_assoc, Nat.add_comm 1]

theorem length_lt_of_branching {keys : Finset NodeId}
    (branching : 2 ≤ (under nibbleAt keys path).card) : path.length < mstDepth := by
  by_contra deep
  have alone : (under nibbleAt keys path).card ≤ 1 :=
    card_under_le_one route_nibbleAt_injective (Nat.le_of_not_lt deep)
  omega

theorem idsAt_eq_some_iff (distinct : ids.Nodup) (some : ids ≠ []) :
    idsAt mstDepth 0 ids path = .some found ↔
      Placed nibbleAt ids.toFinset path ∧ listed ids path = found := by
  induction path using reverseRecOn generalizing found with
  | nil => simp [idsAt, placed_nil, listed, route, some]
  | append_singleton path nibble ih =>
    rw [idsAt_child, Option.bind_eq_some_iff, placed_child, ← length_listed distinct,
      ← listed_toFinset, toFinset_nonempty_iff]
    constructor
    · rintro ⟨above, reached, kept⟩
      obtain ⟨placed, rfl⟩ := ih.mp reached
      have occupied := Finset.card_pos.mpr placed.occupied
      rw [← length_listed distinct] at occupied
      split at kept
      · cases kept
      · rename_i inner
        rw [Nat.zero_add, group_listed, List.isEmpty_iff] at inner
        rw [Nat.zero_add, group_listed] at kept
        exact ⟨⟨by omega, fun empty => inner (.inr (.inr empty))⟩, Option.some.inj kept⟩
    · rintro ⟨⟨branching, occupied⟩, rfl⟩
      rw [length_listed distinct] at branching
      have short := length_lt_of_branching branching
      refine ⟨listed ids path, ih.mpr ⟨placed_of_branching branching, rfl⟩, ?_⟩
      rw [← length_listed distinct] at branching
      rw [Nat.zero_add, group_listed, if_neg]
      rintro (deep | single | empty)
      · omega
      · omega
      · exact occupied (List.isEmpty_iff.mp empty)

section Nodes

variable {members : Finset NodeId} (listing : Enumeration members)

def sortedIds (listing : Enumeration members) : List NodeId := listing.toList.insertionSort (· ≤ ·)

theorem sortedIds_nodup : (sortedIds listing).Nodup :=
  (perm_insertionSort _ _).nodup_iff.mpr listing.nodup

theorem sortedIds_toFinset : (sortedIds listing).toFinset = members :=
  (toFinset_eq_of_perm _ _ (perm_insertionSort _ _)).trans listing.covers

theorem lookup_fromIds :
    (fromIds keyed listing.toList).lookup path = some node ↔
      Placed nibbleAt members path ∧ subtree keyed (mstDepth - path.length) path.length
        (listed (sortedIds listing) path) = node := by
  rw [fromIds]
  split
  · rename_i empty
    have none : members = ∅ := by simpa [List.isEmpty_iff.mp empty] using listing.covers.symm
    constructor
    · intro found
      simp at found
    · rintro ⟨placed, -⟩
      have occupied := placed.occupied.mono under_subset
      simp [none] at occupied
  · rename_i listed
    have nonempty : sortedIds listing ≠ [] := by
      rw [sortedIds, ← length_pos_iff, length_insertionSort, length_pos_iff]
      simpa using listed
    have root : added keyed mstDepth [] (sortedIds listing) ([] ++ path) = _ := added_append path
    rw [nil_append, length_nil, Nat.zero_add] at root
    change (buildRecursive keyed mstDepth [] (sortedIds listing) ∅).2.lookup path = some node ↔ _
    rw [(buildRecursive_spec _ _ _).2, root, Finmap.lookup_empty, Option.or_none,
      Option.map_eq_some_iff]
    simp only [idsAt_eq_some_iff (sortedIds_nodup listing) nonempty, sortedIds_toFinset]
    constructor
    · rintro ⟨ids, ⟨placed, rfl⟩, built⟩
      exact ⟨placed, built⟩
    · rintro ⟨placed, built⟩
      exact ⟨_, ⟨placed, rfl⟩, built⟩

theorem exists_lookup (keyed : KeyedHash) (placed : Placed nibbleAt members path) :
    ∃ node, (fromIds keyed listing.toList).lookup path = some node :=
  ⟨_, (lookup_fromIds listing).mpr ⟨placed, rfl⟩⟩

theorem length_sortedIds :
    (listed (sortedIds listing) path).length = (under nibbleAt members path).card := by
  rw [length_listed (sortedIds_nodup listing), sortedIds_toFinset]

theorem mem_sortedIds {id : NodeId} :
    id ∈ listed (sortedIds listing) path ↔ id ∈ under nibbleAt members path := by
  rw [← mem_toFinset, listed_toFinset, sortedIds_toFinset]

theorem lookup_eq_none : (fromIds keyed listing.toList).lookup path = none ↔
    ¬ Placed nibbleAt members path := by
  rw [Option.eq_none_iff_forall_ne_some]
  constructor
  · intro missing placed
    exact missing _ ((lookup_fromIds listing).mpr ⟨placed, rfl⟩)
  · intro unplaced node found
    exact unplaced ((lookup_fromIds listing).mp found).1

theorem sortedIds_congr {otherListing : Enumeration others}
    (same : under nibbleAt members path = under nibbleAt others path) :
    listed (sortedIds listing) path = listed (sortedIds otherListing) path := by
  have arranged :
      (listed (sortedIds listing) path).Perm (listed (sortedIds otherListing) path) := by
    refine (perm_ext_iff_of_nodup ?_ ?_).mpr fun id => ?_
    · exact (sortedIds_nodup listing).filter _
    · exact (sortedIds_nodup otherListing).filter _
    · rw [mem_sortedIds, mem_sortedIds, same]
  exact arranged.eq_of_pairwise' ((pairwise_insertionSort _ _).filter _)
    ((pairwise_insertionSort _ _).filter _)

variable {listing}

/-- A node is the leaf of a single id or branches on the next nibble. -/
theorem node_cases (found : (fromIds keyed listing.toList).lookup path = some node) :
    ((under nibbleAt members path).card = 1 ∧ node =
        ⟨leafHash keyed (listed (sortedIds listing) path), fun _ => none,
          listed (sortedIds listing) path⟩) ∨
      (2 ≤ (under nibbleAt members path).card ∧
        node = subtree keyed (mstDepth - (path.length + 1) + 1) path.length
          (listed (sortedIds listing) path)) := by
  obtain ⟨placed, rfl⟩ := (lookup_fromIds listing).mp found
  have occupied := Finset.card_pos.mpr placed.occupied
  by_cases single : (under nibbleAt members path).card = 1
  · exact .inl ⟨single, subtree_single ((length_sortedIds listing).trans single)⟩
  · have branching : 2 ≤ (under nibbleAt members path).card := by omega
    have short := length_lt_of_branching branching
    exact .inr ⟨branching, by congr 1; omega⟩

theorem listed_several (branching : 2 ≤ (under nibbleAt members path).card) :
    (listed (sortedIds listing) path).length ≠ 1 := by
  rw [length_sortedIds]
  omega

section
variable (found : (fromIds keyed listing.toList).lookup path = some node)
include found

/-- A node lists the hashes of the nodes below it. -/
theorem children_eq (nibble : Nibble) : node.children nibble =
      ((fromIds keyed listing.toList).lookup (path ++ [nibble])).map MstNode.hash := by
  have child : listed (sortedIds listing) (path ++ [nibble]) ≠ [] ↔
      (under nibbleAt members (path ++ [nibble])).Nonempty := by
    rw [← length_pos_iff, length_sortedIds, Finset.card_pos]
  obtain ⟨single, rfl⟩ | ⟨branching, rfl⟩ := node_cases found
  · have below : ¬ Placed nibbleAt members (path ++ [nibble]) := by
      rw [placed_child]
      omega
    rw [(lookup_eq_none listing).mpr below, Option.map_none]
  · rw [subtree_children (listed_several branching), group_listed]
    split
    · rename_i occupied
      have below := placed_child.mpr ⟨branching, child.mp occupied⟩
      rw [(lookup_fromIds listing).mpr ⟨below, rfl⟩, Option.map_some, length_append,
        length_singleton]
    · rename_i empty
      have below : ¬ Placed nibbleAt members (path ++ [nibble]) :=
        fun placed => empty (child.mpr placed.occupied)
      rw [(lookup_eq_none listing).mpr below, Option.map_none]

/-- Only a node with a single id carries it. -/
theorem mem_keys {id : NodeId} :
    id ∈ node.keys ↔ (under nibbleAt members path).card = 1 ∧ id ∈ under nibbleAt members path := by
  obtain ⟨single, rfl⟩ | ⟨branching, rfl⟩ := node_cases found
  · simp only [mem_sortedIds, single, true_and]
  · rw [subtree_eq (listed_several branching)]
    simp only [not_mem_nil, false_iff]
    omega

/-- The hash of a node depends only on the ids below it. -/
theorem hash_congr {otherListing : Enumeration others}
    (otherFound : (fromIds keyed otherListing.toList).lookup path = some other)
    (same : under nibbleAt members path = under nibbleAt others path) : node.hash = other.hash := by
  obtain ⟨-, rfl⟩ := (lookup_fromIds listing).mp found
  obtain ⟨-, rfl⟩ := (lookup_fromIds otherListing).mp otherFound
  rw [sortedIds_congr listing same]

end

end Nodes

end NodalMerge
