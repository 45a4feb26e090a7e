import NodalMerge.Crdt.Mst

namespace NodalMerge

open DigitTrie List
open Option (map_eq_none_iff map_some map_eq_some_iff)
open Finset (card_pos card_le_card mem_sdiff)

/-- `children.is_empty()`. -/
def MstNodeWire.isLeaf (node : MstNodeWire) : Bool :=
  (finRange 16).all fun nibble => (node.children nibble).isNone

structure Report where
  nextPaths : List (List Nibble)
  onlyMine : List NodeId
  onlyTheirs : List NodeId

namespace Report

def leafDiff (mine theirs : List NodeId) : Report where
  nextPaths := []
  onlyMine := mine.filter fun key => !theirs.contains key
  onlyTheirs := theirs.filter fun key => !mine.contains key

def concat (reports : List Report) : Report where
  nextPaths := reports.flatMap nextPaths
  onlyMine := reports.flatMap onlyMine
  onlyTheirs := reports.flatMap onlyTheirs

end Report

/-- The keys of a node that may be missing. -/
def wireKeys (node : Option MstNodeWire) : List NodeId := (node.map MstNodeWire.keys).getD []

/-- One turn of the loop over the nibbles. -/
def compareChild (myMst : MerkleSearchTree) (serverNodes : List MstNodeWire)
    (theirNode : MstNodeWire) (nibble : Nibble) : Report :=
  let myNode := getNodeWire myMst theirNode.path
  let myChildHash := myNode.bind fun node => node.children nibble
  let theirChildHash := theirNode.children nibble
  if myChildHash = theirChildHash then .concat []
  else
    let childPath := theirNode.path ++ [nibble]
    let theirChildNode := serverNodes.find? fun node => node.path = childPath
    let myChildNode := getNodeWire myMst childPath
    let theirHasChildren := theirChildNode.any fun node => !node.isLeaf
    let myHasChildren := myChildNode.any fun node => !node.isLeaf
    if !theirHasChildren && !myHasChildren then
      .leafDiff (wireKeys myChildNode) (wireKeys theirChildNode)
    else ⟨[childPath], [], []⟩

/-- The loop body for one node of the response. -/
def compareNode (myMst : MerkleSearchTree) (serverNodes : List MstNodeWire)
    (theirNode : MstNodeWire) : Report :=
  let myNode := getNodeWire myMst theirNode.path
  if myNode.map MstNodeWire.hash = some theirNode.hash then .concat []
  else
    .concat ((finRange 16).map (compareChild myMst serverNodes theirNode) ++
      if theirNode.isLeaf then [.leafDiff (wireKeys myNode) theirNode.keys] else [])

/-- `sort` and `dedup`. -/
def sortDedup {α : Type} [LinearOrder α] (items : List α) : List α :=
  (items.insertionSort (· ≤ ·)).dedup

def mstProcessResponse (myMst : MerkleSearchTree) (serverNodes : List MstNodeWire) : Report :=
  let all := Report.concat (serverNodes.map (compareNode myMst serverNodes))
  ⟨sortDedup all.nextPaths, sortDedup all.onlyMine, sortDedup all.onlyTheirs⟩

/-- The server's answer to an `mst-request`. -/
def answerPaths (theirMst : MerkleSearchTree) (paths : List (List Nibble)) : List MstNodeWire :=
  paths.filterMap (getNodeWire theirMst)

/-- What all rounds of a descent reported together. -/
structure Diff where
  onlyMine : List NodeId
  onlyTheirs : List NodeId
  deriving DecidableEq

/-- Requests and responses until there are no next paths, in at most the given
number of rounds. -/
def descend (myMst theirMst : MerkleSearchTree) : Nat → List (List Nibble) → Option Diff
  | _, [] => some ⟨[], []⟩
  | 0, _ :: _ => none
  | rounds + 1, paths =>
    let report := mstProcessResponse myMst (answerPaths theirMst paths)
    (descend myMst theirMst rounds report.nextPaths).map fun rest =>
      ⟨report.onlyMine ++ rest.onlyMine, report.onlyTheirs ++ rest.onlyTheirs⟩

/-- The descent from the root path. -/
def reconcile (myMst theirMst : MerkleSearchTree) (rounds : Nat) : Option Diff :=
  descend myMst theirMst rounds [[]]

inductive Side where
  | mine
  | theirs

def Report.only (report : Report) : Side → List NodeId
  | .mine => report.onlyMine
  | .theirs => report.onlyTheirs

def Diff.only (diff : Diff) : Side → List NodeId
  | .mine => diff.onlyMine
  | .theirs => diff.onlyTheirs

/-- The ids only one side holds. -/
def onlyOn (mine theirs : Finset NodeId) : Side → Finset NodeId
  | .mine => mine \ theirs
  | .theirs => theirs \ mine

section Nodes

variable {keyed : KeyedHash} {mine theirs : Finset NodeId} {myIds : Enumeration mine}
  {theirIds : Enumeration theirs} {id : NodeId}

/-- The tree over the ids has a leaf for the id at the path. -/
structure LeafAt (ids : Finset NodeId) (path : List Nibble) (id : NodeId) : Prop where
  placed : Placed nibbleAt ids path
  single : (under nibbleAt ids path).card = 1
  member : id ∈ under nibbleAt ids path

/-- The trees over two sets of ids agree at the path. -/
structure TreesAgree (mine theirs : Finset NodeId) (path : List Nibble) : Prop where
  placed : Placed nibbleAt mine path ↔ Placed nibbleAt theirs path
  same : Placed nibbleAt mine path → under nibbleAt mine path = under nibbleAt theirs path

/-- Nodes at one path of the two trees have the same hash only if they cover
the same ids. -/
def HashesApart (keyed : KeyedHash) (myIds : Enumeration mine) (theirIds : Enumeration theirs) :
    Prop :=
  ∀ path myNode theirNode, (fromIds keyed myIds.toList).lookup path = some myNode →
    (fromIds keyed theirIds.toList).lookup path = some theirNode →
    myNode.hash = theirNode.hash → under nibbleAt mine path = under nibbleAt theirs path

theorem hash_eq_iff (apart : HashesApart keyed myIds theirIds) :
    ((fromIds keyed myIds.toList).lookup path).map MstNode.hash =
        ((fromIds keyed theirIds.toList).lookup path).map MstNode.hash ↔
      TreesAgree mine theirs path := by
  constructor
  · intro same
    cases myFound : (fromIds keyed myIds.toList).lookup path with
    | none =>
      rw [myFound, eq_comm, Option.map_none, map_eq_none_iff, lookup_eq_none] at same
      have unplaced := (lookup_eq_none myIds).mp myFound
      exact ⟨iff_of_false unplaced same, fun placed => absurd placed unplaced⟩
    | some myNode =>
      rw [myFound, eq_comm, map_some, map_eq_some_iff] at same
      obtain ⟨theirNode, theirFound, hash⟩ := same
      have myPlaced := ((lookup_fromIds myIds).mp myFound).1
      have theirPlaced := ((lookup_fromIds theirIds).mp theirFound).1
      exact ⟨iff_of_true myPlaced theirPlaced,
        fun _ => apart path _ _ myFound theirFound hash.symm⟩
  · intro agree
    by_cases placed : Placed nibbleAt mine path
    · obtain ⟨myNode, myFound⟩ := exists_lookup myIds keyed placed
      obtain ⟨theirNode, theirFound⟩ := exists_lookup theirIds keyed (agree.placed.mp placed)
      rw [myFound, theirFound, map_some, map_some, Option.some_inj]
      exact hash_congr myFound theirFound (agree.same placed)
    · rw [(lookup_eq_none myIds).mpr placed,
        (lookup_eq_none theirIds).mpr fun other => placed (agree.placed.mpr other)]

theorem childHash_eq : ((getNodeWire (fromIds keyed myIds.toList) path).bind fun node =>
      node.children nibble) =
    ((fromIds keyed myIds.toList).lookup (path ++ [nibble])).map MstNode.hash := by
  cases found : (fromIds keyed myIds.toList).lookup path with
  | some node => simpa [getNodeWire, found] using children_eq found nibble
  | none =>
    have unplaced : ¬ Placed nibbleAt mine (path ++ [nibble]) := fun placed =>
      (lookup_eq_none myIds).mp found (placed_of_branching (placed_child.mp placed).1)
    rw [(lookup_eq_none myIds).mpr unplaced]
    simp [getNodeWire, found]

theorem mem_wireKeys : id ∈ wireKeys (getNodeWire (fromIds keyed myIds.toList) path) ↔
    LeafAt mine path id := by
  cases found : (fromIds keyed myIds.toList).lookup path with
  | none =>
    have unplaced := (lookup_eq_none myIds).mp found
    have leafless : ¬ LeafAt mine path id := fun leaf => unplaced leaf.placed
    simpa [wireKeys, getNodeWire, found] using leafless
  | some node =>
    have placed := ((lookup_fromIds myIds).mp found).1
    simp only [wireKeys, getNodeWire, found, map_some, Option.getD_some, mem_keys found]
    exact ⟨fun both => ⟨placed, both.1, both.2⟩, fun leaf => ⟨leaf.single, leaf.member⟩⟩

theorem isLeaf_iff (found : getNodeWire (fromIds keyed myIds.toList) path = some wire) :
    wire.isLeaf = true ↔ (under nibbleAt mine path).card = 1 := by
  obtain ⟨node, stored, rfl⟩ := map_eq_some_iff.mp found
  have placed := ((lookup_fromIds myIds).mp stored).1
  simp only [MstNodeWire.isLeaf, all_eq_true, mem_finRange, forall_const,
    Option.isNone_iff_eq_none, children_eq stored, map_eq_none_iff, lookup_eq_none,
    placed_child]
  constructor
  · intro childless
    obtain ⟨id, member⟩ := placed.occupied
    have positive := card_pos.mpr placed.occupied
    have occupied : (under nibbleAt mine (path ++ [nibbleAt id path.length])).Nonempty :=
      ⟨id, mem_under_digit member⟩
    by_contra several
    exact childless _ ⟨by omega, occupied⟩
  · intro single nibble child
    omega

theorem hasChildren_iff :
    ((getNodeWire (fromIds keyed myIds.toList) path).any fun node => !node.isLeaf) = true ↔
      2 ≤ (under nibbleAt mine path).card := by
  cases found : getNodeWire (fromIds keyed myIds.toList) path with
  | none =>
    have unplaced := (lookup_eq_none myIds).mp (map_eq_none_iff.mp found)
    simpa using fun branching => unplaced (placed_of_branching branching)
  | some wire =>
    have leaf := isLeaf_iff found
    obtain ⟨node, stored, rfl⟩ := map_eq_some_iff.mp found
    have positive := card_pos.mpr ((lookup_fromIds myIds).mp stored).1.occupied
    rw [Option.any_some, Bool.not_eq_true', ← Bool.not_eq_true, leaf]
    omega

/-- What a compared path reports by itself. A child is taken as a leaf of the
client when the client does not branch there, whatever the server holds. -/
def FoundAt (mine theirs : Finset NodeId) (path : List Nibble) (id : NodeId) : Side → Prop
  | .mine =>
      (∃ nibble, ¬ TreesAgree mine theirs (path ++ [nibble]) ∧ LeafAt mine (path ++ [nibble]) id) ∨
      ((under nibbleAt theirs path).card = 1 ∧ LeafAt mine path id ∧ ¬ LeafAt theirs path id)
  | .theirs => LeafAt theirs path id ∧ ¬ LeafAt mine path id

@[simp] theorem Report.only_concat (reports : List Report) (side : Side) :
    (Report.concat reports).only side = reports.flatMap fun report => report.only side := by
  cases side <;> rfl

theorem mem_leafDiff :
    id ∈ (Report.leafDiff first second).only side ↔
      match side with
      | .mine => id ∈ first ∧ id ∉ second
      | .theirs => id ∈ second ∧ id ∉ first := by
  cases side <;> simp [Report.leafDiff, Report.only]

section Compare

variable {serverNodes : List MstNodeWire}

theorem getNodeWire_path
    (found : getNodeWire (fromIds keyed theirIds.toList) path = some theirNode) :
    theirNode.path = path := by
  obtain ⟨node, -, rfl⟩ := map_eq_some_iff.mp found
  rfl

variable (apart : HashesApart keyed myIds theirIds)
  (found : getNodeWire (fromIds keyed theirIds.toList) path = some theirNode)
include apart found

section
variable (unanswered : ∀ node ∈ serverNodes, node.path ≠ path ++ [nibble])
include unanswered

theorem compareChild_cases : (TreesAgree mine theirs (path ++ [nibble]) ∧
        compareChild (fromIds keyed myIds.toList) serverNodes theirNode nibble = .concat []) ∨
      (¬ TreesAgree mine theirs (path ++ [nibble]) ∧
        2 ≤ (under nibbleAt mine (path ++ [nibble])).card ∧
        compareChild (fromIds keyed myIds.toList) serverNodes theirNode nibble =
          ⟨[path ++ [nibble]], [], []⟩) ∨
      (¬ TreesAgree mine theirs (path ++ [nibble]) ∧
        ¬ 2 ≤ (under nibbleAt mine (path ++ [nibble])).card ∧
        compareChild (fromIds keyed myIds.toList) serverNodes theirNode nibble =
          .leafDiff (wireKeys (getNodeWire (fromIds keyed myIds.toList) (path ++ [nibble])))
            []) := by
  have theirHash : theirNode.children nibble =
      ((fromIds keyed theirIds.toList).lookup (path ++ [nibble])).map MstNode.hash := by
    rw [← childHash_eq, found, Option.bind_some]
  have absent : (serverNodes.find? fun node => node.path = path ++ [nibble]) = none := by
    simpa using unanswered
  rw [compareChild, getNodeWire_path found]
  simp only [childHash_eq, theirHash, absent, Option.any_none, Bool.not_false, Bool.true_and]
  by_cases agree : TreesAgree mine theirs (path ++ [nibble])
  · exact .inl ⟨agree, if_pos ((hash_eq_iff apart).mpr agree)⟩
  · rw [if_neg (mt (hash_eq_iff apart).mp agree)]
    by_cases branching : 2 ≤ (under nibbleAt mine (path ++ [nibble])).card
    · refine .inr (.inl ⟨agree, branching, ?_⟩)
      rw [hasChildren_iff.mpr branching]
      rfl
    · refine .inr (.inr ⟨agree, branching, ?_⟩)
      rw [Bool.not_eq_true _ |>.mp (mt hasChildren_iff.mp branching)]
      rfl

theorem mem_compareChild_nextPaths :
    target ∈ (compareChild (fromIds keyed myIds.toList) serverNodes theirNode nibble).nextPaths ↔
      ¬ TreesAgree mine theirs (path ++ [nibble]) ∧
        2 ≤ (under nibbleAt mine (path ++ [nibble])).card ∧ target = path ++ [nibble] := by
  obtain ⟨agree, result⟩ | ⟨differs, branching, result⟩ | ⟨differs, single, result⟩ :=
    compareChild_cases apart found unanswered
  · simp [result, agree, Report.concat]
  · simp [result, differs, branching]
  · simp [result, single, Report.leafDiff]

theorem mem_compareChild_only :
    id ∈ (compareChild (fromIds keyed myIds.toList) serverNodes theirNode nibble).only side ↔
      side = .mine ∧ ¬ TreesAgree mine theirs (path ++ [nibble]) ∧
        LeafAt mine (path ++ [nibble]) id := by
  obtain ⟨agree, result⟩ | ⟨differs, branching, result⟩ | ⟨differs, single, result⟩ :=
    compareChild_cases apart found unanswered
  · simp [result, agree]
  · have branches : ¬ LeafAt mine (path ++ [nibble]) id := fun leaf => by
      have := leaf.single
      omega
    cases side <;> simp [result, Report.only, branches]
  · rw [result, mem_leafDiff]
    cases side <;> simp [differs, mem_wireKeys]

end

theorem wireHash_eq_iff :
    (getNodeWire (fromIds keyed myIds.toList) path).map MstNodeWire.hash = some theirNode.hash ↔
      TreesAgree mine theirs path := by
  obtain ⟨node, stored, rfl⟩ := map_eq_some_iff.mp found
  rw [← hash_eq_iff apart, stored, getNodeWire, Option.map_map]
  rfl

section
variable (unanswered : ∀ nibble, ∀ node ∈ serverNodes, node.path ≠ path ++ [nibble])
include unanswered

theorem mem_compareNode_nextPaths :
    target ∈ (compareNode (fromIds keyed myIds.toList) serverNodes theirNode).nextPaths ↔
      ¬ TreesAgree mine theirs path ∧ ∃ nibble, ¬ TreesAgree mine theirs (path ++ [nibble]) ∧
        2 ≤ (under nibbleAt mine (path ++ [nibble])).card ∧ target = path ++ [nibble] := by
  rw [compareNode, getNodeWire_path found]
  split
  · rename_i same
    simp [Report.concat, (wireHash_eq_iff apart found).mp same]
  · rename_i differs
    rw [wireHash_eq_iff apart found] at differs
    have leafless : ¬ ∃ report ∈ (if theirNode.isLeaf then [Report.leafDiff
        (wireKeys (getNodeWire (fromIds keyed myIds.toList) path)) theirNode.keys] else []),
        target ∈ report.nextPaths := by
      split <;> simp [Report.leafDiff]
    simp only [Report.concat, flatMap_append, mem_append, mem_flatMap, leafless,
      mem_map, mem_finRange, true_and, exists_exists_eq_and, or_false, differs,
      not_false_eq_true, mem_compareChild_nextPaths apart found (unanswered _)]

theorem mem_compareNode_only :
    id ∈ (compareNode (fromIds keyed myIds.toList) serverNodes theirNode).only side ↔
      ¬ TreesAgree mine theirs path ∧ FoundAt mine theirs path id side := by
  rw [compareNode, getNodeWire_path found]
  split
  · rename_i same
    simp [(wireHash_eq_iff apart found).mp same]
  · rename_i differs
    rw [wireHash_eq_iff apart found] at differs
    have theirKeys : id ∈ theirNode.keys ↔ LeafAt theirs path id := by
      rw [← mem_wireKeys, found]
      rfl
    have leaf := isLeaf_iff found
    have direct : (∃ report ∈ (if theirNode.isLeaf then [Report.leafDiff
        (wireKeys (getNodeWire (fromIds keyed myIds.toList) path)) theirNode.keys] else []),
        id ∈ report.only side) ↔ (under nibbleAt theirs path).card = 1 ∧
          match side with
          | .mine => LeafAt mine path id ∧ ¬ LeafAt theirs path id
          | .theirs => LeafAt theirs path id ∧ ¬ LeafAt mine path id := by
      rw [← leaf]
      split
      · rename_i leaf
        cases side <;> simp [leaf, mem_leafDiff, mem_wireKeys, theirKeys]
      · rename_i inner
        simp [inner]
    simp only [Report.only_concat, flatMap_append, mem_append, mem_flatMap, direct,
      mem_map, mem_finRange, true_and, exists_exists_eq_and, differs,
      not_false_eq_true, mem_compareChild_only apart found (unanswered _)]
    cases side with
    | mine => simp [FoundAt]
    | theirs => simpa [FoundAt] using fun leaf _ => leaf.single

end

end Compare

/-- The server has a node at the path and the client's node there differs. -/
structure Compared (mine theirs : Finset NodeId) (path : List Nibble) : Prop where
  answered : Placed nibbleAt theirs path
  differs : ¬ TreesAgree mine theirs path

theorem compared_iff : Compared mine theirs path ↔
    Placed nibbleAt theirs path ∧ ¬ TreesAgree mine theirs path :=
  ⟨fun compared => ⟨compared.answered, compared.differs⟩, fun both => ⟨both.1, both.2⟩⟩

/-- The id is reported at the path or at one of the paths asked for because of it. -/
inductive Reported (mine theirs : Finset NodeId) (side : Side) (id : NodeId) :
    List Nibble → Prop where
  | found {path : List Nibble} (compared : Compared mine theirs path)
      (here : FoundAt mine theirs path id side) : Reported mine theirs side id path
  | deeper {path : List Nibble} {nibble : Nibble} (compared : Compared mine theirs path)
      (child : ¬ TreesAgree mine theirs (path ++ [nibble]))
      (branching : 2 ≤ (under nibbleAt mine (path ++ [nibble])).card)
      (rest : Reported mine theirs side id (path ++ [nibble])) : Reported mine theirs side id path

@[simp] theorem mem_sortDedup {α : Type} [LinearOrder α] {items : List α} {item : α} :
    item ∈ sortDedup items ↔ item ∈ items := by
  rw [sortDedup, mem_dedup, mem_insertionSort]

section Rounds

variable {paths : List (List Nibble)}

theorem mem_answerPaths :
    wire ∈ answerPaths (fromIds keyed theirIds.toList) paths ↔
      ∃ path ∈ paths, getNodeWire (fromIds keyed theirIds.toList) path = some wire :=
  mem_filterMap

/-- The paths of one round are equally long, so no answer holds a child of another. -/
theorem answerPaths_level (even : ∀ path ∈ paths, path.length = level) (member : path ∈ paths)
    (nibble : Nibble) (node : MstNodeWire)
    (answered : node ∈ answerPaths (fromIds keyed theirIds.toList) paths) :
    node.path ≠ path ++ [nibble] := by
  obtain ⟨other, listed, found⟩ := mem_answerPaths.mp answered
  rw [getNodeWire_path found]
  rintro rfl
  have long := even _ listed
  rw [length_append, length_singleton, even path member] at long
  omega

/-- Something holds of some answer exactly when it does of some placed path. -/
theorem exists_answer {holds : MstNodeWire → Prop} {placedHolds : List Nibble → Prop}
    (same : ∀ path ∈ paths, ∀ wire, getNodeWire (fromIds keyed theirIds.toList) path = some wire →
      (holds wire ↔ placedHolds path)) :
    (∃ wire ∈ answerPaths (fromIds keyed theirIds.toList) paths, holds wire) ↔
      ∃ path ∈ paths, Placed nibbleAt theirs path ∧ placedHolds path := by
  constructor
  · rintro ⟨wire, answered, holding⟩
    obtain ⟨path, member, found⟩ := mem_answerPaths.mp answered
    obtain ⟨node, stored, -⟩ := map_eq_some_iff.mp found
    exact ⟨path, member, ((lookup_fromIds theirIds).mp stored).1,
      (same path member wire found).mp holding⟩
  · rintro ⟨path, member, placed, holding⟩
    obtain ⟨node, stored⟩ := exists_lookup theirIds keyed placed
    have found : getNodeWire (fromIds keyed theirIds.toList) path = _ :=
      map_eq_some_iff.mpr ⟨node, stored, rfl⟩
    exact ⟨_, mem_answerPaths.mpr ⟨path, member, found⟩, (same path member _ found).mpr holding⟩

variable (apart : HashesApart keyed myIds theirIds) (even : ∀ path ∈ paths, path.length = level)
include apart even

theorem mem_response_nextPaths :
    target ∈ (mstProcessResponse (fromIds keyed myIds.toList)
        (answerPaths (fromIds keyed theirIds.toList) paths)).nextPaths ↔
      ∃ path ∈ paths, Compared mine theirs path ∧ ∃ nibble,
        ¬ TreesAgree mine theirs (path ++ [nibble]) ∧
        2 ≤ (under nibbleAt mine (path ++ [nibble])).card ∧ target = path ++ [nibble] := by
  simp only [mstProcessResponse, mem_sortDedup, Report.concat, mem_flatMap, mem_map,
    exists_exists_and_eq_and]
  rw [exists_answer fun path member wire found =>
    mem_compareNode_nextPaths apart found (answerPaths_level even member)]
  simp only [compared_iff, and_assoc]

theorem mem_response_only :
    id ∈ (mstProcessResponse (fromIds keyed myIds.toList)
        (answerPaths (fromIds keyed theirIds.toList) paths)).only side ↔
      ∃ path ∈ paths, Compared mine theirs path ∧ FoundAt mine theirs path id side := by
  have unsorted : ∀ report : Report, id ∈ Report.only ⟨sortDedup report.nextPaths,
      sortDedup report.onlyMine, sortDedup report.onlyTheirs⟩ side ↔ id ∈ report.only side := by
    cases side <;> simp [Report.only]
  rw [mstProcessResponse, unsorted]
  simp only [Report.only_concat, mem_flatMap, mem_map, exists_exists_and_eq_and]
  rw [exists_answer fun path member wire found =>
    mem_compareNode_only apart found (answerPaths_level even member)]
  simp only [compared_iff, and_assoc]

/-- The rounds end, and they report what is reported at or below the paths. -/
theorem descend_reports (enough : mstDepth ≤ rounds + level)
    (short : ∀ path ∈ paths, path.length < mstDepth) :
    ∃ diff, descend (fromIds keyed myIds.toList) (fromIds keyed theirIds.toList) rounds paths =
        some diff ∧
      ∀ side id, id ∈ diff.only side ↔ ∃ path ∈ paths, Reported mine theirs side id path := by
  induction rounds generalizing paths level with
  | zero =>
    cases paths with
    | nil => exact ⟨⟨[], []⟩, rfl, fun side id => by cases side <;> simp [Diff.only]⟩
    | cons path rest =>
      have long := even path mem_cons_self
      have bound := short path mem_cons_self
      omega
  | succ rounds ih =>
    cases paths with
    | nil => exact ⟨⟨[], []⟩, rfl, fun side id => by cases side <;> simp [Diff.only]⟩
    | cons first rest =>
      rw [descend]
      swap
      · simp
      generalize first :: rest = paths at even short ⊢
      set report := mstProcessResponse (fromIds keyed myIds.toList)
        (answerPaths (fromIds keyed theirIds.toList) paths)
      have next (target : List Nibble) : target ∈ report.nextPaths ↔ _ :=
        mem_response_nextPaths apart even
      have only (side : Side) (id : NodeId) : id ∈ report.only side ↔ _ :=
        mem_response_only apart even
      have nextEven : ∀ path ∈ report.nextPaths, path.length = level + 1 := by
        intro path member
        obtain ⟨parent, listed, -, nibble, -, -, rfl⟩ := (next path).mp member
        rw [length_append, even parent listed, length_singleton]
      have nextShort : ∀ path ∈ report.nextPaths, path.length < mstDepth := by
        intro path member
        obtain ⟨parent, -, -, nibble, -, branching, rfl⟩ := (next path).mp member
        exact length_lt_of_branching branching
      obtain ⟨diff, ended, reported⟩ := ih nextEven (by omega) nextShort
      refine ⟨_, by rw [ended]; rfl, ?_⟩
      intro side id
      have both : id ∈ Diff.only ⟨report.onlyMine ++ diff.onlyMine,
          report.onlyTheirs ++ diff.onlyTheirs⟩ side ↔
          id ∈ report.only side ∨ id ∈ diff.only side := by
        cases side <;> exact mem_append
      rw [both, only, reported]
      constructor
      · rintro (⟨path, member, compared, here⟩ | ⟨path, member, rest⟩)
        · exact ⟨path, member, .found compared here⟩
        · obtain ⟨parent, listed, compared, nibble, child, branching, rfl⟩ := (next path).mp member
          exact ⟨parent, listed, .deeper compared child branching rest⟩
      · rintro ⟨path, member, reported⟩
        cases reported with
        | found compared here => exact .inl ⟨path, member, compared, here⟩
        | deeper compared child branching rest =>
          exact .inr ⟨_, (next _).mpr ⟨path, member, compared, _, child, branching, rfl⟩, rest⟩

end Rounds

/-- The reports at and below the path are the ids there that one side lacks. -/
def Exact (mine theirs : Finset NodeId) (path : List Nibble) : Prop :=
  ∀ side id, Reported mine theirs side id path ↔ id ∈ under nibbleAt (onlyOn mine theirs side) path

/-- The server's ids at a path where the client branches: there are some, a
single one is unknown to the client and faces no further branching, and
otherwise the client knows them wherever it holds at most one id itself. -/
structure Aligned (mine theirs : Finset NodeId) (path : List Nibble) : Prop where
  occupied : (under nibbleAt theirs path).Nonempty
  single : (under nibbleAt theirs path).card = 1 →
    Disjoint (under nibbleAt mine path) (under nibbleAt theirs path) ∧
      ∀ nibble, (under nibbleAt mine (path ++ [nibble])).card ≤ 1
  several : 2 ≤ (under nibbleAt theirs path).card → ∀ nibble,
    (under nibbleAt mine (path ++ [nibble])).card ≤ 1 →
      under nibbleAt theirs (path ++ [nibble]) ⊆ under nibbleAt mine (path ++ [nibble])

def AlignedBelow (mine theirs : Finset NodeId) (path : List Nibble) : Prop :=
  ∀ rest, 2 ≤ (under nibbleAt mine (path ++ rest)).card → Aligned mine theirs (path ++ rest)

theorem alignedBelow_iff (branching : 2 ≤ (under nibbleAt mine path).card) :
    AlignedBelow mine theirs path ↔
      Aligned mine theirs path ∧ ∀ nibble, AlignedBelow mine theirs (path ++ [nibble]) := by
  constructor
  · intro aligned
    refine ⟨by simpa using aligned [] (by simpa using branching), ?_⟩
    intro nibble rest
    rw [append_assoc]
    exact aligned ([nibble] ++ rest)
  · rintro ⟨here, below⟩ rest
    cases rest with
    | nil => simpa using fun _ => here
    | cons nibble rest =>
      rw [append_cons]
      exact below nibble rest

theorem alignedBelow_of_single (single : (under nibbleAt mine path).card ≤ 1) :
    AlignedBelow mine theirs path := by
  intro rest branching
  have smaller : (under nibbleAt mine (path ++ rest)).card ≤ (under nibbleAt mine path).card :=
    card_le_card (under_append_subset rest)
  omega

section
variable (same : under nibbleAt mine path = under nibbleAt theirs path)
include same

theorem aligned_of_same (branching : 2 ≤ (under nibbleAt mine path).card) :
    Aligned mine theirs path := by
  refine ⟨?_, ?_, ?_⟩
  · rw [← same]
    exact card_pos.mp (by omega)
  · intro single
    rw [← same] at single
    omega
  · intro _ nibble _
    rw [under_append_congr same [nibble]]

theorem alignedBelow_of_same : AlignedBelow mine theirs path :=
  fun rest branching => aligned_of_same (under_append_congr same rest) branching

end

theorem Reported.compared (reported : Reported mine theirs side id path) :
    Compared mine theirs path := by
  cases reported with
  | found compared _ => exact compared
  | deeper compared _ _ _ => exact compared

theorem reported_stays (reported : Reported mine theirs side id path) :
    route nibbleAt path.length id = path := by
  induction reported with
  | found _ here =>
    cases side with
    | mine =>
      obtain ⟨nibble, -, leaf⟩ | ⟨-, leaf, -⟩ := here
      · exact (mem_under.mp (under_child_subset leaf.member)).2
      · exact (mem_under.mp leaf.member).2
    | theirs => exact (mem_under.mp here.1.member).2
  | deeper _ _ _ _ ih => exact (route_eq_child.mp ih).1

theorem leafAt_child (branching : 2 ≤ (under nibbleAt mine path).card) :
    LeafAt mine (path ++ [nibble]) id ↔ (under nibbleAt mine (path ++ [nibble])).card = 1 ∧
      id ∈ under nibbleAt mine (path ++ [nibble]) :=
  ⟨fun leaf => ⟨leaf.single, leaf.member⟩,
    fun both => ⟨placed_child.mpr ⟨branching, ⟨id, both.2⟩⟩, both.1, both.2⟩⟩

/-- Where nothing is compared, nothing is reported. -/
theorem exact_of_uncompared (uncompared : ¬ Compared mine theirs path) :
    Exact mine theirs path ↔ under nibbleAt mine path = under nibbleAt theirs path := by
  have silent (side : Side) (id : NodeId) : ¬ Reported mine theirs side id path :=
    fun reported => uncompared reported.compared
  simp only [Exact, silent, false_iff]
  constructor
  · intro none
    ext id
    have inMine := none .mine id
    have inTheirs := none .theirs id
    simp only [onlyOn, under_sdiff, mem_sdiff] at inMine inTheirs
    tauto
  · intro same side id
    cases side <;> simp [onlyOn, under_sdiff, same]

section
variable (compared : Compared mine theirs path)
include compared

theorem exact_of_single (branching : 2 ≤ (under nibbleAt mine path).card)
    (single : (under nibbleAt theirs path).card = 1) :
    Exact mine theirs path ↔ Disjoint (under nibbleAt mine path) (under nibbleAt theirs path) ∧
      ∀ nibble, (under nibbleAt mine (path ++ [nibble])).card ≤ 1 := by
  have unplaced (nibble : Nibble) : ¬ Placed nibbleAt theirs (path ++ [nibble]) := by
    rw [placed_child]
    omega
  have myReports (id : NodeId) : Reported mine theirs .mine id path ↔
      ∃ nibble, LeafAt mine (path ++ [nibble]) id := by
    constructor
    · rintro (⟨-, ⟨nibble, -, leaf⟩ | ⟨-, leaf, -⟩⟩ | ⟨-, -, -, rest⟩)
      · exact ⟨nibble, leaf⟩
      · have := leaf.single
        omega
      · exact absurd rest.compared.answered (unplaced _)
    · rintro ⟨nibble, leaf⟩
      have differs : ¬ TreesAgree mine theirs (path ++ [nibble]) := fun agree =>
        unplaced nibble (agree.placed.mp leaf.placed)
      exact .found compared (.inl ⟨nibble, differs, leaf⟩)
  have theirReports (id : NodeId) : Reported mine theirs .theirs id path ↔
      id ∈ under nibbleAt theirs path := by
    constructor
    · rintro (⟨-, leaf, -⟩ | ⟨-, -, -, rest⟩)
      · exact leaf.member
      · exact absurd rest.compared.answered (unplaced _)
    · intro member
      refine .found compared ⟨⟨compared.answered, single, member⟩, fun leaf => ?_⟩
      have := leaf.single
      omega
  constructor
  · intro exact
    have disjoint : Disjoint (under nibbleAt mine path) (under nibbleAt theirs path) := by
      refine Finset.disjoint_right.mpr fun id member => ?_
      have lacking := (exact .theirs id).mp ((theirReports id).mpr member)
      rw [onlyOn, under_sdiff, mem_sdiff] at lacking
      exact lacking.2
    refine ⟨disjoint, fun nibble => ?_⟩
    by_contra several
    obtain ⟨id, member⟩ := card_pos.mp (Nat.zero_lt_of_lt (Nat.lt_of_not_le several))
    have above := under_child_subset member
    have lacking : id ∈ under nibbleAt (onlyOn mine theirs .mine) path := by
      rw [onlyOn, under_sdiff, mem_sdiff]
      exact ⟨above, Finset.disjoint_left.mp disjoint above⟩
    obtain ⟨other, leaf⟩ := (myReports id).mp ((exact .mine id).mpr lacking)
    obtain rfl : nibble = other :=
      (mem_under_child.mp member).2.symm.trans (mem_under_child.mp leaf.member).2
    exact several leaf.single.le
  · rintro ⟨disjoint, alone⟩ side id
    cases side with
    | mine =>
      rw [myReports, onlyOn, under_sdiff, Finset.sdiff_eq_self_of_disjoint disjoint]
      constructor
      · rintro ⟨nibble, leaf⟩
        exact under_child_subset leaf.member
      · intro member
        have below := mem_under_digit member
        have positive := card_pos.mpr ⟨id, below⟩
        exact ⟨_, (leafAt_child branching).mpr ⟨le_antisymm (alone _) positive, below⟩⟩
    | theirs =>
      rw [theirReports, onlyOn, under_sdiff, Finset.sdiff_eq_self_of_disjoint disjoint.symm]

/-- What the comparison of one child reports. -/
def ChildReports (mine theirs : Finset NodeId) (path : List Nibble) (id : NodeId) (side : Side) :
    Prop :=
  ¬ TreesAgree mine theirs path ∧ (side = .mine ∧ LeafAt mine path id ∨
    2 ≤ (under nibbleAt mine path).card ∧ Reported mine theirs side id path)

theorem reported_iff_child (branching : 2 ≤ (under nibbleAt theirs path).card) :
    Reported mine theirs side id path ↔
      ∃ nibble, ChildReports mine theirs (path ++ [nibble]) id side := by
  constructor
  · rintro (⟨-, here⟩ | ⟨-, child, inner, rest⟩)
    · cases side with
      | mine =>
        obtain ⟨nibble, child, leaf⟩ | ⟨single, -, -⟩ := here
        · exact ⟨nibble, child, .inl ⟨rfl, leaf⟩⟩
        · omega
      | theirs =>
        have := here.1.single
        omega
    · exact ⟨_, child, .inr ⟨inner, rest⟩⟩
  · rintro ⟨nibble, child, ⟨rfl, leaf⟩ | ⟨inner, rest⟩⟩
    · exact .found compared (.inl ⟨nibble, child, leaf⟩)
    · exact .deeper compared child inner rest

theorem exact_of_several (branching : 2 ≤ (under nibbleAt theirs path).card) :
    Exact mine theirs path ↔ ∀ nibble side id, ChildReports mine theirs (path ++ [nibble]) id side ↔
      id ∈ under nibbleAt (onlyOn mine theirs side) (path ++ [nibble]) := by
  have stays (side : Side) (nibble : Nibble) (id : NodeId)
      (reports : ChildReports mine theirs (path ++ [nibble]) id side) :
      nibbleAt id path.length = nibble := by
    obtain ⟨-, ⟨-, leaf⟩ | ⟨-, rest⟩⟩ := reports
    · exact (mem_under_child.mp leaf.member).2
    · exact (route_eq_child.mp (reported_stays rest)).2
  simp only [Exact, reported_iff_child compared branching]
  rw [forall_congr' fun side => exact_iff_children (stays side)]
  exact forall_comm

end

theorem agree_child (myBranching : 2 ≤ (under nibbleAt mine path).card)
    (theirBranching : 2 ≤ (under nibbleAt theirs path).card) :
    TreesAgree mine theirs (path ++ [nibble]) ↔
      under nibbleAt mine (path ++ [nibble]) = under nibbleAt theirs (path ++ [nibble]) := by
  constructor
  · intro agree
    by_cases occupied : (under nibbleAt mine (path ++ [nibble])).Nonempty
    · exact agree.same (placed_child.mpr ⟨myBranching, occupied⟩)
    · have empty : ¬ (under nibbleAt theirs (path ++ [nibble])).Nonempty := fun other =>
        occupied (agree.placed.mpr (placed_child.mpr ⟨theirBranching, other⟩)).occupied
      rw [Finset.not_nonempty_iff_eq_empty.mp occupied, Finset.not_nonempty_iff_eq_empty.mp empty]
  · intro same
    refine ⟨?_, fun _ => same⟩
    rw [placed_child, placed_child, same]
    simp [myBranching, theirBranching]

theorem childExact_of_single (branching : 2 ≤ (under nibbleAt mine path).card)
    (differs : ¬ TreesAgree mine theirs (path ++ [nibble]))
    (distinct : under nibbleAt mine (path ++ [nibble]) ≠ under nibbleAt theirs (path ++ [nibble]))
    (alone : (under nibbleAt mine (path ++ [nibble])).card ≤ 1) :
    (∀ side id, ChildReports mine theirs (path ++ [nibble]) id side ↔
        id ∈ under nibbleAt (onlyOn mine theirs side) (path ++ [nibble])) ↔
      under nibbleAt theirs (path ++ [nibble]) ⊆ under nibbleAt mine (path ++ [nibble]) := by
  have leaf (id : NodeId) : LeafAt mine (path ++ [nibble]) id ↔
      id ∈ under nibbleAt mine (path ++ [nibble]) := by
    rw [leafAt_child branching]
    refine ⟨And.right, fun member => ⟨le_antisymm alone (card_pos.mpr ⟨id, member⟩), member⟩⟩
  have inner : ¬ 2 ≤ (under nibbleAt mine (path ++ [nibble])).card := by omega
  simp only [ChildReports, differs, inner, leaf, not_false_eq_true, true_and, false_and, or_false]
  constructor
  · intro exact id member
    have lacking := (exact .theirs id).mpr.mt (by simp)
    rw [onlyOn, under_sdiff, mem_sdiff] at lacking
    tauto
  · intro known
    have fewer := Finset.card_lt_card (known.ssubset_of_ne distinct.symm)
    have empty : under nibbleAt theirs (path ++ [nibble]) = ∅ := Finset.card_eq_zero.mp (by omega)
    intro side id
    cases side <;> simp [onlyOn, under_sdiff, empty]

theorem childExact_iff (myBranching : 2 ≤ (under nibbleAt mine path).card)
    (theirBranching : 2 ≤ (under nibbleAt theirs path).card)
    (deeper : 2 ≤ (under nibbleAt mine (path ++ [nibble])).card →
      (Exact mine theirs (path ++ [nibble]) ↔ AlignedBelow mine theirs (path ++ [nibble]))) :
    (∀ side id, ChildReports mine theirs (path ++ [nibble]) id side ↔
        id ∈ under nibbleAt (onlyOn mine theirs side) (path ++ [nibble])) ↔
      AlignedBelow mine theirs (path ++ [nibble]) ∧
        ((under nibbleAt mine (path ++ [nibble])).card ≤ 1 →
          under nibbleAt theirs (path ++ [nibble]) ⊆ under nibbleAt mine (path ++ [nibble])) := by
  by_cases agree : TreesAgree mine theirs (path ++ [nibble])
  · have same := (agree_child myBranching theirBranching).mp agree
    have aligned : AlignedBelow mine theirs (path ++ [nibble]) := alignedBelow_of_same same
    refine iff_of_true (fun side id => ?_) ⟨aligned, fun _ => same.ge⟩
    cases side <;> simp [ChildReports, agree, onlyOn, under_sdiff, same]
  · have distinct := mt (agree_child myBranching theirBranching).mpr agree
    by_cases inner : 2 ≤ (under nibbleAt mine (path ++ [nibble])).card
    · have leafless (id : NodeId) : ¬ LeafAt mine (path ++ [nibble]) id := fun leaf => by
        have := leaf.single
        omega
      have vacuous : ¬ (under nibbleAt mine (path ++ [nibble])).card ≤ 1 := by omega
      simp only [ChildReports, agree, inner, leafless, vacuous, not_false_eq_true, true_and,
        and_false, false_or, false_imp_iff, and_true]
      exact deeper inner
    · have alone : (under nibbleAt mine (path ++ [nibble])).card ≤ 1 := by omega
      rw [childExact_of_single myBranching agree distinct alone]
      simp [alignedBelow_of_single alone, alone]

theorem exact_iff (branching : 2 ≤ (under nibbleAt mine path).card)
    (reached : (under nibbleAt theirs path).Nonempty → Placed nibbleAt theirs path) :
    Exact mine theirs path ↔ AlignedBelow mine theirs path := by
  induction left : mstDepth - path.length generalizing path with
  | zero =>
    have short := length_lt_of_branching branching
    omega
  | succ left ih =>
    by_cases compared : Compared mine theirs path
    · have occupied := card_pos.mpr compared.answered.occupied
      rw [alignedBelow_iff branching]
      by_cases single : (under nibbleAt theirs path).card = 1
      · rw [exact_of_single compared branching single]
        constructor
        · rintro ⟨disjoint, alone⟩
          exact ⟨⟨compared.answered.occupied, fun _ => ⟨disjoint, alone⟩, fun several => by omega⟩,
            fun nibble => alignedBelow_of_single (alone nibble)⟩
        · rintro ⟨here, -⟩
          exact here.single single
      · have several : 2 ≤ (under nibbleAt theirs path).card := by omega
        have child (nibble : Nibble) (inner : 2 ≤ (under nibbleAt mine (path ++ [nibble])).card) :
            Exact mine theirs (path ++ [nibble]) ↔ AlignedBelow mine theirs (path ++ [nibble]) := by
          refine ih inner (fun occupied => placed_child.mpr ⟨several, occupied⟩) ?_
          rw [length_append, length_singleton]
          omega
        rw [exact_of_several compared several,
          forall_congr' fun nibble => childExact_iff branching several (child nibble), forall_and]
        constructor
        · rintro ⟨below, known⟩
          exact ⟨⟨compared.answered.occupied, fun single => by omega, fun _ => known⟩, below⟩
        · rintro ⟨here, below⟩
          exact ⟨below, here.several several⟩
    · rw [exact_of_uncompared compared]
      constructor
      · exact alignedBelow_of_same
      · intro aligned
        have here := ((alignedBelow_iff branching).mp aligned).1
        have agree : TreesAgree mine theirs path := by
          by_contra differs
          exact compared ⟨reached here.occupied, differs⟩
        exact agree.same (placed_of_branching branching)

/-- The pairs of id sets that the comparison gets right. -/
def Reconcilable (mine theirs : Finset NodeId) : Prop :=
  mine = theirs ∨ (mine.card ≤ 1 ∧ theirs.card = 1) ∨
    (2 ≤ mine.card ∧ ∀ path, 2 ≤ (under nibbleAt mine path).card → Aligned mine theirs path)

theorem leafAt_root : LeafAt mine [] id ↔ mine.card = 1 ∧ id ∈ mine := by
  constructor
  · intro leaf
    exact ⟨by simpa using leaf.single, by simpa using leaf.member⟩
  · rintro ⟨single, member⟩
    exact ⟨placed_nil.mpr ⟨id, member⟩, by simpa using single, by simpa using member⟩

/-- A client with at most one id compares it with a single id of the server only. -/
theorem reported_root_of_few (few : mine.card ≤ 1) :
    Reported mine theirs side id [] ↔
      Compared mine theirs [] ∧ theirs.card = 1 ∧ id ∈ onlyOn mine theirs side := by
  have childless (nibble : Nibble) : ¬ LeafAt mine ([] ++ [nibble]) id := by
    intro leaf
    have branching := (placed_child.mp leaf.placed).1
    rw [under_nil] at branching
    omega
  have myLeaf : LeafAt mine [] id ↔ id ∈ mine := by
    rw [leafAt_root]
    exact ⟨And.right, fun member => ⟨le_antisymm few (card_pos.mpr ⟨id, member⟩), member⟩⟩
  have here : FoundAt mine theirs [] id side ↔ theirs.card = 1 ∧ id ∈ onlyOn mine theirs side := by
    cases side with
    | mine =>
      simp only [FoundAt, childless, and_false, exists_false, false_or, under_nil, myLeaf,
        leafAt_root, onlyOn, mem_sdiff]
      tauto
    | theirs =>
      simp only [FoundAt, myLeaf, leafAt_root, onlyOn, mem_sdiff, and_assoc]
  constructor
  · rintro (⟨compared, found⟩ | ⟨-, -, branching, -⟩)
    · exact ⟨compared, here.mp found⟩
    · have several : 2 ≤ mine.card := branching.trans (card_le_card under_subset)
      omega
  · rintro ⟨compared, found⟩
    exact .found compared (here.mpr found)

theorem exact_root_of_few (few : mine.card ≤ 1) :
    Exact mine theirs [] ↔ mine = theirs ∨ theirs.card = 1 := by
  by_cases compared : Compared mine theirs []
  · simp only [Exact, reported_root_of_few few, compared, true_and, under_nil]
    constructor
    · intro exact
      by_cases single : theirs.card = 1
      · exact .inr single
      · left
        ext id
        have inMine := exact .mine id
        have inTheirs := exact .theirs id
        simp only [onlyOn, mem_sdiff, single, false_and, false_iff] at inMine inTheirs
        tauto
    · rintro (rfl | single) side id
      · cases side <;> simp [onlyOn]
      · simp [single]
  · rw [exact_of_uncompared compared, under_nil, under_nil]
    refine ⟨.inl, ?_⟩
    rintro (same | single)
    · exact same
    · have placed : Placed nibbleAt theirs [] := placed_nil.mpr (card_pos.mp (by omega))
      have agree : TreesAgree mine theirs [] := by
        by_contra differs
        exact compared ⟨placed, differs⟩
      simpa using agree.same (agree.placed.mpr placed)

theorem exact_root : Exact mine theirs [] ↔ Reconcilable mine theirs := by
  by_cases few : mine.card ≤ 1
  · have several : ¬ 2 ≤ mine.card := by omega
    rw [exact_root_of_few few]
    simp [Reconcilable, few, several]
  · have several : 2 ≤ mine.card := by omega
    have branching : 2 ≤ (under nibbleAt mine []).card := by simpa using several
    rw [exact_iff branching fun occupied => placed_nil.mpr (by simpa using occupied)]
    simp only [Reconcilable, few, several, false_and, true_and, false_or]
    constructor
    · exact .inr
    · rintro (rfl | aligned)
      · exact alignedBelow_of_same rfl
      · exact aligned

theorem descend_more (ended : descend myMst theirMst rounds paths = some diff) (more : Nat) :
    descend myMst theirMst (rounds + more) paths = some diff := by
  induction rounds generalizing paths diff with
  | zero =>
    cases paths with
    | nil => cases more <;> exact ended
    | cons first rest => cases ended
  | succ rounds ih =>
    cases paths with
    | nil => rw [Nat.add_right_comm]; exact ended
    | cons first rest =>
      rw [Nat.add_right_comm]
      obtain ⟨tail, tailEnded, same⟩ := map_eq_some_iff.mp ended
      exact map_eq_some_iff.mpr ⟨tail, ih tailEnded, same⟩

end Nodes

theorem HashesApart.symm (apart : HashesApart keyed myIds theirIds) :
    HashesApart keyed theirIds myIds := by
  intro path theirNode myNode theirFound myFound same
  exact (apart path myNode theirNode myFound theirFound same.symm).symm

/-- A keyed checksum. -/
def sampleKeyed : KeyedHash := fun key bytes =>
  .padTo 32 [key.getD 15 0,
    Fin.ofNat 256 (bytes.foldl (fun sum byte => (sum * 3 + byte.val) % 65536) 0)]

def fakeId (seed : U8) : NodeId := .padTo 32 (List.replicate 32 seed)

def fakeIds (seeds : List U8) (distinct : (seeds.map fakeId).Nodup) :
    Enumeration (seeds.map fakeId).toFinset :=
  ⟨seeds.map fakeId, distinct, rfl⟩

def twoIds : Enumeration {fakeId 0xBB, fakeId 0xCC} := fakeIds [0xBB, 0xCC] (by decide)

def threeIds : Enumeration {fakeId 0xBB, fakeId 0xCC, fakeId 0xDD} :=
  fakeIds [0xBB, 0xCC, 0xDD] (by decide)

theorem eq_nil_of_branching (alone : ∀ nibble, (under nibbleAt ids [nibble]).card ≤ 1)
    (branching : 2 ≤ (under nibbleAt ids path).card) : path = [] := by
  cases path with
  | nil => rfl
  | cons first rest =>
    have fewer : (under nibbleAt ids ([first] ++ rest)).card ≤ (under nibbleAt ids [first]).card :=
      card_le_card (under_append_subset rest)
    exact absurd (branching.trans (fewer.trans (alone first))) (by decide)

theorem sample_apart : HashesApart sampleKeyed twoIds threeIds := by
  have roots : ((fromIds sampleKeyed twoIds.toList).lookup []).map MstNode.hash ≠
      ((fromIds sampleKeyed threeIds.toList).lookup []).map MstNode.hash := by decide +kernel
  have leaves : ∀ nibble, ((fromIds sampleKeyed twoIds.toList).lookup [nibble]).map MstNode.hash =
      ((fromIds sampleKeyed threeIds.toList).lookup [nibble]).map MstNode.hash →
      under nibbleAt {fakeId 0xBB, fakeId 0xCC} [nibble] =
        under nibbleAt {fakeId 0xBB, fakeId 0xCC, fakeId 0xDD} [nibble] := by decide +kernel
  have alone : ∀ nibble, (under nibbleAt {fakeId 0xBB, fakeId 0xCC} [nibble]).card ≤ 1 := by
    decide +kernel
  intro path myNode theirNode myFound theirFound same
  have hashes : ((fromIds sampleKeyed twoIds.toList).lookup path).map MstNode.hash =
      ((fromIds sampleKeyed threeIds.toList).lookup path).map MstNode.hash := by
    rw [myFound, theirFound, map_some, same, map_some]
  obtain rfl | ⟨parent, nibble, rfl⟩ := eq_nil_or_concat path
  · exact absurd hashes roots
  · rw [concat_eq_append] at myFound hashes
    obtain ⟨placed, -⟩ := (lookup_fromIds twoIds).mp myFound
    obtain rfl := eq_nil_of_branching alone (placed_child.mp placed).1
    exact leaves nibble hashes

/-- With hashes that tell the ids of the two trees apart, the rounds end and
report exactly the ids that one side lacks if and only if the sets are
reconcilable. -/
theorem reconciliation_exact_iff (keyed : KeyedHash) (mine theirs : Finset NodeId)
    (myIds : Enumeration mine) (theirIds : Enumeration theirs)
    (apart : HashesApart keyed myIds theirIds) :
    ∃ diff, (∀ rounds, mstDepth ≤ rounds →
        reconcile (fromIds keyed myIds.toList) (fromIds keyed theirIds.toList) rounds = some diff) ∧
      ((diff.onlyMine.toFinset = mine \ theirs ∧ diff.onlyTheirs.toFinset = theirs \ mine) ↔
        Reconcilable mine theirs) := by
  have even : ∀ path ∈ [([] : List Nibble)], path.length = 0 := by simp
  have short : ∀ path ∈ [([] : List Nibble)], path.length < mstDepth := by simp [mstDepth]
  obtain ⟨diff, ended, reported⟩ := descend_reports apart even (Nat.le_refl mstDepth) short
  have sides (side : Side) (id : NodeId) :
      id ∈ diff.only side ↔ Reported mine theirs side id [] := by
    simpa using reported side id
  refine ⟨diff, ?_, ?_⟩
  · intro rounds enough
    obtain ⟨more, rfl⟩ := Nat.exists_eq_add_of_le enough
    exact descend_more ended more
  · rw [← exact_root]
    constructor
    · rintro ⟨myDiff, theirDiff⟩ side id
      rw [← sides, under_nil]
      cases side with
      | mine => rw [onlyOn, ← myDiff, mem_toFinset]; rfl
      | theirs => rw [onlyOn, ← theirDiff, mem_toFinset]; rfl
    · intro exact
      have wanted (side : Side) (id : NodeId) :
          id ∈ diff.only side ↔ id ∈ onlyOn mine theirs side := by
        rw [sides, exact, under_nil]
      constructor
      · ext id
        rw [mem_toFinset]
        exact wanted .mine id
      · ext id
        rw [mem_toFinset]
        exact wanted .theirs id

/-- A client that has one id more than the server finds it. -/
theorem extra_id_reported : ∃ diff, (∀ rounds, mstDepth ≤ rounds →
      reconcile (fromIds sampleKeyed threeIds.toList) (fromIds sampleKeyed twoIds.toList) rounds =
        some diff) ∧
    diff.onlyMine.toFinset = {fakeId 0xDD} ∧ diff.onlyTheirs.toFinset = ∅ := by
  obtain ⟨diff, ended, exact⟩ := reconciliation_exact_iff sampleKeyed
    {fakeId 0xBB, fakeId 0xCC, fakeId 0xDD} {fakeId 0xBB, fakeId 0xCC} threeIds twoIds
    sample_apart.symm
  have reconcilable : Reconcilable {fakeId 0xBB, fakeId 0xCC, fakeId 0xDD}
      {fakeId 0xBB, fakeId 0xCC} := by
    refine .inr (.inr ⟨by decide, fun path branching => ?_⟩)
    obtain rfl := eq_nil_of_branching (by decide +kernel) branching
    exact ⟨by decide, by decide, fun _ => by decide +kernel⟩
  obtain ⟨myDiff, theirDiff⟩ := exact.mpr reconcilable
  exact ⟨diff, ended, myDiff.trans (by decide), theirDiff.trans (by decide)⟩

/-- A client that lacks one id of the server is told that it lacks none. -/
theorem lacking_id_unreported : HashesApart sampleKeyed twoIds threeIds ∧
    reconcile (fromIds sampleKeyed twoIds.toList) (fromIds sampleKeyed threeIds.toList) mstDepth =
      some ⟨[], []⟩ ∧
    ({fakeId 0xBB, fakeId 0xCC, fakeId 0xDD} : Finset NodeId) \ {fakeId 0xBB, fakeId 0xCC} =
      {fakeId 0xDD} :=
  ⟨sample_apart, by decide +kernel, by decide⟩

end NodalMerge
