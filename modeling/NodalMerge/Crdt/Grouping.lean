import NodalMerge.Crdt.Convergence

namespace NodalMerge

open LastWriter List

/-- What a map op stores; a delete stores nothing. -/
def MapOp.value : MapOp → Option (List U8)
  | .set _ value => some value
  | .delete _ => none
  | .setBlob _ blobHash => some blobHash.val

def firstOn (key : String) (ops : List MapOp) : Option MapOp := ops.find? fun op => op.key = key

def lastOn (key : String) (ops : List MapOp) : Option MapOp :=
  ops.reverse.find? fun op => op.key = key

/-- The op that counts for a key: the first one of the last group with the key. -/
def groupedOn (key : String) : List (List MapOp) → Option MapOp
  | [] => none
  | group :: rest => (groupedOn key rest).or (firstOn key group)

namespace StateGraph

/-- Every group is committed by one call, in order. -/
inductive Commits (crypto : Crypto) : StateGraph → List (List MapOp) → StateGraph → Prop where
  | done : Commits crypto graph [] graph
  | group {graph next after : StateGraph} {group : List MapOp} {groups : List (List MapOp)}
      {signingKey : crypto.SigningKey} {wallMs : Nat} {parents : Enumeration graph.leaves}
      {id : NodeId} (ran : applyLocal crypto graph signingKey wallMs (group.map .map) parents =
        some (next, .ok id))
      (rest : Commits crypto next groups after) : Commits crypto graph (group :: groups) after

variable {after : StateGraph}

/-- A stored winner never has a clock value above the graph's. -/
theorem Reachable.winner_lamport {winner : MapWinner} (reached : Reachable crypto Allowed graph)
    (found : graph.stateCaches.mapAll.lookup key = some winner) :
    winner.lamport ≤ graph.lamport := by
  have wins := isWinner_of_winner ((reached.cached.map key).symm.trans found)
  obtain ⟨node, stored, write⟩ := mem_flatMap.mp wins.mem
  have same : winner.lamport = node.lamport :=
    congrArg (fun priority => (ofLex priority).1) (mapWrites_priority write)
  rw [same]
  exact reached.dag.clock node stored

theorem filterMap_mapWrite (tx : Transaction) (key : String) (group : List MapOp) :
    (group.map Op.map).filterMap (Op.mapWrite tx key) =
      (group.filter fun op => op.key = key).map (MapOp.candidate tx) := by
  induction group with
  | nil => rfl
  | cons op rest ih => by_cases same : op.key = key <;> simp [Op.mapWrite, same, ih]

/-- After a commit a key shows the first op of the group on it, if any. -/
theorem Reachable.commit_resolve {id : NodeId} {group : List MapOp}
    (reached : Reachable crypto Allowed graph)
    (ran : applyLocal crypto graph signingKey wallMs (group.map .map) parents =
      some (after, .ok id)) (key : String) :
    after.resolve key = (firstOn key group).elim (graph.resolve key) MapOp.value := by
  obtain ⟨-, ⟨-, failed⟩ | ⟨-, committed⟩⟩ := applyLocal_cases ran
  · cases failed
  obtain ⟨rfl, -⟩ := Prod.mk.inj committed
  have cell := graph.stateCaches.updateStateCaches_mapAll
    (localNode crypto graph signingKey wallMs (group.map .map) parents) false key
  have nonzero : (localTransaction crypto graph signingKey wallMs (group.map .map)
      parents).priority ≠ Priority.zero := by
    intro zero
    have clock := congrArg (fun priority => (ofLex priority).1) zero
    exact Nat.succ_ne_zero graph.lamport clock
  rw [mapWrites, localNode_transaction, if_neg nonzero,
    show (localTransaction crypto graph signingKey wallMs (group.map .map) parents).ops =
      group.map .map from rfl, filterMap_mapWrite] at cell
  have shows : resolve (graph.commitLocal (group.map .map)
      (localNode crypto graph signingKey wallMs (group.map .map) parents)) key =
      ((graph.stateCaches.updateStateCaches
        (localNode crypto graph signingKey wallMs (group.map .map) parents)
          false).mapAll.lookup key).bind MapWinner.value := rfl
  have clock : (localTransaction crypto graph signingKey wallMs (group.map .map) parents).lamport =
      graph.lamport + 1 := rfl
  rw [shows, cell, firstOn, ← List.head?_filter]
  generalize localTransaction crypto graph signingKey wallMs (group.map .map) parents = tx at clock
  cases group.filter fun op => op.key = key with
  | nil => rfl
  | cons op rest =>
    have priority (op : MapOp) : (op.candidate tx).priority = tx.priority := by
      cases op <;> rfl
    rw [map_cons, foldl_keep_first]
    · cases op <;> rfl
    · intro winner found
      rw [priority]
      refine Prod.Lex.left _ _ ?_
      rw [clock]
      exact Nat.lt_succ_of_le (reached.winner_lamport found)
    · intro other member
      obtain ⟨otherOp, -, rfl⟩ := mem_map.mp member
      rw [priority, priority]

theorem Commits.resolve (commits : Commits crypto graph groups after)
    (reached : Reachable crypto (fun _ _ => True) graph) (key : String) :
    after.resolve key = (groupedOn key groups).elim (graph.resolve key) MapOp.value := by
  induction commits with
  | done => rfl
  | @group graph next after group groups signingKey wallMs parents id ran rest ih =>
    have called : Call.run (.applyLocal signingKey wallMs (group.map .map) parents) = some next := by
      rw [Call.run, ran]
      rfl
    rw [ih (.call reached trivial called), reached.commit_resolve ran key, groupedOn]
    cases groupedOn key groups <;> rfl

end StateGraph

variable {key : String}

theorem firstOn_eq_none (absent : ∀ op ∈ ops, op.key ≠ key) : firstOn key ops = none := by
  simpa [firstOn] using absent

theorem lastOn_append (key : String) (front back : List MapOp) :
    lastOn key (front ++ back) = (lastOn key back).or (lastOn key front) := by
  rw [lastOn, reverse_append, List.find?_append]
  rfl

theorem lastOn_eq_none (absent : ∀ op ∈ ops, op.key ≠ key) : lastOn key ops = none := by
  simpa [lastOn] using absent

theorem groupedOn_append (key : String) (front back : List (List MapOp)) :
    groupedOn key (front ++ back) = (groupedOn key back).or (groupedOn key front) := by
  induction front with
  | nil => simp [groupedOn]
  | cons group rest ih => rw [cons_append, groupedOn, groupedOn, ih, Option.or_assoc]

theorem groupedOn_eq_none (absent : ∀ op ∈ groups.flatten, op.key ≠ key) :
    groupedOn key groups = none := by
  induction groups with
  | nil => rfl
  | cons group rest ih =>
    rw [groupedOn, ih fun op member => absent op (mem_append_right _ member),
      firstOn_eq_none fun op member => absent op (mem_append_left _ member)]
    rfl

/-- Ops committed one by one: the last one counts. -/
theorem groupedOn_single (key : String) (ops : List MapOp) :
    groupedOn key (ops.map fun op => [op]) = lastOn key ops := by
  induction ops with
  | nil => rfl
  | cons op rest ih =>
    rw [map_cons, groupedOn, ih]
    exact (lastOn_append key [op] rest).symm

/-- The last group that has the key. -/
theorem last_group (key : String) (groups : List (List MapOp)) :
    (∀ op ∈ groups.flatten, op.key ≠ key) ∨
      ∃ earlier group later, groups = earlier ++ group :: later ∧
        (∃ op ∈ group, op.key = key) ∧ ∀ op ∈ later.flatten, op.key ≠ key := by
  induction groups with
  | nil => simp
  | cons group rest ih =>
    rcases ih with absent | ⟨earlier, found, later, rfl, has, absent⟩
    · by_cases has : ∃ op ∈ group, op.key = key
      · exact .inr ⟨[], group, rest, rfl, has, absent⟩
      · refine .inl fun op member same => ?_
        rcases mem_append.mp (flatten_cons ▸ member) with inGroup | inRest
        · exact has ⟨op, inGroup, same⟩
        · exact absent op inRest same
    · exact .inr ⟨group :: earlier, found, later, rfl, has, absent⟩

/-- Only the last group with the key matters, and it has a first and a last op on it. -/
theorem on_last_group {earlier later : List (List MapOp)} {group : List MapOp}
    (has : ∃ op ∈ group, op.key = key) (absent : ∀ op ∈ later.flatten, op.key ≠ key) :
    ∃ first last, firstOn key group = some first ∧ lastOn key group = some last ∧
      groupedOn key (earlier ++ group :: later) = some first ∧
      lastOn key (earlier ++ group :: later).flatten = some last := by
  obtain ⟨op, member, same⟩ := has
  obtain ⟨first, firstIs⟩ : ∃ first, firstOn key group = some first := by
    rw [← Option.isSome_iff_exists, firstOn, List.find?_isSome]
    exact ⟨op, member, decide_eq_true same⟩
  obtain ⟨last, lastIs⟩ : ∃ last, lastOn key group = some last := by
    rw [← Option.isSome_iff_exists, lastOn, List.find?_isSome]
    exact ⟨op, mem_reverse.mpr member, decide_eq_true same⟩
  refine ⟨first, last, firstIs, lastIs, ?_, ?_⟩
  · rw [groupedOn_append, groupedOn, groupedOn_eq_none absent, firstIs]
    rfl
  · rw [flatten_append, flatten_cons, lastOn_append, lastOn_append,
      lastOn_eq_none absent, lastIs]
    rfl

/-- In the last group that has a key, the first and the last op on it store the
same value. -/
def LastGroupsAgree (groups : List (List MapOp)) : Prop :=
  ∀ key earlier group later, groups = earlier ++ group :: later →
    (∀ op ∈ later.flatten, op.key ≠ key) →
    (firstOn key group).map MapOp.value = (lastOn key group).map MapOp.value

namespace StateGraph

theorem grouping_irrelevant_iff (crypto : Crypto) (graph : StateGraph)
    (reached : Reachable crypto (fun _ _ => True) graph) (groups : List (List MapOp))
    (grouped : StateGraph) (commits : Commits crypto graph groups grouped) (single : StateGraph)
    (singly : Commits crypto graph (groups.flatten.map fun op => [op]) single) :
    (∀ key, single.resolve key =
        (lastOn key groups.flatten).elim (graph.resolve key) MapOp.value) ∧
      ((∀ key, grouped.resolve key = single.resolve key) ↔ LastGroupsAgree groups) := by
  have alone (key : String) := singly.resolve reached key
  simp only [groupedOn_single] at alone
  refine ⟨alone, ?_⟩
  simp only [alone, commits.resolve reached]
  constructor
  · intro same key earlier group later split absent
    by_cases has : ∃ op ∈ group, op.key = key
    · subst split
      obtain ⟨first, last, firstIs, lastIs, counts, final⟩ :=
        @on_last_group key earlier later group has absent
      have value := same key
      rw [counts, final] at value
      rw [firstIs, lastIs]
      exact congrArg some value
    · have none : ∀ op ∈ group, op.key ≠ key := fun op member found => has ⟨op, member, found⟩
      rw [firstOn_eq_none none, lastOn_eq_none none]
  · intro agree key
    rcases last_group key groups with absent | ⟨earlier, group, later, split, has, absent⟩
    · rw [groupedOn_eq_none absent, lastOn_eq_none absent]
    · have values := agree key earlier group later split absent
      subst split
      obtain ⟨first, last, firstIs, lastIs, counts, final⟩ :=
        @on_last_group key earlier later group has absent
      rw [firstIs, lastIs] at values
      rw [counts, final]
      exact Option.some.inj values

def overwritten : List MapOp := [.set "k" [1], .set "k" [2]]

def groupNode : SyncNode :=
  localNode Crypto.sample .empty (Crypto.sampleKey 1) 0 (overwritten.map .map) noLeaves

def groupWritten : StateGraph := empty.commitLocal (overwritten.map .map) groupNode

theorem groupWritten_commits : Commits Crypto.sample .empty [overwritten] groupWritten :=
  .group (applyLocal_commit (by decide) (by decide)) .done

def firstNode : SyncNode :=
  localNode Crypto.sample .empty (Crypto.sampleKey 1) 0 [.map (.set "k" [1])] noLeaves

def firstWritten : StateGraph := empty.commitLocal [.map (.set "k" [1])] firstNode

def firstLeaves : Enumeration firstWritten.leaves := ⟨[firstNode.id], by simp, by decide⟩

def secondNode : SyncNode :=
  localNode Crypto.sample firstWritten (Crypto.sampleKey 1) 0 [.map (.set "k" [2])] firstLeaves

def singlyWritten : StateGraph := firstWritten.commitLocal [.map (.set "k" [2])] secondNode

theorem singlyWritten_commits :
    Commits Crypto.sample .empty (([overwritten].flatten).map fun op => [op]) singlyWritten :=
  have first : applyLocal Crypto.sample .empty (Crypto.sampleKey 1) 0
      (([.set "k" [1]] : List MapOp).map .map) noLeaves = some (firstWritten, .ok firstNode.id) :=
    applyLocal_commit (by decide) (by decide)
  have second : applyLocal Crypto.sample firstWritten (Crypto.sampleKey 1) 0
      (([.set "k" [2]] : List MapOp).map .map) firstLeaves =
        some (singlyWritten, .ok secondNode.id) :=
    applyLocal_commit (by decide) (by decide)
  .group first (.group second .done)

theorem overwritten_group_disagrees :
    singlyWritten.resolve "k" = some [2] ∧ ¬ LastGroupsAgree [overwritten] := by
  obtain ⟨last, same⟩ := grouping_irrelevant_iff Crypto.sample .empty .start [overwritten]
    groupWritten groupWritten_commits singlyWritten singlyWritten_commits
  refine ⟨last "k", fun agree => ?_⟩
  have equal : groupWritten.resolve "k" = singlyWritten.resolve "k" := same.mpr agree "k"
  revert equal
  decide

theorem grouped_first_write_wins :
    Reachable Crypto.sample (fun _ _ => True) .empty ∧
      Commits Crypto.sample .empty [[.set "k" [1], .set "k" [2]]] groupWritten ∧
      Commits Crypto.sample .empty [[.set "k" [1]], [.set "k" [2]]] singlyWritten ∧
      groupWritten.resolve "k" = some [1] ∧ singlyWritten.resolve "k" = some [2] :=
  ⟨.start, groupWritten_commits, singlyWritten_commits, by decide, by decide⟩

end StateGraph

end NodalMerge
