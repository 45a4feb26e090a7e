import NodalMerge.Crdt.Compaction

namespace NodalMerge

open Function LinkedLog List Retry StateGraph

/-- `rebuild_from_snapshot`; nodes that never find their parents are passed over. -/
def rebuildFromSnapshot (crypto : Crypto) (postcard : Postcard) (snapshot : SyncNode)
    (delta : List SyncNode) : Except SyncError StateGraph := do
  let _ ← verifySnapshot crypto postcard snapshot
  let applied := applyRemote crypto .empty snapshot
  applied.2
  match run (attempt crypto none) applied.1 delta with
  | .error failure => .error failure.2
  | .ok (graph, _) => .ok graph

def placeable (known : List SyncNode) (node : SyncNode) : Bool :=
  !(known.any fun other => other.id = node.id) &&
    node.parents.all fun parent => known.any fun other => other.id = parent

theorem placeable_iff : placeable known node = true ↔ Placeable known node := by
  have present (id : NodeId) : (known.any fun other => other.id = id) = true ↔
      id ∈ known.map SyncNode.id := by simp
  rw [placeable, Bool.and_eq_true, Bool.not_eq_true', ← Bool.not_eq_true, present,
    all_eq_true]
  simp only [present]
  exact ⟨fun both => ⟨both.1, both.2⟩, fun placeable => ⟨placeable.fresh, placeable.known⟩⟩

def place (known : List SyncNode) (node : SyncNode) : List SyncNode :=
  if placeable known node then known ++ [node] else known

/-- One pass: every node that can be placed in its turn. -/
def placeAll (known later : List SyncNode) : List SyncNode := later.foldl place known

/-- Passes until nothing more can be placed. -/
def settled (known later : List SyncNode) : List SyncNode :=
  (fun known => placeAll known later)^[later.length] known

section
variable {graph next : StateGraph}

theorem attempt_place (proceeds : (attempt crypto policyOf graph node).Proceeds next) :
    next.nodes.data = place graph.nodes.data node := by
  unfold place
  rcases (attempt_effect proceeds).stored with ⟨refused, same, -⟩ | ⟨placeable, data, -⟩
  · rw [if_neg (mt placeable_iff.mp refused), same]
  · rw [if_pos (placeable_iff.mpr placeable), data]

theorem mem_place {id : NodeId} (member : id ∈ known.map SyncNode.id)
    (other : SyncNode) : id ∈ (place known other).map SyncNode.id := by
  unfold place
  split
  · rw [map_append]
    exact mem_append_left _ member
  · exact member

/-- What a run that does not fail stores. -/
theorem data_eq_settled (runs : Runs (attempt crypto policyOf) graph later last still) :
    last.nodes.data = settled graph.nodes.data later := by
  refine @Runs.view_eq _ _ _ (attempt crypto policyOf) graph last later still _
    (fun graph : StateGraph => graph.nodes.data) place
    (fun known node => node.id ∈ known.map SyncNode.id) (fun _ _ _ => attempt_place)
    (fun graph node next done => ?_) (fun known node stored => ?_)
    (fun known node other stored => mem_place stored other) (fun graph node next waits => ?_) runs
    later.length le_rfl
  · exact MemoryNodeStore.contains_iff.mp (contains_of_done done)
  · exact if_neg fun can => (placeable_iff.mp can).fresh stored
  · rcases attempt_inv waits with ⟨state, error, failed⟩ | ⟨-, ⟨-, result⟩ | ⟨-, -, done⟩⟩
    · cases failed
    · obtain rfl := Outcome.later.inj result
      simp
    · cases done

/-- Every node of a pass has its content hash, a clock within the slack of what
is placed so far, and a good signature unless its id came by before. -/
def PassesInTurn (crypto : Crypto) : List SyncNode → List SyncNode → List SyncNode → Prop
  | _, _, [] => True
  | known, seen, node :: rest =>
    crypto.txHash node.transaction = node.id ∧
      node.lamport ≤ saturatingAdd (maxLamport known) lamportSlack ∧
      (node.id ∈ seen.map SyncNode.id ∨ node.Genuine crypto) ∧
      PassesInTurn crypto (place known node) (node :: seen) rest

theorem StateGraph.Vetted.step {other : SyncNode} (vetted : Vetted crypto graph node)
    (effect : Effect crypto policyOf graph other next) : Vetted crypto next node := by
  refine ⟨vetted.hashed, vetted.ceiling.trans (saturatingAdd_mono ?_ _), vetted.signed.imp_left ?_⟩
  · rcases effect.stored with ⟨-, -, same⟩ | ⟨-, -, clock⟩
    · rw [same]
    · rw [clock]
      exact le_max_left _ _
  · intro marked
    rw [effect.verifiedIds]
    exact Finset.mem_insert_of_mem marked

theorem attempt_proceeds (vetted : Vetted crypto graph node) (allowAll : graph.policy = .default) :
    ∃ next, (attempt crypto none graph node).Proceeds next ∧ next.policy = .default := by
  have proceeds : ∃ next, (attempt crypto none graph node).Proceeds next := by
    rcases parents_cases graph node with missing | parents
    · exact ⟨_, .inr (attempt_later vetted missing)⟩
    · refine ⟨_, .inl (attempt_done vetted parents (.inr fun op _ => ?_))⟩
      change graph.policy.canWrite _ _ = true
      rw [allowAll]
      rfl
  obtain ⟨next, proceeds⟩ := proceeds
  exact ⟨next, proceeds, ((attempt_effect proceeds).policy rfl).trans allowAll⟩

theorem vetted_of_trace (trace : Trace (attempt crypto policyOf) graph later last still) :
    ∀ node ∈ later, Vetted crypto last node := by
  have lasting {start final : StateGraph} {items rest : List SyncNode} {node : SyncNode}
      (tail : Trace (attempt crypto policyOf) start items final rest)
      (vetted : Vetted crypto start node) : Vetted crypto final node := by
    have kept : ∀ state other next, other ∈ items → Vetted crypto state node →
        (attempt crypto policyOf state other).Proceeds next → Vetted crypto next node :=
      fun _ _ _ _ before proceeds => before.step (attempt_effect proceeds)
    exact tail.invariant kept vetted
  induction later generalizing graph still with
  | nil => exact fun node absent => (not_mem_nil absent).elim
  | cons head rest ih =>
    obtain ⟨next, proceeds, still, tail⟩ := trace.head
    have effect := attempt_effect proceeds
    intro node member
    rcases mem_cons.mp member with rfl | inRest
    · exact lasting tail (effect.vetted.step effect)
    · exact ih tail node inRest

/-- A first pass that does not fail decides: no later pass can fail. -/
theorem exists_runs_iff (allowAll : graph.policy = .default) :
    (∃ last still, Runs (attempt crypto none) graph later last still) ↔
      ∃ last still, Trace (attempt crypto none) graph later last still := by
  constructor
  · rintro ⟨last, still, runs⟩
    cases runs with
    | finished => exact ⟨_, _, .nil⟩
    | stalled nonempty trace stuck => exact ⟨_, _, trace⟩
    | again trace shorter tail => exact ⟨_, _, trace⟩
  · rintro ⟨next, still, trace⟩
    have keptPolicy : ∀ state other next, other ∈ later → state.policy = .default →
        (attempt crypto none state other).Proceeds next → next.policy = .default :=
      fun _ _ _ _ before proceeds => ((attempt_effect proceeds).policy rfl).trans before
    have vetted := vetted_of_trace trace
    let Inv (state : StateGraph) : Prop :=
      state.policy = .default ∧ ∀ node ∈ later, Vetted crypto state node
    have proceeds : ∀ state, ∀ node ∈ still, Inv state →
        ∃ next, (attempt crypto none state node).Proceeds next ∧ Inv next := by
      rintro state node member ⟨policy, passes⟩
      obtain ⟨next, stepped, after⟩ :=
        attempt_proceeds (passes node (trace.sublist.subset member)) policy
      exact ⟨next, stepped, after, fun other inLater =>
        (passes other inLater).step (attempt_effect stepped)⟩
    rcases Nat.lt_or_eq_of_le trace.sublist.length_le with shorter | stuck
    · obtain ⟨last, rest, tail⟩ := exists_runs proceeds
        ⟨trace.invariant keptPolicy allowAll, vetted⟩
      exact ⟨last, rest, .again trace shorter tail⟩
    · by_cases empty : later = []
      · subst empty
        exact ⟨graph, [], .finished⟩
      · exact ⟨next, still, .stalled empty trace stuck⟩

/-- When the first pass fails on no node. -/
theorem exists_trace_iff (allowAll : graph.policy = .default)
    (clock : graph.lamport = maxLamport graph.nodes.data)
    (marked : ∀ id, id ∈ graph.verifiedIds ↔ id ∈ seen.map SyncNode.id) :
    (∃ last still, Trace (attempt crypto none) graph later last still) ↔
      PassesInTurn crypto graph.nodes.data seen later := by
  induction later generalizing graph seen with
  | nil => exact ⟨fun _ => trivial, fun _ => ⟨graph, [], .nil⟩⟩
  | cons node rest ih =>
    have check : Vetted crypto graph node ↔ crypto.txHash node.transaction = node.id ∧
        node.lamport ≤ saturatingAdd (maxLamport graph.nodes.data) lamportSlack ∧
        (node.id ∈ seen.map SyncNode.id ∨ node.Genuine crypto) := by
      rw [← clock, ← marked]
      exact ⟨fun vetted => ⟨vetted.hashed, vetted.ceiling, vetted.signed⟩,
        fun ⟨hashed, ceiling, signed⟩ => ⟨hashed, ceiling, signed⟩⟩
    by_cases vetted : Vetted crypto graph node
    · obtain ⟨next, proceeds, after⟩ := attempt_proceeds vetted allowAll
      have effect := attempt_effect proceeds
      have data := attempt_place proceeds
      have nextClock : next.lamport = maxLamport next.nodes.data := by
        rcases effect.stored with ⟨-, same, sameClock⟩ | ⟨-, appended, moved⟩
        · rw [sameClock, same, clock]
        · rw [moved, appended, maxLamport_append, maxLamport_singleton, clock]
      have nextMarked : ∀ id, id ∈ next.verifiedIds ↔ id ∈ (node :: seen).map SyncNode.id := by
        intro id
        rw [effect.verifiedIds, Finset.mem_insert, marked, map_cons, mem_cons]
      obtain ⟨hashed, ceiling, signed⟩ := check.mp vetted
      have tail := ih after nextClock nextMarked
      rw [data] at tail
      rw [PassesInTurn, ← tail]
      exact (exists_trace_cons proceeds).trans
        ⟨fun tail => ⟨hashed, ceiling, signed, tail⟩, fun passes => passes.2.2.2⟩
    · refine iff_of_false (fun ⟨last, still, trace⟩ => vetted ?_) fun ⟨hashed, ceiling, signed, _⟩ =>
        vetted (check.mpr ⟨hashed, ceiling, signed⟩)
      obtain ⟨next, proceeds, -⟩ := trace.head
      exact (attempt_effect proceeds).vetted

theorem mem_placeAll (member : node ∈ placeAll known later) :
    node ∈ known ∨ node ∈ later := by
  induction later generalizing known with
  | nil => exact .inl member
  | cons head rest ih =>
    rcases ih member with placed | inRest
    · unfold place at placed
      split at placed
      · rcases mem_append.mp placed with inKnown | same
        · exact .inl inKnown
        · exact .inr (mem_singleton.mp same ▸ .head _)
      · exact .inl placed
    · exact .inr (.tail _ inRest)

theorem mem_settled (member : node ∈ settled known later) :
    node ∈ known ∨ node ∈ later := by
  unfold settled at member
  generalize later.length = count at member
  induction count with
  | zero => exact .inl member
  | succ count ih =>
    rw [iterate_succ_apply'] at member
    exact (mem_placeAll member).elim ih .inr

end

section
variable {graph : StateGraph}

/-- An empty graph takes the snapshot when its clock is within the slack. -/
theorem vetted_snapshotNode_iff (signs : crypto.SignVerifies) :
    Vetted crypto .empty (graph.snapshotNode crypto postcard signingKey none []) ↔
      graph.lamport + 1 ≤ lamportSlack := by
  constructor
  · intro vetted
    exact vetted.ceiling.trans ((Nat.min_le_left _ _).trans (Nat.zero_add _).le)
  · intro low
    exact ⟨snapshotNode_hashed, le_min (low.trans (Nat.le_add_left _ _)) (low.trans (by decide)),
      .inr (snapshotNode_genuine signs)⟩

/-- A rebuild succeeds when the snapshot verifies, an empty graph takes it, and
none of the later nodes is refused. -/
theorem rebuildFromSnapshot_ok_iff :
    rebuildFromSnapshot crypto postcard snapshot later = .ok rebuilt ↔
      (∃ content, verifySnapshot crypto postcard snapshot = .ok content) ∧
        Vetted crypto .empty snapshot ∧ empty.Admissible snapshot ∧
        ∃ still, Runs (attempt crypto none) (empty.accept snapshot) later rebuilt still := by
  constructor
  · intro ok
    obtain ⟨content, verified, ok⟩ := bind_eq_ok.mp ok
    obtain ⟨_, applied, ok⟩ := bind_eq_ok.mp ok
    have accepted : Vetted crypto .empty snapshot ∧ empty.Admissible snapshot ∧
        applyRemote crypto .empty snapshot = (empty.accept snapshot, .ok ()) := by
      rcases applyRemoteChecked_cases crypto .empty snapshot none with
        ⟨screened, admissible, same⟩ | ⟨ids, error, -, same⟩
      · exact ⟨screened_iff.mp screened, admissible, same⟩
      · cases (congrArg Prod.snd same).symm.trans applied
    refine ⟨⟨content, verified⟩, accepted.1, accepted.2.1, ?_⟩
    rw [accepted.2.2] at ok
    split at ok
    · cases ok
    · rename_i graph still ran
      cases ok
      exact ⟨still, run_ok_iff.mp ran⟩
  · rintro ⟨⟨content, verified⟩, vetted, admissible, still, runs⟩
    have accepted : applyRemote crypto .empty snapshot = (empty.accept snapshot, .ok ()) :=
      applyRemoteChecked_accepts (screened_iff.mpr vetted) admissible
    refine bind_eq_ok.mpr ⟨content, verified, bind_eq_ok.mpr ⟨(), by rw [accepted], ?_⟩⟩
    rw [accepted, run_ok_iff.mpr runs]

theorem rebuild_snapshotNode_iff (signs : crypto.SignVerifies) :
    rebuildFromSnapshot crypto postcard (graph.snapshotNode crypto postcard signingKey none [])
        later = .ok rebuilt ↔
      graph.lamport + 1 ≤ lamportSlack ∧ ∃ still, Runs (attempt crypto none)
        (empty.accept (graph.snapshotNode crypto postcard signingKey none [])) later rebuilt still := by
  have admissible : empty.Admissible (graph.snapshotNode crypto postcard signingKey none []) :=
    ⟨by simp, .inl isSnapshotNode_snapshotNode, rfl⟩
  rw [rebuildFromSnapshot_ok_iff, vetted_snapshotNode_iff signs]
  constructor
  · rintro ⟨-, low, -, runs⟩
    exact ⟨low, runs⟩
  · rintro ⟨low, runs⟩
    exact ⟨⟨_, verifySnapshot_snapshotNode signs⟩, low, admissible, runs⟩

/-- The fresh graph with nothing but the snapshot. -/
theorem intake_snapshot (vetted : Vetted crypto .empty snapshot)
    (root : snapshot.parents = []) (later : List SyncNode) :
    Intake crypto none .default (snapshot :: later) (empty.accept snapshot) := by
  have done : attempt crypto none .empty snapshot = .done (empty.accept snapshot) :=
    attempt_done vetted (by simp [root]) (.inr fun _ _ => rfl)
  exact (Intake.empty crypto none (snapshot :: later)).step (.head _) (.inl done)

/-- The clock of a rebuilt graph is the largest among the nodes it was built from. -/
theorem rebuildFromSnapshot_lamport
    (installed : rebuildFromSnapshot crypto postcard snapshot later = .ok rebuilt) :
    rebuilt.lamport = maxLamport (settled [snapshot] later) := by
  obtain ⟨-, vetted, admissible, still, runs⟩ := rebuildFromSnapshot_ok_iff.mp installed
  have root : snapshot.parents = [] := by
    refine eq_nil_iff_forall_not_mem.mpr fun parent edge => ?_
    cases admissible.parents parent edge
  have intake := intake_snapshot vetted root later
  rw [(intake.runs (fun node member => .tail _ member) runs).1.clock, data_eq_settled runs]
  rfl

/-- What the later nodes that settle on the snapshot show of the visible keys. -/
theorem resolves_iff {all : List SyncNode}
    (hidden : ∀ key, systemKey key = false → ∀ node ∈ known, mapWrites key node = [])
    (inside : ∀ node ∈ later, node ∈ all) :
    (∀ key, systemKey key = false → lwwResolve (settled known later) key = lwwResolve all key) ↔
      ∀ key, systemKey key = false → ∀ node, Wins all key node →
        lwwResolve (settled known later) key = firstValue key node := by
  constructor
  · intro same key visible node wins
    rw [same key visible, wins.lwwResolve_eq]
  · intro each key visible
    rcases wins_or_unwritten all key with ⟨node, wins⟩ | ⟨unwritten, empty⟩
    · rw [each key visible node wins, wins.lwwResolve_eq]
    · rw [empty]
      rcases wins_or_unwritten (settled known later) key with ⟨node, wins⟩ | ⟨-, settledEmpty⟩
      · rcases mem_settled wins.mem with inKnown | inLater
        · exact (wins.writes (hidden key visible node inKnown)).elim
        · exact (wins.writes (unwritten node (inside node inLater))).elim
      · exact settledEmpty

end

/-- Installing the snapshot of a graph with later nodes shows what the graph
and those nodes show together, outside the system namespace, exactly when the
snapshot's clock is within the slack of an empty graph, the later nodes pass the
checks in their turn, and the value of every winning write is also what those
later nodes give that settle on the snapshot alone. -/
theorem snapshot_install_preserves_iff (crypto : Crypto) (postcard : Postcard)
    (signs : crypto.SignVerifies) (graph : StateGraph) (signingKey : crypto.SigningKey)
    (later : List SyncNode) :
    (∃ snapshot rebuilt, graph.compact crypto postcard signingKey = some snapshot ∧
        rebuildFromSnapshot crypto postcard snapshot later = .ok rebuilt ∧
        ∀ key, systemKey key = false →
          rebuilt.resolve key = lwwResolve (graph.nodes.data ++ later) key) ↔
      let snapshot := graph.snapshotNode crypto postcard signingKey none []
      graph.lamport + 1 ≤ lamportSlack ∧ PassesInTurn crypto [snapshot] [snapshot] later ∧
        ∀ key, systemKey key = false → ∀ node, Wins (graph.nodes.data ++ later) key node →
          lwwResolve (settled [snapshot] later) key = firstValue key node := by
  dsimp only
  set snapshot := graph.snapshotNode crypto postcard signingKey none []
  have hidden : ∀ key, systemKey key = false → ∀ node ∈ [snapshot], mapWrites key node = [] := by
    intro key visible node member
    rw [mem_singleton.mp member]
    exact mapWrites_snapshotNode visible
  rw [← resolves_iff hidden fun node member => mem_append_right _ member]
  have shows {rebuilt : StateGraph} {still : List SyncNode} (low : graph.lamport + 1 ≤ lamportSlack)
      (runs : Runs (attempt crypto none) (empty.accept snapshot) later rebuilt still) (key : String) :
      rebuilt.resolve key = lwwResolve (settled [snapshot] later) key := by
    have vetted : Vetted crypto .empty snapshot := (vetted_snapshotNode_iff signs).mpr low
    have intake := intake_snapshot vetted rfl later
    have final := (intake.runs (fun node member => .tail _ member) runs).1
    rw [final.reached.resolve_eq, data_eq_settled runs]
    rfl
  have passes : (∃ rebuilt still, Runs (attempt crypto none) (empty.accept snapshot) later rebuilt
      still) ↔ PassesInTurn crypto [snapshot] [snapshot] later := by
    have marked : (empty.accept snapshot).verifiedIds = {snapshot.id} := rfl
    rw [exists_runs_iff rfl]
    exact exists_trace_iff rfl (max_comm _ _) fun id => by rw [marked]; simp
  constructor
  · rintro ⟨made, rebuilt, compacted, installed, same⟩
    obtain ⟨-, rfl⟩ := compact_eq_some_iff.mp compacted
    obtain ⟨low, still, runs⟩ := (rebuild_snapshotNode_iff signs).mp installed
    refine ⟨low, passes.mp ⟨rebuilt, still, runs⟩, fun key visible => ?_⟩
    rw [← shows low runs, same key visible]
  · rintro ⟨low, passing, same⟩
    obtain ⟨rebuilt, still, runs⟩ := passes.mpr passing
    refine ⟨snapshot, rebuilt, compact_eq_some_iff.mpr ⟨low.trans (by decide), rfl⟩,
      (rebuild_snapshotNode_iff signs).mpr ⟨low, still, runs⟩, fun key visible => ?_⟩
    rw [shows low runs, same key visible]

/-- The snapshot node of the replica with one write. -/
def sampleSnapshot : SyncNode :=
  sampleReader.snapshotNode Crypto.sample Postcard.sample (Crypto.sampleKey 1) none []

/-- A write on top of the snapshot that takes the place of the one below it. -/
def overwritingNode : SyncNode :=
  .newSigned Crypto.sample ⟨.padTo 32 [1], 3, 0, [.map (.set "k" [8])], [sampleSnapshot.id]⟩
    (Crypto.sampleKey 1)

theorem overwritten_write_survives :
    ∃ snapshot rebuilt, sampleReader.compact Crypto.sample Postcard.sample (Crypto.sampleKey 1) =
        some snapshot ∧
      rebuildFromSnapshot Crypto.sample Postcard.sample snapshot [overwritingNode] = .ok rebuilt ∧
      rebuilt.resolve "k" = lwwResolve [sampleNode, overwritingNode] "k" := by
  have passes : PassesInTurn Crypto.sample [sampleSnapshot] [sampleSnapshot] [overwritingNode] :=
    ⟨rfl, by decide, .inr (SyncNode.newSigned_genuine Crypto.sample_signVerifies rfl), trivial⟩
  have placeable : Placeable [sampleSnapshot] overwritingNode :=
    ⟨by decide, fun parent edge => edge⟩
  have settles : settled [sampleSnapshot] [overwritingNode] = [sampleSnapshot, overwritingNode] := by
    change place [sampleSnapshot] overwritingNode = _
    rfl
  have wins : ∀ key, systemKey key = false → ∀ node,
      Wins [sampleNode, overwritingNode] key node →
        lwwResolve (settled [sampleSnapshot] [overwritingNode]) key = firstValue key node := by
    intro key _ node isWinner
    rw [← isWinner.lwwResolve_eq, settles]
    obtain rfl : key = "k" := by
      have member := isWinner.mem
      simp only [mem_cons, not_mem_nil, or_false] at member
      rcases member with rfl | rfl
      · exact @eq_key_of_mapWrites _ _ (.set "k" [7]) rfl isWinner.writes
      · exact @eq_key_of_mapWrites _ _ (.set "k" [8]) rfl isWinner.writes
    decide
  obtain ⟨snapshot, rebuilt, made, installed, same⟩ := (snapshot_install_preserves_iff Crypto.sample
    Postcard.sample Crypto.sample_signVerifies sampleReader (Crypto.sampleKey 1)
    [overwritingNode]).mpr ⟨by decide, passes, wins⟩
  exact ⟨snapshot, rebuilt, made, installed, same "k" (by decide)⟩

/-- Nothing that was written before the snapshot is there after installing it. -/
theorem installed_snapshot_loses_write :
    Reachable Crypto.sample (fun _ _ => True) sampleReader ∧
      ∃ snapshot rebuilt, sampleReader.compact Crypto.sample Postcard.sample (Crypto.sampleKey 1) =
          some snapshot ∧
        rebuildFromSnapshot Crypto.sample Postcard.sample snapshot [] = .ok rebuilt ∧
        systemKey "k" = false ∧ rebuilt.resolve "k" = none ∧
        lwwResolve (sampleReader.nodes.data ++ []) "k" = some [7] := by
  have checked : ((rebuildFromSnapshot Crypto.sample Postcard.sample sampleSnapshot
      []).toOption.any fun rebuilt => rebuilt.resolve "k" = none) = true := by
    decide +kernel
  obtain ⟨rebuilt, installed, lost⟩ := any_toOption.mp checked
  exact ⟨sampleReader_reachable, sampleSnapshot, rebuilt, rfl, installed, by decide,
    of_decide_eq_true lost, by decide⟩

end NodalMerge
