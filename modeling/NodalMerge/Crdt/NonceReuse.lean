import NodalMerge.Crdt.SyncStore
import NodalMerge.Library.ClockLog

namespace NodalMerge.SyncStore

open ClockLog List Retry StateGraph

variable {cipher : RoomCipher} {postcard : Postcard} {store next last : SyncStore crypto}
  {key : Bytes 32}

/-- A call on a store. A pack is the list of its nodes. -/
inductive Action where
  | set (key : String) (value : List U8) (nowMs : Nat)
  | delete (key : String) (nowMs : Nat)
  | flushTick (nowMs : Nat)
  | importPack (nodes : List SyncNode)
  | applySnapshotPack (nodes : List SyncNode)

/-- The store after a call, failed or not; `none` is a panic. -/
def perform (cipher : RoomCipher) (postcard : Postcard) (store : SyncStore crypto)
    (parents : Enumeration store.graph.leaves) : Action → Option (SyncStore crypto)
  | .set key value nowMs => (set cipher store key value nowMs parents).map Prod.fst
  | .delete key nowMs => (delete cipher store key nowMs parents).map Prod.fst
  | .flushTick nowMs => (flushTick cipher store nowMs parents).map Prod.fst
  | .importPack nodes => some (importPack cipher store nodes).1
  | .applySnapshotPack nodes => some (applySnapshotPack postcard store nodes).1

def Action.isWrite : Action → Bool
  | .set .. | .delete .. | .flushTick .. => true
  | .importPack .. | .applySnapshotPack .. => false

/-- Calls one after another, each with the store before it. -/
inductive Run (cipher : RoomCipher) (postcard : Postcard) (start : SyncStore crypto) :
    List (SyncStore crypto × Action) → SyncStore crypto → Prop where
  | start : Run cipher postcard start [] start
  | step {steps : List (SyncStore crypto × Action)} {store next : SyncStore crypto}
      {action : Action} (before : Run cipher postcard start steps store)
      (parents : Enumeration store.graph.leaves)
      (performed : perform cipher postcard store parents action = some next) :
      Run cipher postcard start (steps ++ [(store, action)]) next

/-- Writes one after another. -/
inductive Writes (cipher : RoomCipher) (postcard : Postcard) (start : SyncStore crypto) :
    SyncStore crypto → Prop where
  | start : Writes cipher postcard start start
  | step {store next : SyncStore crypto} (action : Action)
      (before : Writes cipher postcard start store) (write : action.isWrite = true)
      (parents : Enumeration store.graph.leaves)
      (performed : perform cipher postcard store parents action = some next) :
      Writes cipher postcard start next

/-- Commits of different ops were encrypted under different pairs of author and
clock. -/
def NoncesDistinct (store : SyncStore crypto) : Prop :=
  store.encrypted.Pairwise fun first second =>
    first.ops ≠ second.ops → (first.author, first.lamport) ≠ (second.author, second.lamport)

/-- A snapshot pack that is installed has a node, its snapshot or a later one
that settles on it, with a clock no smaller than any the store has encrypted under. -/
def KeepsClock (postcard : Postcard) (store : SyncStore crypto) : Action → Prop
  | .applySnapshotPack nodes => ∀ snapshot delta installed, nodes = snapshot :: delta →
      openSnapshotPack crypto postcard nodes = .ok installed →
        ∀ input ∈ store.encrypted, input.lamport ≤ maxLamport (settled [snapshot] delta)
  | _ => True

def tally (store : SyncStore crypto) : Tally (List Op) where
  clock := store.graph.lamport
  used := store.encrypted.map fun input => (input.lamport, input.ops)

/-- What every call keeps: the room key, and that all encryptions are the
store's own. -/
structure Keyed (key : Bytes 32) (store : SyncStore crypto) : Prop where
  secret : store.roomKey = some key
  author : ∀ input ∈ store.encrypted, input.author = crypto.verifyingKey store.signingKey
  bounded : ∀ input ∈ store.encrypted, input.lamport ≤ u64Max

theorem Keyed.distinct_iff (keyed : Keyed key store) :
    store.NoncesDistinct ↔ store.tally.Distinct := by
  rw [NoncesDistinct, Tally.Distinct, tally, pairwise_map]
  apply List.Pairwise.iff_of_mem
  intro first second inFirst inSecond
  rw [keyed.author first inFirst, keyed.author second inSecond]
  simp

/-- Encrypted ops take one value of the clock, also when the node is refused as
a duplicate. -/
theorem applyLocal_wrapped_lamport {graph : StateGraph} {signingKey : crypto.SigningKey}
    {lamport : Nat} {parents : Enumeration graph.leaves}
    (produced : wrapEncryptedOps cipher key author lamport ops = .ok wrapped)
    (applies : StateGraph.applyLocal crypto graph signingKey wallMs wrapped parents = some applied) :
    applied.1.lamport = graph.lamport + 1 := by
  obtain ⟨payload, -, rfl⟩ := wrapEncryptedOps_ok_iff.mp produced
  obtain ⟨room, ⟨-, rfl⟩ | ⟨-, rfl⟩⟩ := applyLocal_cases applies
  · exact min_eq_left room
  · have own : (localNode crypto graph signingKey wallMs [.map (.set e2eeKey payload)]
        parents).lamport = graph.lamport + 1 := by
      rw [SyncNode.lamport, localNode_transaction]
      rfl
    rw [commitLocal_lamport, own]
    exact max_eq_right (Nat.min_le_left _ _)

/-- A commit uses the next value of the clock for its ops. -/
theorem commitOpsImmediate_tally (encrypts : cipher.AlwaysEncrypts) (keyed : Keyed key store)
    (ran : commitOpsImmediate cipher store ops wallMs parents = some outcome) :
    Keyed key outcome.1 ∧ outcome.1.tally = store.tally.use ops := by
  obtain ⟨room, ⟨error, failed, -⟩ | ⟨wrapped, applied, produced, applies, rfl⟩⟩ :=
    commitOpsImmediate_cases keyed.secret ran
  · obtain ⟨wrapped, produced⟩ := exists_wrapEncryptedOps encrypts key
      (crypto.verifyingKey store.signingKey) (store.graph.lamport + 1) ops
    cases failed.symm.trans produced
  · refine ⟨⟨keyed.secret, ?_, ?_⟩, ?_⟩
    · intro input member
      rcases mem_append.mp member with old | new
      · exact keyed.author input old
      · rw [mem_singleton.mp new]
        rfl
    · intro input member
      rcases mem_append.mp member with old | new
      · exact keyed.bounded input old
      · rw [mem_singleton.mp new]
        exact room
    · simp [tally, Tally.use, logged, encryptInput, applyLocal_wrapped_lamport produced applies]

/-- What a write comes to: ops are buffered, or a commit. -/
theorem applyLocalOps_cases (ran : applyLocalOps cipher store ops wallMs parents = some outcome) :
    (∃ pending, outcome.1 = { store with pendingTickOps := pending }) ∨
      ∃ pending committed result, commitOpsImmediate cipher { store with pendingTickOps := pending }
        committed wallMs parents = some (outcome.1, result) := by
  unfold applyLocalOps at ran
  split at ran
  · dsimp only at ran
    split at ran
    · obtain ⟨committed, commits, rfl⟩ := Option.map_eq_some_iff.mp ran
      exact .inr ⟨[], _, committed.2, commits⟩
    · cases ran
      exact .inl ⟨_, rfl⟩
  · obtain ⟨committed, commits, rfl⟩ := Option.map_eq_some_iff.mp ran
    exact .inr ⟨store.pendingTickOps, _, committed.2, commits⟩

theorem flushTick_cases (ran : flushTick cipher store wallMs parents = some outcome) :
    outcome.1 = store ∨
      ∃ result, commitOpsImmediate cipher { store with pendingTickOps := [] } store.pendingTickOps
        wallMs parents = some (outcome.1, result) := by
  unfold flushTick at ran
  split at ran
  · cases ran
    exact .inl rfl
  · obtain ⟨committed, commits, rfl⟩ := Option.map_eq_some_iff.mp ran
    exact .inr ⟨committed.2, commits⟩

theorem perform_write_cases
    (write : action.isWrite = true)
    (performed : perform cipher postcard store parents action = some next) :
    (∃ pending, next = { store with pendingTickOps := pending }) ∨
      ∃ pending committed wallMs result,
        commitOpsImmediate cipher { store with pendingTickOps := pending } committed wallMs
          parents = some (next, result) := by
  cases action with
  | set key value nowMs =>
    obtain ⟨outcome, ran, rfl⟩ := Option.map_eq_some_iff.mp performed
    exact (applyLocalOps_cases ran).imp_right fun ⟨pending, committed, commits⟩ =>
      ⟨pending, committed, nowMs, commits⟩
  | delete key nowMs =>
    obtain ⟨outcome, ran, rfl⟩ := Option.map_eq_some_iff.mp performed
    exact (applyLocalOps_cases ran).imp_right fun ⟨pending, committed, commits⟩ =>
      ⟨pending, committed, nowMs, commits⟩
  | flushTick nowMs =>
    obtain ⟨outcome, ran, rfl⟩ := Option.map_eq_some_iff.mp performed
    exact (flushTick_cases ran).imp (fun same => ⟨store.pendingTickOps, same⟩)
      fun commits => ⟨[], store.pendingTickOps, nowMs, commits⟩
  | importPack nodes => cases write
  | applySnapshotPack nodes => cases write

theorem Keyed.withPending (keyed : Keyed key store) (pending : List Op) :
    Keyed key { store with pendingTickOps := pending } :=
  ⟨keyed.secret, keyed.author, keyed.bounded⟩

theorem Keyed.withGraph (keyed : Keyed key store) (graph : StateGraph) :
    Keyed key { store with graph } :=
  ⟨keyed.secret, keyed.author, keyed.bounded⟩

/-- A write leaves the tally alone or uses the next value of the clock. -/
theorem perform_write_tally
    (encrypts : cipher.AlwaysEncrypts) (keyed : Keyed key store) (write : action.isWrite = true)
    (performed : perform cipher postcard store parents action = some next) :
    Keyed key next ∧
      (next.tally = store.tally ∨ ∃ payload, next.tally = store.tally.use payload) := by
  obtain ⟨pending, rfl⟩ | ⟨pending, committed, wallMs, result, commits⟩ :=
    perform_write_cases write performed
  · exact ⟨keyed.withPending pending, .inl rfl⟩
  · obtain ⟨kept, used⟩ := commitOpsImmediate_tally encrypts (keyed.withPending pending) commits
    exact ⟨kept, .inr ⟨committed, used⟩⟩

theorem attempt_lamport_le (crypto : Crypto) (graph : StateGraph) (node : SyncNode) :
    graph.lamport ≤ (attempt crypto none graph node).state.lamport := by
  have forward : graph.lamport ≤ (applyRemote crypto graph node).1.lamport :=
    (applyRemoteChecked_steps crypto graph node none).lamport_le
  unfold attempt
  dsimp only
  split <;> exact forward

/-- An import does not set the clock back, whether it fails or not. -/
theorem importPack_lamport (cipher : RoomCipher) (store : SyncStore crypto)
    (nodes : List SyncNode) :
    ∃ graph : StateGraph, (importPack cipher store nodes).1 = { store with graph } ∧
      store.graph.lamport ≤ graph.lamport := by
  unfold importPack
  dsimp only
  split
  · exact ⟨store.graph, rfl, le_rfl⟩
  · rename_i opened _
    have kept : ∀ graph node, store.graph.lamport ≤ graph.lamport →
        store.graph.lamport ≤ (attempt crypto none graph node).state.lamport :=
      fun graph node before => before.trans (attempt_lamport_le crypto graph node)
    have forward : store.graph.lamport ≤
        (finalState (run (attempt crypto none) store.graph opened)).lamport :=
      run_keeps kept le_rfl
    split
    · rename_i failure ran
      rw [ran] at forward
      exact ⟨failure.1, rfl, forward⟩
    · rename_i result ran
      rw [ran] at forward
      exact ⟨result.1, rfl, forward⟩

/-- An installed pack sets the clock. -/
theorem openSnapshotPack_lamport {nodes : List SyncNode}
    (opened : openSnapshotPack crypto postcard nodes = .ok installed) :
    ∃ snapshot delta, nodes = snapshot :: delta ∧
      installed.1.lamport = maxLamport (settled [snapshot] delta) := by
  obtain ⟨⟨snapshot, delta⟩, unpacked, opened⟩ := bind_eq_ok.mp opened
  obtain ⟨content, -, opened⟩ := bind_eq_ok.mp opened
  obtain ⟨graph, rebuilt, finished⟩ := bind_eq_ok.mp opened
  cases finished
  refine ⟨snapshot, delta, ?_, rebuildFromSnapshot_lamport rebuilt⟩
  unfold unpackSnapshotPack at unpacked
  split at unpacked
  · cases unpacked
  · split at unpacked
    · obtain ⟨rfl, rfl⟩ := Prod.mk.inj (Except.ok.inj unpacked)
      rfl
    · cases unpacked

/-- What a call does to the tally: nothing, the next value is used, or the
clock is set; it is set back by no call but the install of a snapshot pack. -/
theorem perform_tally
    (encrypts : cipher.AlwaysEncrypts) (keyed : Keyed key store)
    (performed : perform cipher postcard store parents action = some next) :
    Keyed key next ∧
      ((∃ payload, next.tally = store.tally.use payload) ∨
        ∃ clock, next.tally = store.tally.move clock ∧
          (KeepsClock postcard store action → store.tally.Ordered →
            ∀ entry ∈ store.tally.used, entry.1 ≤ clock)) := by
  have stays {clock : Nat} (forward : store.graph.lamport ≤ clock)
      (ordered : store.tally.Ordered) :
      ∀ entry ∈ store.tally.used, entry.1 ≤ clock :=
    fun entry member => (ordered.covered entry member).trans forward
  cases write : action.isWrite with
  | true =>
    obtain ⟨kept, same | used⟩ := perform_write_tally encrypts keyed write performed
    · exact ⟨kept, .inr ⟨store.graph.lamport, same, fun _ => stays le_rfl⟩⟩
    · exact ⟨kept, .inl used⟩
  | false =>
    cases action with
    | set | delete | flushTick => cases write
    | importPack nodes =>
      obtain ⟨graph, result, forward⟩ := importPack_lamport cipher store nodes
      obtain rfl := result.symm.trans (Option.some.inj performed)
      exact ⟨keyed.withGraph graph, .inr ⟨graph.lamport, rfl, fun _ => stays forward⟩⟩
    | applySnapshotPack nodes =>
      cases performed
      unfold applySnapshotPack
      split
      · exact ⟨keyed, .inr ⟨store.graph.lamport, rfl, fun _ => stays le_rfl⟩⟩
      · rename_i graph hash opened
        obtain ⟨snapshot, delta, rfl, clock⟩ := openSnapshotPack_lamport opened
        refine ⟨keyed.withGraph graph, .inr ⟨graph.lamport, rfl, ?_⟩⟩
        intro keeps _ entry member
        obtain ⟨input, inUsed, rfl⟩ := mem_map.mp member
        exact (keeps snapshot delta _ rfl opened input inUsed).trans clock.ge

theorem exists_commitOpsImmediate
    (encrypts : cipher.AlwaysEncrypts)
    (secret : store.roomKey = some key) (room : store.graph.lamport + 1 ≤ u64Max) (ops : List Op)
    (wallMs : Nat) (parents : Enumeration store.graph.leaves) :
    ∃ outcome, commitOpsImmediate cipher store ops wallMs parents = some outcome := by
  obtain ⟨wrapped, produced⟩ := exists_wrapEncryptedOps encrypts key
    (crypto.verifyingKey store.signingKey) (store.graph.lamport + 1) ops
  rw [commitOpsImmediate_wrapped secret room produced]
  cases stored : store.graph.nodes.contains
      (localNode crypto store.graph store.signingKey wallMs wrapped parents).id
  · rw [applyLocal_commit room stored]
    exact ⟨_, rfl⟩
  · rw [applyLocal_duplicate room stored]
    exact ⟨_, rfl⟩

theorem nonempty_enumeration {α : Type} [DecidableEq α] (elements : Finset α) :
    Nonempty (Enumeration elements) :=
  ⟨elements.toList, elements.nodup_toList, elements.toList_toFinset⟩

theorem Writes.trans (first : Writes cipher postcard store next)
    (second : Writes cipher postcard next last) : Writes cipher postcard store last := by
  induction second with
  | start => exact first
  | step action before write parents performed ih => exact .step action ih write parents performed

/-- One of two writes of a key is not what is to be avoided. -/
theorem exists_value_ne (front avoid : List Op) :
    ∃ value, front ++ [.map (.set "" value)] ≠ avoid := by
  by_cases same : front ++ [.map (.set "" [])] = avoid
  · refine ⟨[0], fun other => ?_⟩
    simpa using other.trans same.symm
  · exact ⟨[], same⟩

/-- A write, and a flush if it was only buffered, use the next value of the
clock for ops other than the given ones. -/
theorem exists_write_use (postcard : Postcard) (encrypts : cipher.AlwaysEncrypts)
    (keyed : Keyed key store) (room : store.graph.lamport + 1 ≤ u64Max) (avoid : List Op) :
    ∃ next payload, Writes cipher postcard store next ∧ Keyed key next ∧
      next.tally = store.tally.use payload ∧ payload ≠ avoid := by
  obtain ⟨parents⟩ := nonempty_enumeration store.graph.leaves
  cases config : store.tickConfig with
  | none =>
    obtain ⟨value, differs⟩ := exists_value_ne [] avoid
    obtain ⟨outcome, commits⟩ := exists_commitOpsImmediate encrypts keyed.secret room
      [.map (.set "" value)] 0 parents
    obtain ⟨kept, used⟩ := commitOpsImmediate_tally encrypts keyed commits
    refine ⟨outcome.1, _, .step (.set "" value 0) .start rfl parents ?_, kept, used, differs⟩
    simp [perform, set, applyLocalOps, config, commits]
  | some limit =>
    obtain ⟨value, differs⟩ := exists_value_ne store.pendingTickOps avoid
    let buffered := store.pendingTickOps ++ [Op.map (.set "" value)]
    have emptied := keyed.withPending []
    obtain ⟨outcome, commits⟩ :=
      exists_commitOpsImmediate encrypts emptied.secret room buffered 0 parents
    obtain ⟨kept, used⟩ := commitOpsImmediate_tally encrypts emptied commits
    refine ⟨outcome.1, _, ?_, kept, used, differs⟩
    by_cases full : limit.maxOpsPerTick ≤ buffered.length
    · refine .step (.set "" value 0) .start rfl parents ?_
      simp only [perform, set, applyLocalOps, config, buffered] at full commits ⊢
      rw [if_pos full, commits]
      rfl
    · have waits : Writes cipher postcard store { store with pendingTickOps := buffered } := by
        refine .step (.set "" value 0) .start rfl parents ?_
        simp only [perform, set, applyLocalOps, config, buffered] at full ⊢
        rw [if_neg full]
        rfl
      refine .step (.flushTick 0) waits rfl parents ?_
      simp [perform, flushTick, buffered, commits]

/-- A clock that is behind a value it has handed out comes to it again. -/
theorem exists_reuse (postcard : Postcard) (encrypts : cipher.AlwaysEncrypts)
    (keyed : Keyed key store) (member : entry ∈ store.tally.used)
    (behind : store.tally.clock < entry.1) :
    ∃ later, Writes cipher postcard store later ∧ ¬ later.NoncesDistinct := by
  induction gap : entry.1 - store.tally.clock generalizing store with
  | zero => omega
  | succ distance ih =>
    have bounded : entry.1 ≤ u64Max := by
      obtain ⟨input, inUsed, rfl⟩ := mem_map.mp member
      exact keyed.bounded input inUsed
    obtain ⟨next, payload, writes, kept, used, differs⟩ :=
      exists_write_use postcard encrypts keyed (behind.trans_le bounded) entry.2
    rcases Nat.lt_or_eq_of_le (Nat.succ_le_of_lt behind) with further | reached
    · have inNext : entry ∈ next.tally.used := by
        rw [used]
        exact mem_append_left _ member
      have clock : next.tally.clock = store.tally.clock + 1 := by rw [used]; rfl
      obtain ⟨later, more, reused⟩ := ih kept inNext (by omega) (by omega)
      exact ⟨later, writes.trans more, reused⟩
    · refine ⟨next, writes, fun distinct => ?_⟩
      have tallyDistinct := kept.distinct_iff.mp distinct
      rw [used] at tallyDistinct
      exact Tally.not_distinct_use member reached.symm differs.symm tallyDistinct

/-- The stores that a run goes through. -/
def visited (steps : List (SyncStore crypto × Action)) (last : SyncStore crypto) :
    List (SyncStore crypto) := steps.map Prod.fst ++ [last]

theorem mem_visited_step :
    other ∈ visited (steps ++ [(store, action)]) next ↔
      other ∈ visited steps store ∨ other = next := by
  simp [visited, or_assoc]

variable {start : SyncStore crypto} {steps : List (SyncStore crypto × Action)}

section
variable (encrypts : cipher.AlwaysEncrypts)
include encrypts

theorem Run.keyed (run : Run cipher postcard start steps last) (keyed : Keyed key start) :
    ∀ store ∈ visited steps last, Keyed key store := by
  induction run with
  | start =>
    intro store member
    rwa [mem_singleton.mp member]
  | @step steps store next action before parents performed ih =>
    intro other member
    rcases mem_visited_step.mp member with earlier | rfl
    · exact ih other earlier
    · exact (perform_tally encrypts (ih store (by simp [visited])) performed).1

/-- As long as no installed pack sets the clock back, clock values are handed
out in order. -/
theorem Run.ordered (run : Run cipher postcard start steps last) (keyed : Keyed key start)
    (ordered : start.tally.Ordered) (keeps : ∀ step ∈ steps, KeepsClock postcard step.1 step.2) :
    ∀ store ∈ visited steps last, store.tally.Ordered := by
  induction run with
  | start =>
    intro store member
    rwa [mem_singleton.mp member]
  | @step steps store next action before parents performed ih =>
    have earlier := ih fun step member => keeps step (mem_append_left _ member)
    have keepsLast := keeps (store, action) (by simp)
    have inVisited : store ∈ visited steps store := by simp [visited]
    intro other member
    rcases mem_visited_step.mp member with old | rfl
    · exact earlier other old
    · obtain ⟨-, ⟨payload, used⟩ | ⟨clock, moved, covered⟩⟩ :=
        perform_tally encrypts (before.keyed encrypts keyed store inVisited) performed
      · rw [used]
        exact (earlier store inVisited).use payload
      · rw [moved]
        exact (earlier store inVisited).move (covered keepsLast (earlier store inVisited))

theorem Writes.ordered (writes : Writes cipher postcard store last) (keyed : Keyed key store)
    (ordered : store.tally.Ordered) : Keyed key last ∧ last.tally.Ordered := by
  induction writes with
  | start => exact ⟨keyed, ordered⟩
  | step action before write parents performed ih =>
    obtain ⟨kept, same | ⟨payload, used⟩⟩ := perform_write_tally encrypts ih.1 write performed
    · exact ⟨kept, same ▸ ih.2⟩
    · exact ⟨kept, used ▸ ih.2.use payload⟩

end

theorem Run.after (run : Run cipher postcard start steps last) :
    ∀ step ∈ steps, ∃ parents, ∃ next ∈ visited steps last,
      perform cipher postcard step.1 parents step.2 = some next := by
  induction run with
  | start => exact fun step absent => (not_mem_nil absent).elim
  | @step steps store next action before parents performed ih =>
    intro step member
    rcases mem_append.mp member with earlier | new
    · obtain ⟨parents, after, inVisited, performed⟩ := ih step earlier
      exact ⟨parents, after, mem_visited_step.mpr (.inl inVisited), performed⟩
    · rw [mem_singleton.mp new]
      exact ⟨parents, next, mem_visited_step.mpr (.inr rfl), performed⟩

/-- At every point of a run, and whatever is written from there, different ops
are encrypted under different pairs of author and clock, exactly when no snapshot
pack that is installed on the way lies behind what has been encrypted before it. -/
theorem nonces_distinct_iff (crypto : Crypto) (cipher : RoomCipher) (postcard : Postcard)
    (encrypts : cipher.AlwaysEncrypts)
    (start : SyncStore crypto) (key : Bytes 32) (secret : start.roomKey = some key)
    (unused : start.encrypted = []) (steps : List (SyncStore crypto × Action))
    (last : SyncStore crypto) (run : Run cipher postcard start steps last) :
    (∀ store ∈ visited steps last, ∀ later, Writes cipher postcard store later →
        later.NoncesDistinct) ↔
      ∀ step ∈ steps, KeepsClock postcard step.1 step.2 := by
  have keyed : Keyed key start := ⟨secret, by simp [unused], by simp [unused]⟩
  have ordered : start.tally.Ordered := ⟨by simp [tally, unused], by simp [tally, unused]⟩
  constructor
  · intro distinct step member
    obtain ⟨parents, next, inVisited, performed⟩ := run.after step member
    obtain ⟨store, action⟩ := step
    cases action with
    | set | delete | flushTick | importPack => trivial
    | applySnapshotPack nodes =>
      intro snapshot delta installed shape opened input inUsed
      by_contra behind
      obtain ⟨first, rest, same, clock⟩ := openSnapshotPack_lamport opened
      obtain ⟨rfl, rfl⟩ := List.cons.inj (shape.symm.trans same)
      have result : next = { store with graph := installed.1 } := by
        rw [← Option.some.inj performed]
        simp only [applySnapshotPack, opened]
      have isKeyed := run.keyed encrypts keyed next inVisited
      subst result
      have inTally : (input.lamport, input.ops) ∈
          ({ store with graph := installed.1 } : SyncStore crypto).tally.used :=
        mem_map.mpr ⟨input, inUsed, rfl⟩
      obtain ⟨later, writes, reused⟩ := exists_reuse postcard encrypts isKeyed inTally
        (clock.trans_lt (not_le.mp behind))
      exact reused (distinct _ inVisited later writes)
  · intro keeps store member later writes
    have inOrder := run.ordered encrypts keyed ordered keeps store member
    obtain ⟨kept, final⟩ := writes.ordered encrypts (run.keyed encrypts keyed store member) inOrder
    exact kept.distinct_iff.mpr final.distinct

/-- A store that commits every write at once. -/
def sampleStart : SyncStore Crypto.sample :=
  (SyncStore.new (Crypto.sampleKey 1)).setRoomKey RoomCipher.sample (Bytes.zero 32)

/-- The snapshot of a peer that has seen nothing. -/
def emptySnapshot : SyncNode :=
  StateGraph.empty.snapshotNode Crypto.sample Postcard.sample (Crypto.sampleKey 2) none []

theorem sample_encrypts : RoomCipher.sample.AlwaysEncrypts := fun _ _ _ => rfl

/-- A write of a store without ticks. -/
theorem exists_set (encrypts : cipher.AlwaysEncrypts)
    (keyed : Keyed key store) (room : store.graph.lamport + 1 ≤ u64Max)
    (atOnce : store.tickConfig = none) (name : String) (value : List U8) :
    ∃ parents next, perform cipher postcard store parents (.set name value 0) = some next ∧
      Keyed key next ∧ next.tickConfig = none ∧
      next.tally = store.tally.use [.map (.set name value)] := by
  obtain ⟨parents⟩ := nonempty_enumeration store.graph.leaves
  obtain ⟨outcome, commits⟩ := exists_commitOpsImmediate encrypts keyed.secret room
    [.map (.set name value)] 0 parents
  obtain ⟨kept, used⟩ := commitOpsImmediate_tally encrypts keyed commits
  have config : outcome.1.tickConfig = none := by
    obtain ⟨-, ⟨error, -, rfl⟩ | ⟨wrapped, applied, -, -, rfl⟩⟩ :=
      commitOpsImmediate_cases keyed.secret commits <;> exact atOnce
  refine ⟨parents, outcome.1, ?_, kept, config, used⟩
  simp [perform, set, applyLocalOps, atOnce, commits]

theorem emptySnapshot_opens : openSnapshotPack Crypto.sample Postcard.sample [emptySnapshot] =
    .ok (StateGraph.empty.accept emptySnapshot,
      canonicalHash Crypto.sample StateGraph.empty.snapshotMap) := by
  have verified : verifySnapshot Crypto.sample Postcard.sample emptySnapshot = .ok _ :=
    verifySnapshot_snapshotNode Crypto.sample_signVerifies
  have rebuilt : rebuildFromSnapshot Crypto.sample Postcard.sample emptySnapshot [] =
      .ok (StateGraph.empty.accept emptySnapshot) :=
    (rebuild_snapshotNode_iff Crypto.sample_signVerifies).mpr ⟨by decide, [], .finished⟩
  have snapshot : isSnapshotNode emptySnapshot = true := isSnapshotNode_snapshotNode
  simp only [openSnapshotPack, unpackSnapshotPack, snapshot, ↓reduceIte, verified, rebuilt, bind,
    Except.bind, pure, Except.pure]

/-- The store with the graph of the empty peer in place of its own. -/
def behind (store : SyncStore Crypto.sample) : SyncStore Crypto.sample :=
  { store with graph := StateGraph.empty.accept emptySnapshot }

theorem behind_lamport (store : SyncStore Crypto.sample) : store.behind.graph.lamport = 1 := by
  change (StateGraph.empty.accept emptySnapshot).lamport = 1
  decide

theorem perform_emptySnapshot (store : SyncStore Crypto.sample)
    (parents : Enumeration store.graph.leaves) :
    perform RoomCipher.sample Postcard.sample store parents (.applySnapshotPack [emptySnapshot]) =
      some store.behind := by
  simp only [perform, applySnapshotPack, emptySnapshot_opens]
  rfl

theorem sampleStart_keyed :
    Keyed (deriveRoomKey RoomCipher.sample (Bytes.zero 32)) sampleStart := by
  refine ⟨rfl, ?_, ?_⟩ <;> exact fun _ absent => (not_mem_nil absent).elim

theorem install_before_writes_distinct :
    ∃ steps last, Run RoomCipher.sample Postcard.sample sampleStart steps last ∧
      steps.map Prod.snd = [.applySnapshotPack [emptySnapshot], .set "k" [1] 0] ∧
      last.tally.used = [(2, [.map (.set "k" [1])])] ∧
      ∀ later, Writes RoomCipher.sample Postcard.sample last later → later.NoncesDistinct := by
  have room : sampleStart.behind.graph.lamport + 1 ≤ u64Max := by
    decide
  obtain ⟨parents, last, wrote, -, -, used⟩ := @exists_set _ _ Postcard.sample _ _ sample_encrypts
    (sampleStart_keyed.withGraph _) room rfl "k" [1]
  have installed : Run RoomCipher.sample Postcard.sample sampleStart
      [(sampleStart, .applySnapshotPack [emptySnapshot])] sampleStart.behind :=
    .step .start _ (perform_emptySnapshot sampleStart noLeaves)
  have run := installed.step parents wrote
  refine ⟨_, last, run, rfl, ?_, ?_⟩
  · rw [used]
    change [(sampleStart.behind.graph.lamport + 1, _)] = _
    rw [behind_lamport]
  · refine (nonces_distinct_iff Crypto.sample RoomCipher.sample Postcard.sample sample_encrypts
      sampleStart _ rfl rfl _ last run).mpr ?_ last (by simp [visited])
    intro step member
    simp only [cons_append, nil_append, mem_cons, not_mem_nil, or_false]
      at member
    rcases member with rfl | rfl
    · intro _ _ _ _ _ input absent
      exact (not_mem_nil absent).elim
    · trivial

/-- Two writes, the snapshot of a peer that has seen neither, and a third write:
the second and the third are encrypted under the same author and clock. -/
theorem nonce_reused_after_install :
    ∃ steps last, Run RoomCipher.sample Postcard.sample sampleStart steps last ∧
      steps.map Prod.snd = [.set "k" [1] 0, .set "k" [2] 0, .applySnapshotPack [emptySnapshot],
        .set "k" [3] 0] ∧
      last.tally.used = [(1, [.map (.set "k" [1])]), (2, [.map (.set "k" [2])]),
        (2, [.map (.set "k" [3])])] ∧
      ¬ last.NoncesDistinct := by
  obtain ⟨firstParents, first, wroteFirst, firstKeyed, firstConfig, firstUsed⟩ :=
    @exists_set _ _ Postcard.sample _ _ sample_encrypts sampleStart_keyed (by decide) rfl "k" [1]
  have firstRoom : first.graph.lamport + 1 ≤ u64Max := by
    rw [show first.graph.lamport = 1 from congrArg Tally.clock firstUsed]
    decide
  obtain ⟨secondParents, second, wroteSecond, secondKeyed, secondConfig, secondUsed⟩ :=
    @exists_set _ _ Postcard.sample _ _ sample_encrypts firstKeyed firstRoom firstConfig "k" [2]
  obtain ⟨installParents⟩ := nonempty_enumeration second.graph.leaves
  have behindRoom : second.behind.graph.lamport + 1 ≤ u64Max := by
    rw [behind_lamport]
    decide
  obtain ⟨thirdParents, third, wroteThird, thirdKeyed, -, thirdUsed⟩ := @exists_set _ _
    Postcard.sample _ _ sample_encrypts (secondKeyed.withGraph _) behindRoom secondConfig "k" [3]
  have run := (((Run.start.step firstParents wroteFirst).step secondParents wroteSecond).step
    installParents (perform_emptySnapshot second installParents)).step thirdParents wroteThird
  have log : third.tally.used = [(1, [.map (.set "k" [1])]), (2, [.map (.set "k" [2])]),
      (2, [.map (.set "k" [3])])] := by
    rw [thirdUsed]
    change second.tally.used ++ [(second.behind.graph.lamport + 1, _)] = _
    rw [behind_lamport, secondUsed, firstUsed]
    rfl
  refine ⟨_, third, run, rfl, log, fun distinct => ?_⟩
  have tallyDistinct := thirdKeyed.distinct_iff.mp distinct
  rw [Tally.Distinct, log] at tallyDistinct
  simp at tallyDistinct

end NodalMerge.SyncStore
