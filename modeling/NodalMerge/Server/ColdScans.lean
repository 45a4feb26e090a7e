import NodalMerge.Server.BlobGc

namespace NodalMerge

open Function List Machine Option

/-- Where a call is in the turn of its current room. -/
inductive ScanPhase where
  | reading
  | versioned (version : Nat)
  | loading (version : Option Nat)
  | storing (version : Nat) (hashes : Finset Hash)
  | finished

/-- What a room has contributed, and the table when its version was read. -/
structure ColdPart where
  roomId : String
  seen : List NodeRow
  hashes : Finset Hash

/-- One call of `collect_global_live_blob_hashes`. -/
structure ColdRun where
  coldIds : List String
  known : List String
  pending : List String
  phase : ScanPhase
  out : Finset Hash
  /-- History variable: the table when the version of the current room was read. -/
  seen : List NodeRow
  /-- History variable. -/
  parts : List ColdPart

structure ColdScans where
  table : List NodeRow
  coldLive : String → Option (Nat × Finset Hash)
  runs : Nat → Option ColdRun

inductive ScanAction where
  /-- One transaction: `persist_nodes`, and with one node `persist_node`. -/
  | persistNodes (roomId : String) (nodes : List SyncNode)
  /-- A call enumerates the rooms, all but the resident ones that are hydrated. -/
  | enumerate (run : Nat) (residentIds : List String)
  | roomNodesVersion (run : Nat)
  | coldLiveGet (run : Nat)
  | loadRoomNodes (run : Nat)
  | coldLivePut (run : Nat)
  | retainRooms (run : Nat)

/-- `out.extend` at the end of a turn. -/
def ColdRun.extend (run : ColdRun) (roomId : String) (hashes : Finset Hash) : ColdRun :=
  { run with
    pending := run.pending.tail
    phase := .reading
    out := run.out ∪ hashes
    parts := run.parts ++ [⟨roomId, run.seen, hashes⟩] }

namespace ColdScans

/-- A server that has just started on a node table. -/
def start (table : List NodeRow) : ColdScans := ⟨table, fun _ => none, fun _ => none⟩

def setRun (scans : ColdScans) (id : Nat) (run : ColdRun) : ColdScans :=
  { scans with runs := update scans.runs id (some run) }

/-- The call with its current room. -/
def current (scans : ColdScans) (id : Nat) : Option (ColdRun × String) := do
  let run ← scans.runs id
  let roomId ← run.pending.head?
  some (run, roomId)

def step (scans : ColdScans) : ScanAction → Option ColdScans
  | .persistNodes roomId nodes => some { scans with
      table := nodes.foldl (fun table node => persistRow table roomId node) scans.table }
  | .enumerate id residentIds =>
    match scans.runs id with
    | some _ => none
    | none =>
      let coldIds := (knownRoomIds scans.table).filter fun roomId => roomId ∉ residentIds
      some (scans.setRun id ⟨coldIds, coldIds ++ residentIds, coldIds, .reading, ∅, [], []⟩)
  | .roomNodesVersion id => do
    let (run, roomId) ← scans.current id
    match run.phase with
    | .reading =>
      some (scans.setRun id { run with
        phase := (NodalMerge.roomNodesVersion scans.table roomId).elim (.loading none) .versioned
        seen := scans.table })
    | _ => none
  | .coldLiveGet id => do
    let (run, roomId) ← scans.current id
    match run.phase with
    | .versioned version =>
      match NodalMerge.coldLiveGet scans.coldLive roomId version with
      | some cached => some (scans.setRun id (run.extend roomId cached))
      | none => some (scans.setRun id { run with phase := .loading (some version) })
    | _ => none
  | .loadRoomNodes id => do
    let (run, roomId) ← scans.current id
    match run.phase with
    | .loading version =>
      let hashes := blobHashesReferencedBy (NodalMerge.loadRoomNodes scans.table roomId)
      match version with
      | some version => some (scans.setRun id { run with phase := .storing version hashes })
      | none => some (scans.setRun id (run.extend roomId hashes))
    | _ => none
  | .coldLivePut id => do
    let (run, roomId) ← scans.current id
    match run.phase with
    | .storing version hashes =>
      some { scans.setRun id (run.extend roomId hashes) with
        coldLive := update scans.coldLive roomId (some (version, hashes)) }
    | _ => none
  | .retainRooms id => do
    let run ← scans.runs id
    match run.pending, run.phase with
    | [], .reading =>
      some { scans.setRun id { run with phase := .finished } with
        coldLive := fun roomId => if roomId ∈ run.known then scans.coldLive roomId else none }
    | _, _ => none

end ColdScans

/-- The hashes cover every node of the room in the table. -/
def Covers (hashes : Finset Hash) (table : List NodeRow) (roomId : String) : Prop :=
  ∀ node, ⟨roomId, node⟩ ∈ table → ∀ hash ∈ node.blobHashes, hash ∈ hashes

/-- A cache entry covers the room as of its version. -/
def CacheCovers (table : List NodeRow) (coldLive : String → Option (Nat × Finset Hash)) : Prop :=
  ∀ roomId version hashes, coldLive roomId = some (version, hashes) →
    version ≤ table.length ∧ Covers hashes (table.take version) roomId

/-- What the turn of the current room has established. -/
def ScanPhase.Knows (seen : List NodeRow) (roomId : String) : ScanPhase → Prop
  | .reading => True
  | .versioned version => roomNodesVersion seen roomId = some version
  | .loading version => ∀ found ∈ version, roomNodesVersion seen roomId = some found
  | .storing version hashes => roomNodesVersion seen roomId = some version ∧ Covers hashes seen roomId
  | .finished => False

structure ColdRun.Sound (table : List NodeRow) (run : ColdRun) : Prop where
  seen : run.seen <+: table
  phase : ∀ roomId rest, run.pending = roomId :: rest → run.phase.Knows run.seen roomId
  parts : ∀ part ∈ run.parts, Covers part.hashes part.seen part.roomId ∧ part.hashes ⊆ run.out
  order : run.parts.map ColdPart.roomId ++ run.pending = run.coldIds

structure ColdScans.Sound (scans : ColdScans) : Prop where
  cache : CacheCovers scans.table scans.coldLive
  runs : ∀ id run, scans.runs id = some run → run.Sound scans.table

section
variable {table rows : List NodeRow} {roomId : String} {run : ColdRun}

theorem Covers.of_load (grown : table <+: rows) :
    Covers (blobHashesReferencedBy (loadRoomNodes rows roomId)) table roomId := by
  intro node member hash held
  exact mem_blobHashesReferencedBy.mpr ⟨node, mem_loadRoomNodes.mpr (grown.subset member), held⟩

/-- Whoever covers a room as of its version covers all of it, also in a table that
has grown since. -/
theorem covers_take_iff (hashes : Finset Hash)
    (current : roomNodesVersion table roomId = some version) (grown : table <+: rows) :
    version ≤ rows.length ∧ (Covers hashes (rows.take version) roomId ↔ Covers hashes table roomId) := by
  obtain ⟨bounded, same⟩ := roomNodesVersion_eq_some current
  obtain ⟨extra, rfl⟩ := grown
  refine ⟨bounded.trans (by simp), ?_⟩
  rw [take_append_of_le_length bounded]
  unfold Covers
  simp only [← mem_loadRoomNodes, same]

section
variable (covers : CacheCovers table coldLive)
include covers

theorem CacheCovers.grow (grown : table <+: rows) : CacheCovers rows coldLive := by
  obtain ⟨extra, rfl⟩ := grown
  intro roomId version hashes cached
  obtain ⟨bounded, covered⟩ := covers roomId version hashes cached
  rw [take_append_of_le_length bounded]
  exact ⟨bounded.trans (by simp), covered⟩

theorem CacheCovers.put (bounded : version ≤ table.length)
    (covered : Covers hashes (table.take version) roomId) :
    CacheCovers table (update coldLive roomId (some (version, hashes))) := by
  intro other cachedAt found entry
  by_cases here : other = roomId
  · subst here
    rw [update_self] at entry
    cases entry
    exact ⟨bounded, covered⟩
  · rw [update_of_ne here] at entry
    exact covers other cachedAt found entry

theorem CacheCovers.retain (known : List String) :
    CacheCovers table fun roomId => if roomId ∈ known then coldLive roomId else none := by
  intro roomId version hashes entry
  obtain ⟨-, kept⟩ := ite_none_right_eq_some.mp entry
  exact covers roomId version hashes kept

end

theorem ColdRun.Sound.grow (sound : run.Sound table) (grown : table <+: rows) : run.Sound rows :=
  ⟨sound.seen.trans grown, sound.phase, sound.parts, sound.order⟩

/-- The same turn, further on. -/
theorem ColdRun.Sound.advance (sound : run.Sound table) (front : run.pending = roomId :: rest)
    {seen : List NodeRow} {phase : ScanPhase} (early : seen <+: table)
    (knows : phase.Knows seen roomId) : ColdRun.Sound table { run with phase, seen } := by
  refine ⟨early, fun other later pending => ?_, sound.parts, sound.order⟩
  obtain ⟨rfl, -⟩ := List.cons.inj (front.symm.trans pending)
  exact knows

/-- The end of a turn. -/
theorem ColdRun.Sound.extend (sound : run.Sound table) (front : run.pending = roomId :: rest)
    (covers : Covers hashes run.seen roomId) : (run.extend roomId hashes).Sound table := by
  refine ⟨sound.seen, fun _ _ _ => trivial, fun part member => ?_, ?_⟩
  · rcases mem_append.mp member with old | new
    · obtain ⟨covered, within⟩ := sound.parts part old
      exact ⟨covered, within.trans Finset.subset_union_left⟩
    · obtain rfl := mem_singleton.mp new
      exact ⟨covers, Finset.subset_union_right⟩
  · have order := sound.order
    rw [front] at order
    simp only [ColdRun.extend, front, map_append, append_assoc]
    exact order

end

namespace ColdScans

variable {scans next : ColdScans} {id : Nat} {run : ColdRun} {roomId : String}

theorem current_eq_some (found : scans.current id = some (run, roomId)) :
    scans.runs id = some run ∧ ∃ rest, run.pending = roomId :: rest := by
  obtain ⟨other, stored, found⟩ := bind_eq_some_iff.mp found
  obtain ⟨head, first, same⟩ := bind_eq_some_iff.mp found
  cases same
  exact ⟨stored, List.head?_eq_some_iff.mp first⟩

/-- One call goes on, and the cache with it. -/
theorem Sound.setRun (sound : scans.Sound) {coldLive : String → Option (Nat × Finset Hash)}
    (cache : CacheCovers scans.table coldLive) (fits : run.Sound scans.table) :
    Sound { scans.setRun id run with coldLive } := by
  refine ⟨cache, fun other found stored => ?_⟩
  dsimp only [ColdScans.setRun] at stored
  by_cases here : other = id
  · subst here
    rw [update_self] at stored
    rw [← Option.some.inj stored]
    exact fits
  · rw [update_of_ne here] at stored
    exact sound.runs other found stored

theorem Sound.step (sound : scans.Sound) {action : ScanAction}
    (stepped : scans.step action = some next) : next.Sound := by
  cases action with
  | persistNodes roomId nodes =>
    cases stepped
    have grown := persistRows_grow scans.table roomId nodes
    exact ⟨sound.cache.grow grown, fun id run stored => (sound.runs id run stored).grow grown⟩
  | enumerate id residentIds =>
    dsimp only [ColdScans.step] at stepped
    split at stepped
    · cases stepped
    · cases stepped
      apply sound.setRun sound.cache
      exact ⟨ nil_prefix, fun _ _ _ => trivial, by simp, by simp⟩
  | roomNodesVersion id =>
    obtain ⟨⟨run, roomId⟩, found, stepped⟩ := bind_eq_some_iff.mp stepped
    obtain ⟨stored, rest, front⟩ := current_eq_some found
    dsimp only at stepped
    split at stepped
    · cases stepped
      apply sound.setRun sound.cache
      refine (sound.runs id run stored).advance front (prefix_refl _) ?_
      cases current : NodalMerge.roomNodesVersion scans.table roomId with
      | none => exact fun found absent => by cases absent
      | some version => exact current
    · cases stepped
  | coldLiveGet id =>
    obtain ⟨⟨run, roomId⟩, found, stepped⟩ := bind_eq_some_iff.mp stepped
    obtain ⟨stored, rest, front⟩ := current_eq_some found
    have fits := sound.runs id run stored
    dsimp only at stepped
    split at stepped
    · rename_i version phase
      have current : NodalMerge.roomNodesVersion run.seen roomId = some version := by
        have knows := fits.phase roomId rest front
        rwa [phase] at knows
      split at stepped
      · rename_i cached hit
        cases stepped
        apply sound.setRun sound.cache
        apply fits.extend front
        apply (covers_take_iff cached current fits.seen).2.mp
        exact (sound.cache roomId version cached (coldLiveGet_eq_some hit)).2
      · cases stepped
        apply sound.setRun sound.cache
        refine fits.advance front fits.seen fun found same => ?_
        rw [← Option.some.inj same]
        exact current
    · cases stepped
  | loadRoomNodes id =>
    obtain ⟨⟨run, roomId⟩, found, stepped⟩ := bind_eq_some_iff.mp stepped
    obtain ⟨stored, rest, front⟩ := current_eq_some found
    have fits := sound.runs id run stored
    dsimp only at stepped
    split at stepped
    · rename_i version phase
      have knows := fits.phase roomId rest front
      rw [phase] at knows
      split at stepped
      · cases stepped
        apply sound.setRun sound.cache
        exact fits.advance front fits.seen ⟨knows _ rfl, .of_load fits.seen⟩
      · cases stepped
        apply sound.setRun sound.cache
        exact fits.extend front (.of_load fits.seen)
    · cases stepped
  | coldLivePut id =>
    obtain ⟨⟨run, roomId⟩, found, stepped⟩ := bind_eq_some_iff.mp stepped
    obtain ⟨stored, rest, front⟩ := current_eq_some found
    have fits := sound.runs id run stored
    dsimp only at stepped
    split at stepped
    · rename_i version hashes phase
      have knows := fits.phase roomId rest front
      rw [phase] at knows
      obtain ⟨current, covers⟩ := knows
      obtain ⟨bounded, same⟩ := covers_take_iff hashes current fits.seen
      cases stepped
      exact sound.setRun (sound.cache.put bounded (same.mpr covers)) (fits.extend front covers)
    · cases stepped
  | retainRooms id =>
    obtain ⟨run, stored, stepped⟩ := bind_eq_some_iff.mp stepped
    have fits := sound.runs id run stored
    split at stepped
    · rename_i done phase
      cases stepped
      refine sound.setRun (sound.cache.retain run.known) ⟨fits.seen, fun roomId rest front => ?_,
        fits.parts, fits.order⟩
      rw [done] at front
      cases front
    · cases stepped

end ColdScans

/-- What a room contributes covers every node that was persisted before the call
read its version, and a finished call has read every room it enumerated. -/
theorem contribution_covers_persisted {table : List NodeRow} {actions : List ScanAction}
    {scans : ColdScans} (ran : exec ColdScans.step (.start table) actions = some scans) {id : Nat}
    {run : ColdRun} (stored : scans.runs id = some run) :
    (∀ part ∈ run.parts, part.hashes ⊆ run.out ∧
      ∀ node, ⟨part.roomId, node⟩ ∈ part.seen → ∀ hash ∈ node.blobHashes, hash ∈ part.hashes) ∧
    (run.phase = .finished → run.parts.map ColdPart.roomId = run.coldIds) := by
  have start : (ColdScans.start table).Sound :=
    ⟨nofun, nofun⟩
  have sound := exec_invariant (fun _ _ _ stepped sound => ColdScans.Sound.step sound stepped) start ran
  have fits := sound.runs id run stored
  constructor
  · intro part member
    obtain ⟨covers, within⟩ := fits.parts part member
    exact ⟨within, covers⟩
  · intro finished
    have order := fits.order
    cases front : run.pending with
    | nil => rwa [front, append_nil] at order
    | cons roomId rest =>
      have knows := fits.phase roomId rest front
      rw [finished] at knows
      exact knows.elim

/-- The first call stores what it read at the same version that the second one has
read, and the second one uses it. -/
def sharedScan : List ScanAction :=
  [.enumerate 0 [], .roomNodesVersion 0, .coldLiveGet 0, .loadRoomNodes 0, .enumerate 1 [],
    .roomNodesVersion 1, .coldLivePut 0, .coldLiveGet 1, .retainRooms 1]

def sharedPart : ColdPart :=
  ⟨"r", [⟨"r", Rooms.blobNode⟩], blobHashesReferencedBy [Rooms.blobNode]⟩

def sharedRun : ColdRun :=
  ⟨["r"], ["r"], [], .finished, ∅ ∪ sharedPart.hashes, sharedPart.seen, [sharedPart]⟩

theorem shared_scan_covers_blob :
    ∃ scans, exec ColdScans.step (.start [⟨"r", Rooms.blobNode⟩]) sharedScan = some scans ∧
      scans.runs 1 = some sharedRun ∧ Bytes.zero 32 ∈ sharedRun.out := by
  have second : (exec ColdScans.step (.start [⟨"r", Rooms.blobNode⟩]) sharedScan).map
      (fun scans => scans.runs 1) = some (some sharedRun) := by rfl
  obtain ⟨scans, ran, stored⟩ := map_eq_some_iff.mp second
  refine ⟨scans, ran, stored, ?_⟩
  obtain ⟨within, covers⟩ :=
    (contribution_covers_persisted ran stored).1 sharedPart (mem_singleton_self _)
  exact within (covers Rooms.blobNode (mem_singleton_self _) _ (by decide))

end NodalMerge
