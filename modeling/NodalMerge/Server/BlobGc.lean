import NodalMerge.Server.Rooms

namespace NodalMerge

open AList Function List Machine StateGraph

theorem mem_foldl_union {Entry Item : Type} [DecidableEq Item] {items : Entry → Finset Item}
    {entries : List Entry} {start : Finset Item} {item : Item} :
    item ∈ entries.foldl (fun found entry => found ∪ items entry) start ↔
      item ∈ start ∨ ∃ entry ∈ entries, item ∈ items entry := by
  induction entries generalizing start with
  | nil => simp
  | cons head rest ih => simp [ih, or_assoc]

section
/-- No row of the room comes after its version. -/
theorem roomNodesVersion_eq_some (found : roomNodesVersion table roomId = some version) :
    version ≤ table.length ∧
      loadRoomNodes (table.take version) roomId = loadRoomNodes table roomId := by
  let other (row : NodeRow) : Bool := row.roomId ≠ roomId
  have split : table = (table.reverse.dropWhile other).reverse ++
      (table.reverse.takeWhile other).reverse := by
    rw [← reverse_append, takeWhile_append_dropWhile, reverse_reverse]
  have size : version = (table.reverse.dropWhile other).length := by
    unfold roomNodesVersion at found
    split at found
    · cases found
    · exact (Option.some.inj found).symm
  have taken : table.take version = (table.reverse.dropWhile other).reverse := by
    rw [size, split]
    simp
  have rest : (table.reverse.takeWhile other).reverse.filter (fun row => row.roomId = roomId) =
      [] := by
    rw [filter_eq_nil_iff]
    intro row member
    have apart := all_eq_true.mp all_takeWhile row (mem_reverse.mp member)
    simpa [other] using apart
  constructor
  · have sizes := congrArg List.length split
    rw [length_append, length_reverse, length_reverse, ← size] at sizes
    omega
  · conv => rhs; rw [split]
    rw [loadRoomNodes, loadRoomNodes, taken, filter_append, rest, append_nil]

/-- A cache entry holds the hashes of the room as of its version. -/
def ColdSound (table : List NodeRow) (coldLive : String → Option (Nat × Finset Hash)) : Prop :=
  ∀ roomId version hashes, coldLive roomId = some (version, hashes) → version ≤ table.length ∧
    hashes = blobHashesReferencedBy (loadRoomNodes (table.take version) roomId)

theorem ColdSound.grow (sound : ColdSound table coldLive) (grown : table <+: rows) :
    ColdSound rows coldLive := by
  obtain ⟨extra, rfl⟩ := grown
  intro roomId version hashes cached
  obtain ⟨bounded, same⟩ := sound roomId version hashes cached
  rw [take_append_of_le_length bounded]
  exact ⟨bounded.trans (by simp), same⟩

theorem coldLiveGet_eq_some (hit : coldLiveGet coldLive roomId version = some hashes) :
    coldLive roomId = some (version, hashes) := by
  unfold coldLiveGet at hit
  split at hit
  · rename_i cachedAt found entry
    obtain ⟨rfl, rfl⟩ : cachedAt = version ∧ found = hashes := by simpa using hit
    exact entry
  · cases hit

theorem ColdScan.visit_spec {scan : ColdScan} (sound : ColdSound table scan.coldLive) :
    (scan.visit table roomId).live =
        scan.live ∪ blobHashesReferencedBy (loadRoomNodes table roomId) ∧
      ColdSound table (scan.visit table roomId).coldLive := by
  unfold visit
  split
  · rename_i cached hit
    refine ⟨?_, sound⟩
    obtain ⟨version, current, hit⟩ := Option.bind_eq_some_iff.mp hit
    obtain ⟨-, same⟩ := roomNodesVersion_eq_some current
    rw [(sound roomId version cached (coldLiveGet_eq_some hit)).2, same]
  · refine ⟨rfl, ?_⟩
    dsimp only
    split
    · rename_i version current
      obtain ⟨bounded, same⟩ := roomNodesVersion_eq_some current
      intro other cachedAt hashes entry
      by_cases here : other = roomId
      · subst here
        rw [update_self] at entry
        cases entry
        exact ⟨bounded, by rw [same]⟩
      · rw [update_of_ne here] at entry
        exact sound other cachedAt hashes entry
    · exact sound

theorem scanAll_spec (ids : List String) {scan : ColdScan} (sound : ColdSound table scan.coldLive) :
    (∀ hash, hash ∈ (ids.foldl (ColdScan.visit table) scan).live ↔ hash ∈ scan.live ∨
        ∃ roomId ∈ ids, hash ∈ blobHashesReferencedBy (loadRoomNodes table roomId)) ∧
      ColdSound table (ids.foldl (ColdScan.visit table) scan).coldLive := by
  induction ids generalizing scan with
  | nil => exact ⟨by simp, sound⟩
  | cons head rest ih =>
    obtain ⟨live, kept⟩ := @ColdScan.visit_spec table head scan sound
    obtain ⟨found, after⟩ := ih kept
    refine ⟨fun hash => (found hash).trans ?_, after⟩
    rw [live, Finset.mem_union, or_assoc]
    simp

theorem mem_loadRoomNodes : node ∈ loadRoomNodes table roomId ↔ ⟨roomId, node⟩ ∈ table := by
  constructor
  · intro member
    obtain ⟨row, kept, rfl⟩ := mem_map.mp member
    obtain ⟨present, here⟩ := mem_filter.mp kept
    rw [← of_decide_eq_true here]
    exact present
  · exact fun member => mem_map.mpr ⟨_, mem_filter.mpr ⟨member, by simp⟩, rfl⟩

end

namespace Rooms

section
variable {state next : Rooms Key} {hash : Hash}

/-- The graphs are reachable and the cache is right. -/
structure Sound (crypto : Crypto) (state : Rooms Key) : Prop where
  residents : ∀ roomId room, state.rooms.lookup roomId = some room → room.Sound crypto
  cache : ColdSound state.table state.coldLive

theorem collect_coldSound (sound : ColdSound state.table state.coldLive) (recent : Finset Hash) :
    ColdSound state.table (state.collectGlobalLiveBlobHashes recent).coldLive := by
  intro roomId version hashes cached
  dsimp only [collectGlobalLiveBlobHashes] at cached
  split at cached
  · exact (@scanAll_spec state.table _ ⟨∅, state.coldLive⟩ sound).2 roomId version hashes cached
  · cases cached

theorem Sound.step (sound : state.Sound crypto) (step : Step crypto state next) :
    next.Sound crypto := by
  have puts {roomId : String} {room : Resident Key} (fits : room.Sound crypto) (other : String)
      (found : Resident Key) (lookup : (state.put roomId room).rooms.lookup other = some found) :
      found.Sound crypto := by
    by_cases here : other = roomId
    · subst here
      rw [put, lookup_insert] at lookup
      rw [← Option.some.inj lookup]
      exact fits
    · rw [put, lookup_insert_ne here] at lookup
      exact sound.residents other found lookup
  cases step with
  | stayed => exact sound
  | created absent unlocked fits => exact ⟨puts fits, sound.cache⟩
  | moved found key kept grown =>
    exact ⟨puts (kept (sound.residents _ _ found)), sound.cache.grow grown⟩
  | locked found unlocked =>
    have fits := sound.residents _ _ found
    exact ⟨puts ⟨fits.reached, fits.prepared⟩, sound.cache⟩
  | @swept ids =>
    clear puts
    induction ids generalizing state with
    | nil => exact sound
    | cons head rest ih =>
      refine ih ⟨fun other found lookup => ?_, sound.cache⟩
      by_cases here : other = head
      · subst here
        rw [evict, lookup_erase] at lookup
        cases lookup
      · rw [evict, lookup_erase_ne here] at lookup
        exact sound.residents other found lookup
  | @collected recent => exact ⟨sound.residents, collect_coldSound sound.cache recent⟩

/-- What the live set is made of. -/
theorem mem_live_iff (sound : state.Sound crypto) :
    hash ∈ (state.collectGlobalLiveBlobHashes recent).live ↔
      (∃ roomId room, state.rooms.lookup roomId = some room ∧
          hash ∈ room.graph.referencedBlobHashes) ∨
        (∃ row ∈ state.table, row.roomId ∉ state.hydratedIds ∧ hash ∈ row.node.blobHashes) ∨
        hash ∈ recent := by
  have residents : (∃ entry ∈ state.rooms.entries, hash ∈ entry.2.graph.referencedBlobHashes) ↔
      ∃ roomId room, state.rooms.lookup roomId = some room ∧
        hash ∈ room.graph.referencedBlobHashes := by
    constructor
    · rintro ⟨⟨roomId, room⟩, member, held⟩
      exact ⟨roomId, room, mem_lookup_iff.mpr member, held⟩
    · rintro ⟨roomId, room, found, held⟩
      exact ⟨⟨roomId, room⟩, mem_lookup_iff.mp found, held⟩
  have cold : (∃ roomId ∈ (knownRoomIds state.table).filter fun roomId =>
        roomId ∉ state.hydratedIds,
        hash ∈ blobHashesReferencedBy (loadRoomNodes state.table roomId)) ↔
      ∃ row ∈ state.table, row.roomId ∉ state.hydratedIds ∧ hash ∈ row.node.blobHashes := by
    simp only [mem_blobHashesReferencedBy, mem_loadRoomNodes]
    constructor
    · rintro ⟨roomId, kept, node, member, held⟩
      exact ⟨⟨roomId, node⟩, member, of_decide_eq_true (mem_filter.mp kept).2, held⟩
    · rintro ⟨row, member, cold, held⟩
      refine ⟨row.roomId, mem_filter.mpr ⟨?_, decide_eq_true cold⟩, row.node, member, held⟩
      exact mem_dedup.mpr (mem_map_of_mem member)
  have scanned := (@scanAll_spec state.table ((knownRoomIds state.table).filter fun roomId =>
    roomId ∉ state.hydratedIds) ⟨∅, state.coldLive⟩ sound.cache).1 hash
  rw [cold] at scanned
  dsimp only [collectGlobalLiveBlobHashes]
  rw [Finset.mem_union, Finset.mem_union, or_assoc, mem_foldl_union, residents, scanned]
  simp

/-- The hash is known from a graph in memory, from a row that is still read, or
from a recent upload. -/
def HeldElsewhere (state : Rooms Key) (recent : Finset Hash) (hash : Hash) : Prop :=
  (∃ roomId room, state.rooms.lookup roomId = some room ∧ ∃ node ∈ room.graph.nodes.data,
      node.transaction.priority ≠ Priority.zero ∧ hash ∈ node.blobHashes) ∨
    (∃ row ∈ state.table, row.roomId ∉ state.hydratedIds ∧ hash ∈ row.node.blobHashes) ∨
    hash ∈ recent

/-- A persisted node that its room, hydrated and resident, does not answer for. -/
def Unanswered (state : Rooms Key) (row : NodeRow) : Prop :=
  ∃ room, state.rooms.lookup row.roomId = some room ∧ room.hydrated = true ∧
    (row.node.transaction.priority = Priority.zero ∨
      ∀ stored ∈ room.graph.nodes.data, stored.transaction ≠ row.node.transaction)

theorem mem_live_iff_held (sound : state.Sound crypto) :
    hash ∈ (state.collectGlobalLiveBlobHashes recent).live ↔ state.HeldElsewhere recent hash := by
  rw [mem_live_iff sound, HeldElsewhere]
  refine or_congr_left (exists_congr fun roomId => exists_congr fun room => ?_)
  refine and_congr_right fun found => ?_
  rw [mem_referencedBlobHashes (sound.residents roomId room found).reached]

theorem mem_hydratedIds : roomId ∈ state.hydratedIds ↔
    ∃ room, state.rooms.lookup roomId = some room ∧ room.hydrated = true := by
  rw [hydratedIds, mem_filter]
  constructor
  · rintro ⟨-, kept⟩
    cases found : state.rooms.lookup roomId with
    | none =>
      rw [found] at kept
      cases kept
    | some room =>
      rw [found] at kept
      exact ⟨room, rfl, kept⟩
  · rintro ⟨room, found, hydrated⟩
    refine ⟨lookup_isSome.mp (by rw [found]; rfl), ?_⟩
    rw [found]
    exact hydrated

end

variable {table : List NodeRow}

theorem rooms_sound_of_run
    (ran : exec (perform env crypto postcard serverKey) (start table) actions = some state) :
    state.Sound crypto := by
  refine exec_invariant (fun _ _ _ stepped sound => Sound.step sound (perform_step stepped)) ?_ ran
  refine ⟨fun roomId room found => ?_, fun roomId version hashes cached => ?_⟩
  · cases found
  · cases cached

/-- Whatever happens to the rooms, every resident graph is well formed, the cache of cold rooms is
right, and rows are only ever added. -/
theorem registry_stays_sound (env : TokenEnv) (crypto : Crypto) (postcard : Postcard)
    (serverKey : crypto.SigningKey) (table : List NodeRow) (actions : List RoomsAction) :
    Always (perform env crypto postcard serverKey) (fun state =>
        (∀ roomId room, state.rooms.lookup roomId = some room → room.graph.core.Dag crypto) ∧
          ColdSound state.table state.coldLive) (start table) actions ∧
      Throughout (perform env crypto postcard serverKey)
        (fun before after => before.table <+: after.table) (start table) actions := by
  constructor
  · refine always_of_exec fun _ _ ran => ?_
    obtain ⟨residents, cache⟩ := rooms_sound_of_run ran
    exact ⟨fun roomId room found => (residents roomId room found).reached.dag, cache⟩
  · refine throughout_of_step (fun _ => prefix_rfl) .trans fun {state _ _} stepped => ?_
    cases perform_step stepped with
    | moved found key kept grown => exact grown
    | @swept ids =>
      exact foldlRecOn (motive := fun (after : Rooms _) => state.table <+: after.table) ids evict
        prefix_rfl fun _ grown _ _ => grown
    | _ => exact prefix_rfl

/-- After any run, the live set has every blob hash of the table exactly when each
hash of a persisted node that its hydrated resident room does not answer for is
held elsewhere. -/
theorem live_set_complete_iff (env : TokenEnv) (crypto : Crypto) (postcard : Postcard)
    (serverKey : crypto.SigningKey) (table : List NodeRow) (actions : List RoomsAction)
    (state : Rooms env.signer.VerifyingKey) (recent : Finset Hash)
    (ran : exec (perform env crypto postcard serverKey) (start table) actions = some state) :
    (∀ row ∈ state.table, ∀ hash ∈ row.node.blobHashes,
        hash ∈ (state.collectGlobalLiveBlobHashes recent).live) ↔
      ∀ row ∈ state.table, state.Unanswered row → ∀ hash ∈ row.node.blobHashes,
        state.HeldElsewhere recent hash := by
  have sound := rooms_sound_of_run ran
  constructor
  · intro complete row member _ hash held
    exact (mem_live_iff_held sound).mp (complete row member hash held)
  · intro covered row member hash held
    rw [mem_live_iff_held sound]
    by_cases resident : row.roomId ∈ state.hydratedIds
    · obtain ⟨room, found, hydrated⟩ := mem_hydratedIds.mp resident
      by_cases answered : row.node.transaction.priority ≠ Priority.zero ∧
          ∃ stored ∈ room.graph.nodes.data, stored.transaction = row.node.transaction
      · obtain ⟨counted, stored, inGraph, same⟩ := answered
        refine .inl ⟨row.roomId, room, found, stored, inGraph, same ▸ counted, ?_⟩
        rw [SyncNode.blobHashes, same]
        exact held
      · refine covered row member ⟨room, found, hydrated, ?_⟩ hash held
        by_contra other
        push Not at other
        exact answered other
    · exact .inr (.inl ⟨row, member, resident, held⟩)

/-- The room `r` is hydrated from an empty table, with a guest in it. -/
def joining : List RoomsAction :=
  [.connect "r" 0 0, .hello "r" 0 (.plain "guest") 0, .hydrateLoad "r", .hydrateApply "r",
    .hydrateDone "r"]

/-- A node that refers to a blob. -/
def blobNode : SyncNode :=
  localNode Crypto.sample .empty (Crypto.sampleKey 1) 0 [.map (.setBlob "k" (Bytes.zero 32))] noLeaves

/-- A resident room that still has the node answers for it. -/
theorem imported_blob_live : ∃ state,
    exec performSample (start []) (joining ++ [.importNodes "r" 0 0 [blobNode]]) = some state ∧
      ∀ row ∈ state.table, ∀ hash ∈ row.node.blobHashes,
        hash ∈ (state.collectGlobalLiveBlobHashes ∅).live := by
  have checked : ((exec performSample (start []) (joining ++ [.importNodes "r" 0 0 [blobNode]])).any
      fun state => state.table = [⟨"r", blobNode⟩] ∧
        (state.rooms.lookup "r").any fun room => room.graph.nodes.data = [blobNode]) = true := by
    decide +kernel
  obtain ⟨state, ran, shown⟩ := (Option.any_eq_true _ _).mp checked
  obtain ⟨rows, held⟩ := of_decide_eq_true shown
  refine ⟨state, ran, (live_set_complete_iff TokenEnv.sample Crypto.sample Postcard.sample
    (Crypto.sampleKey 1) [] _ _ ∅ ran).mpr ?_⟩
  rintro row member ⟨room, found, -, missing⟩
  rw [rows, mem_singleton] at member
  rw [member] at found missing
  rw [found] at held
  rw [show room.graph.nodes.data = [blobNode] from of_decide_eq_true held] at missing
  rcases missing with lowest | absent
  · exact absurd lowest (by decide)
  · exact absurd rfl (absent blobNode (mem_singleton_self _))

/-- After a `compact-room` the hydrated room has no trace of the blob that its
table refers to. -/
theorem compacted_blob_not_live : ∃ state,
    exec performSample (start []) (joining ++ [.importNodes "r" 0 0 [blobNode]] ++
        [.compactRead "r" 0] ++ [.compactInstall "r" 0]) = some state ∧
      ⟨"r", blobNode⟩ ∈ state.table ∧ Bytes.zero 32 ∈ blobNode.blobHashes ∧
      Bytes.zero 32 ∉ (state.collectGlobalLiveBlobHashes ∅).live := by
  have checked : ((exec performSample (start []) (joining ++ [.importNodes "r" 0 0 [blobNode]] ++
      [.compactRead "r" 0] ++ [.compactInstall "r" 0])).any fun state =>
        ⟨"r", blobNode⟩ ∈ state.table ∧ Bytes.zero 32 ∈ blobNode.blobHashes ∧
          Bytes.zero 32 ∉ (state.collectGlobalLiveBlobHashes ∅).live) = true := by
    decide +kernel
  obtain ⟨state, ran, shown⟩ := (Option.any_eq_true _ _).mp checked
  exact ⟨state, ran, of_decide_eq_true shown⟩

end Rooms

end NodalMerge
