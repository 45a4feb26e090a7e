import Mathlib.Data.List.AList
import NodalMerge.Server.Room

/-! Ticks, promotions and lineage are left out, as are gauges and rate limits. -/

namespace NodalMerge

open AList Machine Option StateGraph

structure NodeRow where
  roomId : String
  node : SyncNode
  deriving DecidableEq

section
variable (table : List NodeRow) (roomId : String)

/-- `INSERT OR IGNORE` under the unique pair of room and node id. -/
def persistRow (node : SyncNode) : List NodeRow :=
  if table.any fun row => row.roomId = roomId ∧ row.node.id = node.id then table
  else table ++ [⟨roomId, node⟩]

def loadRoomNodes : List SyncNode :=
  (table.filter fun row => row.roomId = roomId).map NodeRow.node

def knownRoomIds : List String := (table.map NodeRow.roomId).dedup

/-- `MAX(seq)` of the room, where rows are numbered as they come. -/
def roomNodesVersion : Option Nat :=
  match table.reverse.dropWhile fun row => row.roomId ≠ roomId with
  | [] => none
  | upTo => some upTo.length

end

/-- How far the background task of `get_or_create` has come. -/
inductive Hydration where
  | started
  | loaded (nodes : List SyncNode)
  | applied
  | done

/-- A socket that holds the room; there is no session before its hello. -/
structure Connection where
  session : Option PeerSession
  /-- What `compact-room` is about to install. -/
  prepared : Option (SyncNode × StateGraph)

structure Resident (Key : Type) where
  graph : StateGraph
  authKey : Option Key
  connections : AList fun _ : Nat => Connection
  idleSince : Option Nat
  hydration : Hydration

namespace Resident

/-- `Room::new`. -/
def new (now : Nat) : Resident Key where
  graph := .empty
  authKey := none
  connections := ∅
  idleSince := some now
  hydration := .started

variable (room : Resident Key)

def hydrated : Bool :=
  match room.hydration with
  | .done => true
  | _ => false

/-- The registry, every open socket and the hydration task hold the room. -/
def strongCount : Nat :=
  1 + room.connections.keys.length + if room.hydrated then 0 else 1

def connectedPeers : List String :=
  room.connections.entries.filterMap fun entry => entry.2.session.map PeerSession.pubkeyHex

/-- `register_peer`, after the handshake. -/
def registerPeer (socket : Nat) (session : PeerSession) : Resident Key :=
  { room with
    connections := room.connections.insert socket ⟨some session, none⟩
    idleSince := none }

/-- The socket goes; `deregister_peer` starts the idle clock with the last peer. -/
def leave (socket now : Nat) : Resident Key :=
  let left := { room with connections := room.connections.erase socket }
  match (room.connections.lookup socket).bind Connection.session with
  | none => left
  | some _ => if left.connectedPeers.isEmpty then { left with idleSince := some now } else left

/-- What an idle sweep asks of a room. -/
def evictable (timeout now : Nat) : Bool :=
  room.strongCount = 1 &&
    (room.idleSince.elim false fun since => timeout ≤ now - since) && room.connectedPeers.isEmpty

/-- The session behind a socket. -/
def session (socket : Nat) : Option PeerSession :=
  (room.connections.lookup socket).bind Connection.session

end Resident

inductive RoomEvent (Key : Type) where
  /-- `set-room-key` was answered with `room-locked`. -/
  | locked (roomId : String) (key : Key)
  | evicted (roomId : String)

def RoomEvent.roomId {Key : Type} : RoomEvent Key → String
  | .locked roomId _ => roomId
  | .evicted roomId => roomId

structure Rooms (Key : Type) where
  rooms : AList fun _ : String => Resident Key
  table : List NodeRow
  /-- The hashes of a cold room with the version they were read at. -/
  coldLive : String → Option (Nat × Finset Hash)
  /-- History variable. -/
  log : List (RoomEvent Key)

/-- The hashes found so far and the cache as it stands. -/
structure ColdScan where
  live : Finset Hash
  coldLive : String → Option (Nat × Finset Hash)

def coldLiveGet (coldLive : String → Option (Nat × Finset Hash)) (roomId : String)
    (version : Nat) : Option (Finset Hash) :=
  match coldLive roomId with
  | some (cachedAt, hashes) => if cachedAt = version then some hashes else none
  | none => none

/-- One cold room: reused at its exact version, otherwise read again. -/
def ColdScan.visit (table : List NodeRow) (scan : ColdScan) (roomId : String) : ColdScan :=
  match (roomNodesVersion table roomId).bind (coldLiveGet scan.coldLive roomId) with
  | some cached => { scan with live := scan.live ∪ cached }
  | none =>
    let hashes := blobHashesReferencedBy (loadRoomNodes table roomId)
    { live := scan.live ∪ hashes
      coldLive := match roomNodesVersion table roomId with
        | some version => Function.update scan.coldLive roomId (some (version, hashes))
        | none => scan.coldLive }

inductive SetRoomKeyReply (Key : Type) where
  | forbidden
  | roomLocked (key : Key)
  | alreadyLocked
  | invalidPubkeyHex

def setRoomKeyReply (env : TokenEnv) (authKey : Option env.signer.VerifyingKey)
    (session : PeerSession) (vkHex : String) : SetRoomKeyReply env.signer.VerifyingKey :=
  if isControlPlaneAllowed session "room.admin" then
    match (parseHex 32 vkHex).bind env.keyFromBytes with
    | none => .invalidPubkeyHex
    | some vk =>
      match authKey with
      | none => .roomLocked vk
      | some _ => .alreadyLocked
  else .forbidden

inductive RoomsAction where
  /-- Any caller that lets go of the room at once. -/
  | getOrCreate (roomId : String) (now : Nat)
  | connect (roomId : String) (socket now : Nat)
  | hello (roomId : String) (socket : Nat) (hello : Hello) (nowSecs : UInt64)
  | leave (roomId : String) (socket now : Nat)
  | setRoomKey (roomId : String) (socket : Nat) (vkHex : String)
  | importNodes (roomId : String) (socket nowMs : Nat) (nodes : List SyncNode)
  | compactRead (roomId : String) (socket : Nat)
  | compactInstall (roomId : String) (socket : Nat)
  | hydrateLoad (roomId : String)
  | hydrateApply (roomId : String)
  | hydrateDone (roomId : String)
  | sweepIdle (timeout now : Nat)
  | collectGlobalLiveBlobHashes (recent : Finset Hash)

namespace Rooms

section
variable (state : Rooms Key)

/-- A server that has just started on a node table. -/
def start (table : List NodeRow) : Rooms Key := ⟨∅, table, fun _ => none, []⟩

def put (roomId : String) (room : Resident Key) : Rooms Key :=
  { state with rooms := state.rooms.insert roomId room }

def getOrCreate (roomId : String) (now : Nat) : Resident Key :=
  (state.rooms.lookup roomId).getD (.new now)

def evictable (timeout now : Nat) : List String :=
  state.rooms.keys.filter fun roomId =>
    (state.rooms.lookup roomId).elim false fun room => room.evictable timeout now

def evict (roomId : String) : Rooms Key :=
  { state with rooms := state.rooms.erase roomId, log := state.log ++ [.evicted roomId] }

def sweepIdle (timeout now : Nat) : Rooms Key :=
  (state.evictable timeout now).foldl evict state

def hydratedIds : List String :=
  state.rooms.keys.filter fun roomId =>
    (state.rooms.lookup roomId).elim false Resident.hydrated

/-- The live set and the cache that the call leaves; `recent` are the uploads
within their grace period. -/
def collectGlobalLiveBlobHashes (recent : Finset Hash) : ColdScan :=
  let resident := state.rooms.entries.foldl (fun live entry =>
    live ∪ entry.2.graph.referencedBlobHashes) ∅
  let coldIds := (knownRoomIds state.table).filter fun roomId => roomId ∉ state.hydratedIds
  let scan := coldIds.foldl (ColdScan.visit state.table) ⟨∅, state.coldLive⟩
  let known := coldIds ++ state.hydratedIds
  { live := resident ∪ scan.live ∪ recent
    coldLive := fun roomId => if roomId ∈ known then scan.coldLive roomId else none }

end

variable (env : TokenEnv) (crypto : Crypto) (postcard : Postcard) (serverKey : crypto.SigningKey)

/-- The answer to the hello of a socket, or `none` if it waits for none. -/
def answerHello (state : Rooms env.signer.VerifyingKey) (roomId : String) (socket : Nat)
    (hello : Hello) (nowSecs : UInt64) : Option (Except String PeerSession) := do
  let room ← state.rooms.lookup roomId
  let connection ← room.connections.lookup socket
  if connection.session.isSome then none
  else some (handshake env room.authKey (crypto.verifyingKey serverKey) hello roomId nowSecs)

/-- One step of one task; `none` when it does not apply or the call panics. -/
def perform (state : Rooms env.signer.VerifyingKey) :
    RoomsAction → Option (Rooms env.signer.VerifyingKey)
  | .getOrCreate roomId now => some (state.put roomId (state.getOrCreate roomId now))
  | .connect roomId socket now =>
    let room := state.getOrCreate roomId now
    match room.connections.lookup socket with
    | some _ => none
    | none => some (state.put roomId
        { room with connections := room.connections.insert socket ⟨none, none⟩ })
  | .hello roomId socket hello nowSecs => do
    let room ← state.rooms.lookup roomId
    match ← state.answerHello env crypto serverKey roomId socket hello nowSecs with
    | .ok session => some (state.put roomId (room.registerPeer socket session))
    | .error _ => some (state.put roomId
        { room with connections := room.connections.erase socket })
  | .leave roomId socket now => do
    let room ← state.rooms.lookup roomId
    let _ ← room.connections.lookup socket
    some (state.put roomId (room.leave socket now))
  | .setRoomKey roomId socket vkHex => do
    let room ← state.rooms.lookup roomId
    let session ← room.session socket
    match setRoomKeyReply env room.authKey session vkHex with
    | .roomLocked key => some { state.put roomId { room with authKey := some key } with
        log := state.log ++ [.locked roomId key] }
    | _ => some state
  | .importNodes roomId socket nowMs nodes => do
    let room ← state.rooms.lookup roomId
    let _ ← room.session socket
    let imported := importedNodes crypto nowMs room.graph nodes
    some { state.put roomId
        { room with graph := (NodalMerge.importNodes crypto nowMs room.graph nodes).graph } with
      table := imported.foldl (fun table node => persistRow table roomId node) state.table }
  | .compactRead roomId socket => do
    let room ← state.rooms.lookup roomId
    let session ← room.session socket
    match ← prepareCompaction crypto postcard serverKey room.graph with
    | .ok prepared => some (state.put roomId { room with
        connections := room.connections.insert socket ⟨some session, some prepared⟩ })
    | .error _ => some state
  | .compactInstall roomId socket => do
    let room ← state.rooms.lookup roomId
    let connection ← room.connections.lookup socket
    let prepared ← connection.prepared
    some (state.put roomId { room with
      graph := prepared.2
      connections := room.connections.insert socket { connection with prepared := none } })
  | .hydrateLoad roomId => do
    let room ← state.rooms.lookup roomId
    match room.hydration with
    | .started => some (state.put roomId
        { room with hydration := .loaded (loadRoomNodes state.table roomId) })
    | _ => none
  | .hydrateApply roomId => do
    let room ← state.rooms.lookup roomId
    match room.hydration with
    | .loaded nodes => some (state.put roomId
        { room with graph := (hydrate crypto room.graph nodes).1, hydration := .applied })
    | _ => none
  | .hydrateDone roomId => do
    let room ← state.rooms.lookup roomId
    match room.hydration with
    | .applied => some (state.put roomId { room with hydration := .done })
    | _ => none
  | .sweepIdle timeout now => some (state.sweepIdle timeout now)
  | .collectGlobalLiveBlobHashes recent =>
    some { state with coldLive := (state.collectGlobalLiveBlobHashes recent).coldLive }

end Rooms

namespace Resident

variable {room : Resident Key}

/-- The graph, and every graph that a compaction is about to install, is reachable. -/
structure Sound (crypto : Crypto) (room : Resident Key) : Prop where
  reached : Reachable crypto (fun _ _ => True) room.graph
  prepared : ∀ socket connection pair, room.connections.lookup socket = some connection →
    connection.prepared = some pair → Reachable crypto (fun _ _ => True) pair.2

theorem Sound.new (now : Nat) : (new now : Resident Key).Sound crypto :=
  ⟨.start, fun _ _ _ found => by simp [Resident.new] at found⟩

theorem Sound.insert (sound : room.Sound crypto) (socket : Nat) {connection : Connection}
    (fits : ∀ pair, connection.prepared = some pair → Reachable crypto (fun _ _ => True) pair.2)
    (idle : Option Nat) :
    { room with
      connections := room.connections.insert socket connection, idleSince := idle }.Sound crypto := by
  refine ⟨sound.reached, fun other found pair lookup => ?_⟩
  by_cases same : other = socket
  · subst same
    rw [lookup_insert] at lookup
    rw [← Option.some.inj lookup]
    exact fits pair
  · rw [lookup_insert_ne same] at lookup
    exact sound.prepared other found pair lookup

theorem Sound.erase (sound : room.Sound crypto) (socket : Nat) (idle : Option Nat) :
    { room with
      connections := room.connections.erase socket, idleSince := idle }.Sound crypto := by
  refine ⟨sound.reached, fun other found pair lookup => ?_⟩
  by_cases same : other = socket
  · subst same
    rw [lookup_erase] at lookup
    cases lookup
  · rw [lookup_erase_ne same] at lookup
    exact sound.prepared other found pair lookup

end Resident

theorem persistRow_grows (table : List NodeRow) (roomId : String) (node : SyncNode) :
    table <+: persistRow table roomId node := by
  unfold persistRow
  split
  · exact List.prefix_rfl
  · exact List.prefix_append ..

theorem persistRows_grow (table : List NodeRow) (roomId : String) (nodes : List SyncNode) :
    table <+: nodes.foldl (fun table node => persistRow table roomId node) table := by
  induction nodes generalizing table with
  | nil => exact List.prefix_rfl
  | cons node rest ih => exact (persistRow_grows table roomId node).trans (ih _)

namespace Rooms

section
variable (crypto : Crypto)

/-- The steps by what they change. -/
inductive Step (state : Rooms Key) : Rooms Key → Prop where
  | stayed : Step state state
  | created (absent : state.rooms.lookup roomId = none) (unlocked : room.authKey = none)
      (sound : room.Sound crypto) : Step state (state.put roomId room)
  | moved (found : state.rooms.lookup roomId = some room) (key : after.authKey = room.authKey)
      (kept : room.Sound crypto → after.Sound crypto) {rows : List NodeRow}
      (grown : state.table <+: rows) : Step state { state.put roomId after with table := rows }
  | locked (found : state.rooms.lookup roomId = some room) (unlocked : room.authKey = none) :
      Step state { state.put roomId { room with authKey := some key } with
        log := state.log ++ [.locked roomId key] }
  | swept {ids : List String} : Step state (ids.foldl evict state)
  | collected : Step state
      { state with coldLive := (state.collectGlobalLiveBlobHashes recent).coldLive }

end

section
variable {env : TokenEnv} {state next : Rooms env.signer.VerifyingKey}

variable {roomId : String} {session : PeerSession}

theorem Step.put (found : state.rooms.lookup roomId = some room)
    (key : after.authKey = room.authKey) (kept : room.Sound crypto → after.Sound crypto) :
    Step crypto state (state.put roomId after) :=
  .moved found key kept List.prefix_rfl

theorem Step.create_or_put (key : after.authKey = (state.getOrCreate roomId now).authKey)
    (kept : (state.getOrCreate roomId now).Sound crypto → after.Sound crypto) :
    Step crypto state (state.put roomId after) := by
  unfold getOrCreate at key kept
  cases found : state.rooms.lookup roomId with
  | none =>
    rw [found] at key kept
    exact .created found key (kept (.new now))
  | some room =>
    rw [found] at key kept
    exact .put found key kept

theorem perform_step (stepped : state.perform env crypto postcard serverKey action = some next) :
    Step crypto state next := by
  cases action <;> simp only [perform, bind_eq_bind] at stepped
  case getOrCreate roomId now =>
    cases stepped
    exact .create_or_put rfl fun sound => sound
  case connect roomId socket now =>
    split at stepped
    · cases stepped
    · cases stepped
      exact .create_or_put rfl fun sound => sound.insert socket (by simp) _
  case hello roomId socket hello nowSecs =>
    obtain ⟨room, found, stepped⟩ := bind_eq_some_iff.mp stepped
    obtain ⟨answer, -, stepped⟩ := bind_eq_some_iff.mp stepped
    cases answer with
    | ok session =>
      cases stepped
      exact .put found rfl fun sound => sound.insert socket (by simp) none
    | error error =>
      cases stepped
      exact .put found rfl fun sound => sound.erase socket _
  case leave roomId socket now =>
    obtain ⟨room, found, stepped⟩ := bind_eq_some_iff.mp stepped
    obtain ⟨connection, -, stepped⟩ := bind_eq_some_iff.mp stepped
    cases stepped
    have left : ∃ idle, room.leave socket now =
        { room with connections := room.connections.erase socket, idleSince := idle } := by
      unfold Resident.leave
      dsimp only
      split
      · exact ⟨_, rfl⟩
      · split
        · exact ⟨_, rfl⟩
        · exact ⟨_, rfl⟩
    obtain ⟨idle, left⟩ := left
    rw [left]
    exact .put found rfl fun sound => sound.erase socket idle
  case setRoomKey roomId socket vkHex =>
    obtain ⟨room, found, stepped⟩ := bind_eq_some_iff.mp stepped
    obtain ⟨session, -, stepped⟩ := bind_eq_some_iff.mp stepped
    split at stepped
    · rename_i key reply
      cases stepped
      refine .locked found ?_
      unfold setRoomKeyReply at reply
      split at reply
      · split at reply
        · cases reply
        · split at reply
          · assumption
          · cases reply
      · cases reply
    · cases stepped
      exact .stayed
  case importNodes roomId socket nowMs nodes =>
    obtain ⟨room, found, stepped⟩ := bind_eq_some_iff.mp stepped
    obtain ⟨session, -, stepped⟩ := bind_eq_some_iff.mp stepped
    cases stepped
    have kept (sound : room.Sound crypto) : { room with
        graph := (NodalMerge.importNodes crypto nowMs room.graph nodes).graph }.Sound crypto :=
      ⟨importNodes_reachable nowMs nodes sound.reached, sound.prepared⟩
    exact @Step.moved _ _ _ _ _ { room with
      graph := (NodalMerge.importNodes crypto nowMs room.graph nodes).graph } found rfl kept _
      (persistRows_grow ..)
  case compactRead roomId socket =>
    obtain ⟨room, found, stepped⟩ := bind_eq_some_iff.mp stepped
    obtain ⟨session, -, stepped⟩ := bind_eq_some_iff.mp stepped
    obtain ⟨outcome, made, stepped⟩ := bind_eq_some_iff.mp stepped
    cases outcome with
    | ok prepared =>
      cases stepped
      refine .put found rfl fun sound => sound.insert socket (fun pair same => ?_) _
      rw [← Option.some.inj same]
      exact (prepareCompaction_ok made).2.2
    | error error =>
      cases stepped
      exact .stayed
  case compactInstall roomId socket =>
    obtain ⟨room, found, stepped⟩ := bind_eq_some_iff.mp stepped
    obtain ⟨connection, held, stepped⟩ := bind_eq_some_iff.mp stepped
    obtain ⟨pair, prepared, stepped⟩ := bind_eq_some_iff.mp stepped
    cases stepped
    refine .put found rfl fun sound => ⟨?_, ?_⟩
    · exact sound.prepared socket connection pair held prepared
    · exact (sound.insert socket (by simp) room.idleSince).prepared
  case hydrateLoad roomId =>
    obtain ⟨room, found, stepped⟩ := bind_eq_some_iff.mp stepped
    split at stepped
    · cases stepped
      exact .put found rfl fun sound => ⟨sound.reached, sound.prepared⟩
    · cases stepped
  case hydrateApply roomId =>
    obtain ⟨room, found, stepped⟩ := bind_eq_some_iff.mp stepped
    split at stepped
    · rename_i nodes _
      cases stepped
      refine .put found rfl fun sound => ⟨?_, sound.prepared⟩
      exact (hydrate_grows room.graph nodes).reached sound.reached
    · cases stepped
  case hydrateDone roomId =>
    obtain ⟨room, found, stepped⟩ := bind_eq_some_iff.mp stepped
    split at stepped
    · cases stepped
      exact .put found rfl fun sound => ⟨sound.reached, sound.prepared⟩
    · cases stepped
  case sweepIdle timeout now =>
    cases stepped
    exact .swept
  case collectGlobalLiveBlobHashes recent =>
    cases stepped
    exact .collected

end

/-- The registry under the sample parameters. -/
abbrev performSample := perform TokenEnv.sample Crypto.sample Postcard.sample (Crypto.sampleKey 1)

/-- A registry with the room `r` alone. -/
def single (room : Resident PublicKey) (table : List NodeRow) (log : List (RoomEvent PublicKey)) :
    Rooms TokenEnv.sample.signer.VerifyingKey :=
  ⟨AList.singleton "r" room, table, fun _ => none, log⟩

end Rooms

end NodalMerge
