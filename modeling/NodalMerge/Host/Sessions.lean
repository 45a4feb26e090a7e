import NodalMerge.Host.Api

namespace NodalMerge.Host

open Function

/-- What the engine takes from outside: the primitives of the graphs, the keyed hash of
the search tree, token signatures, the pack format, and the blob URLs if it has any. -/
structure HostEnv where
  crypto : Crypto
  keyed : List U8 → List U8 → Hash
  signer : MessageSigner
  keyFromBytes : PublicKey → Option signer.VerifyingKey
  packNodes : List SyncNode → List U8
  unpackNodes : List U8 → Option (List SyncNode)
  resolvePutUrl : String → String → String → Nat → Option String → Option PresignedBlobUrl
  resolveGetUrl : String → String → String → Option PresignedBlobUrl

/-- A host that reads no packs and has no blob store. -/
def HostEnv.sample : HostEnv where
  crypto := Crypto.sample
  keyed _ _ := Bytes.zero 32
  signer := RoomToken.sampleSigner []
  keyFromBytes _ := some ()
  packNodes _ := []
  unpackNodes _ := none
  resolvePutUrl _ _ _ _ _ := none
  resolveGetUrl _ _ _ := none

structure SessionState where
  roomId : String
  peerPubkeyHex : String

structure PresenceState where
  fromPeerPubkey : String
  data : Value
  expiresAtUnixMs : Option Nat

/-- The tables about peers. A room without an entry in one of them has an empty map. -/
structure Sessions where
  sessions : HashMap SessionId SessionState
  roomPresence : String → HashMap SessionId PresenceState
  roomSubscriptions : String → HashMap SessionId (List String)
  roomAuthKeys : HashMap String PublicKey

def normalizeSubscriptionPatterns (patterns : List String) : List String :=
  let cleaned := (patterns.map trim).filter fun pattern => pattern ≠ ""
  if cleaned.isEmpty || cleaned.contains "**" then ["**"] else cleaned

/-- The checks of a hello in a locked room. -/
def checkHelloToken (env : HostEnv) (room : String) (nowUnixMs : Nat) (hello : ClientHelloPayload)
    (roomVkBytes : PublicKey) : Except HostCoreError Unit := do
  let token ← hello.token.elim (.error .authViolation) .ok
  let peerPubkey ← (parseHex 32 hello.peerPubkeyHex).elim (.error .authViolation) .ok
  let roomVk ← (env.keyFromBytes roomVkBytes).elim (.error .internalInvariant) .ok
  let roomToken ← (RoomToken.fromWire token.peerPubkey token.expiry token.caps token.sig).mapError
    fun _ => .authViolation
  (roomToken.verify env.signer room roomVk peerPubkey (.ofNat (nowUnixMs / 1000))).mapError
    fun _ => .authViolation

namespace Sessions

def empty : Sessions := ⟨∅, fun _ => ∅, fun _ => ∅, ∅⟩

variable (table : Sessions) (room : String)

/-- The session, if it belongs to the room. -/
def inRoom (sessionId : SessionId) : Except HostCoreError SessionState :=
  match table.sessions.lookup sessionId with
  | none => .error .sessionNotFound
  | some state => if state.roomId = room then .ok state else .error .protocolViolation

def openSession (rooms : Finset String) (sessionId : SessionId) (peerPubkeyHex : String) :
    Sessions × CommandResult :=
  if room ∉ rooms then (table, .error .roomNotFound)
  else if (table.sessions.lookup sessionId).isSome then (table, .error .sessionAlreadyOpen)
  else ({ table with sessions := table.sessions.insert sessionId ⟨room, peerPubkeyHex⟩ },
    .ok [.sessionOpened room sessionId])

/-- The room is that of the session, whatever room the command names. -/
def closeSession (sessionId : SessionId) : Sessions × CommandResult :=
  match table.sessions.lookup sessionId with
  | none => (table, .error .sessionNotFound)
  | some state =>
    let presence := table.roomPresence state.roomId
    let left :=
      match presence.lookup sessionId with
      | some removed =>
        [.presenceValueRemoved state.roomId sessionId removed.fromPeerPubkey "leave"]
      | none => []
    ({ table with
        sessions := table.sessions.erase sessionId
        roomPresence := update table.roomPresence state.roomId (presence.erase sessionId)
        roomSubscriptions := update table.roomSubscriptions state.roomId
          ((table.roomSubscriptions state.roomId).erase sessionId) },
      .ok (.sessionClosed state.roomId sessionId :: left))

def clientHello (env : HostEnv) (nowUnixMs : Nat) (sessionId : SessionId)
    (hello : ClientHelloPayload) : CommandResult := do
  let state ← table.inRoom room sessionId
  if state.peerPubkeyHex ≠ hello.peerPubkeyHex then throw .protocolViolation
  match table.roomAuthKeys.lookup room with
  | some roomVkBytes => checkHelloToken env room nowUnixMs hello roomVkBytes
  | none => pure ()
  let server := CapabilitySet.default
  let negotiated : CapabilitySet :=
    ⟨server.supportsIbf && hello.capabilities.supportsIbf,
      server.supportsMst && hello.capabilities.supportsMst⟩
  return [.welcomePrepared room sessionId negotiated 0]

def presenceSet (sessionId : SessionId) (data : Value) (ttlMs nowUnixMs : Option Nat) :
    Sessions × CommandResult :=
  match table.inRoom room sessionId with
  | .error error => (table, .error error)
  | .ok state =>
    let expires :=
      match ttlMs, nowUnixMs with
      | some ttl, some now => some (saturatingAdd now ttl)
      | _, _ => none
    let presence := table.roomPresence room
    ({ table with
        roomPresence := update table.roomPresence room
          (presence.insert sessionId ⟨state.peerPubkeyHex, data, expires⟩) },
      .ok [.presenceValueSet room sessionId state.peerPubkeyHex data
        (presence.lookup sessionId).isNone])

def presenceGetAll : CommandResult :=
  .ok [.presenceValuesListed room ((sortedEntries (table.roomPresence room)).map fun entry =>
    ⟨entry.1, entry.2.fromPeerPubkey, entry.2.data, entry.2.expiresAtUnixMs⟩)]

def presenceSweep (nowUnixMs : Nat) : Sessions × CommandResult :=
  let stale := (sortedEntries (table.roomPresence room)).filter fun entry =>
    entry.2.expiresAtUnixMs.any (· ≤ nowUnixMs)
  ({ table with
      roomPresence := update table.roomPresence room
        (stale.foldl (fun presence entry => presence.erase entry.1) (table.roomPresence room)) },
    .ok (stale.map fun entry =>
      .presenceValueRemoved room entry.1 entry.2.fromPeerPubkey "stale"))

def subscribe (sessionId : SessionId) (patterns : List String) : Sessions × CommandResult :=
  match table.inRoom room sessionId with
  | .error error => (table, .error error)
  | .ok _ =>
    let normalized := normalizeSubscriptionPatterns patterns
    ({ table with
        roomSubscriptions := update table.roomSubscriptions room
          ((table.roomSubscriptions room).insert sessionId normalized) },
      .ok [.subscriptionUpdated room sessionId normalized])

def setRoomKey (rooms : Finset String) (pubkeyHex : String) : Sessions × CommandResult :=
  if room ∉ rooms then (table, .error .roomNotFound)
  else
    match parseHex 32 pubkeyHex with
    | none => (table, .ok [.setRoomKeyRejected room "set-room-key: invalid pubkey hex"])
    | some pubkey =>
      if (table.roomAuthKeys.lookup room).isSome then
        (table, .ok [.setRoomKeyRejected room "room already locked"])
      else ({ table with roomAuthKeys := table.roomAuthKeys.insert room pubkey },
        .ok [.roomLocked room pubkeyHex])

def relayPeerSignal (rooms : Finset String) (sessionId : SessionId) (msgType toPeerPubkey : String)
    (payload : Value) : CommandResult := do
  if room ∉ rooms then throw .roomNotFound
  let state ← table.inRoom room sessionId
  if toPeerPubkey = "" ∨ msgType = "" then throw .invalidCommand
  return [.peerSignalRelayed room state.peerPubkeyHex msgType toPeerPubkey payload]

end Sessions

end NodalMerge.Host
