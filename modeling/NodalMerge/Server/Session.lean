import NodalMerge.Crdt.OpFormat
import NodalMerge.Crdt.Token

/-! JSON is left out: a field is present with the type the server asks for, or absent. -/

namespace NodalMerge

def hexNibble (byte : UInt8) : Option Nat :=
  if 48 ≤ byte ∧ byte ≤ 57 then some (byte.toNat - 48)
  else if 97 ≤ byte ∧ byte ≤ 102 then some (byte.toNat - 97 + 10)
  else if 65 ≤ byte ∧ byte ≤ 70 then some (byte.toNat - 65 + 10)
  else none

/-- Two digits a byte; an odd rest has no reading. -/
def hexPairs : List UInt8 → Option (List U8)
  | [] => some []
  | [_] => none
  | hi :: lo :: rest => do
    let high ← hexNibble hi
    let low ← hexNibble lo
    let bytes ← hexPairs rest
    return Fin.ofNat 256 (high * 16 + low) :: bytes

/-- `parse_hex_32` and `hex_to_array`. -/
def parseHex (size : Nat) (text : String) : Option (Bytes size) :=
  if (asBytes text).length ≠ size * 2 then none
  else (hexPairs (asBytes text)).bind (Bytes.ofList? size)

/-- `pubkey_hex`: two lower-case digits a byte. -/
def pubkeyHex (key : PublicKey) : String :=
  String.ofList (key.val.flatMap fun byte => [(byte.val / 16).digitChar, (byte.val % 16).digitChar])

structure Continuity where
  predecessorPeerPubkey : Option String
  overlapNotAfter : Option UInt64
  revokedPredecessors : List String

structure HelloToken where
  peerPubkey : Option String
  expiry : Option UInt64
  sig : Option String
  caps : List String
  capabilityProfileVersion : Option String
  profileVersion : Option String
  continuity : Option Continuity

structure Hello where
  pubkey : Option String
  token : Option HelloToken

/-- `extract_hello_pubkey_text`. -/
def Hello.pubkeyText (hello : Hello) : String := hello.pubkey.getD ""

/-- What the handshake takes from outside: signatures over tokens, the decoding
of a verifying key, and the expansion by the configured capability profile. -/
structure TokenEnv where
  signer : MessageSigner
  keyFromBytes : PublicKey → Option signer.VerifyingKey
  expandProfile : List String → Option String → Except String (List String)

def TokenError.text : TokenError → String
  | .expired => "token has expired"
  | .badSignature => "signature verification failed"
  | .peerMismatch => "token peer_pubkey does not match connecting peer"

def RoomToken.fromWire (peerHex : String) (expirySecs : UInt64) (capabilities : List String)
    (sigHex : String) : Except String RoomToken :=
  match parseHex 32 peerHex with
  | none => .error "malformed token field: peer_pubkey"
  | some peerPubkey =>
    match parseHex 64 sigHex with
    | none => .error "malformed token field: sig"
    | some signature => .ok ⟨peerPubkey, expirySecs, capabilities, signature⟩

/-- The characters that `str::trim` takes off. -/
def isWhiteSpace (char : Char) : Bool :=
  let code := char.toNat
  (9 ≤ code && code ≤ 13) || code = 0x20 || code = 0x85 || code = 0xA0 || code = 0x1680 ||
    (0x2000 ≤ code && code ≤ 0x200A) || code = 0x2028 || code = 0x2029 || code = 0x202F ||
    code = 0x205F || code = 0x3000

/-- `trim` followed by `to_ascii_lowercase`. -/
def normalizedHex (text : String) : String :=
  let trimmed := ((text.toList.dropWhile isWhiteSpace).reverse.dropWhile isWhiteSpace).reverse
  String.ofList (trimmed.map Char.toLower)

def validateIdentityContinuityV1 (token : HelloToken) (currentPeer : PublicKey) (nowSecs : UInt64) :
    Except String Unit :=
  match token.continuity with
  | none => .ok ()
  | some continuity =>
    match continuity.predecessorPeerPubkey with
    | none => .error "missing token.continuity.predecessor_peer_pubkey"
    | some predecessorHex =>
      match parseHex 32 predecessorHex with
      | none => .error "invalid token.continuity.predecessor_peer_pubkey"
      | some predecessor =>
        if predecessor = currentPeer then
          .error "token continuity predecessor must differ from current peer"
        else
          match continuity.overlapNotAfter with
          | none => .error "missing token.continuity.overlap_not_after"
          | some overlapNotAfter =>
            if nowSecs > overlapNotAfter then .error "token continuity overlap window expired"
            else if (continuity.revokedPredecessors.map normalizedHex).contains
                (normalizedHex predecessorHex) then
              .error "token continuity predecessor is revoked"
            else .ok ()

structure VerifiedToken where
  expirySecs : UInt64
  capabilities : List String

section
variable (env : TokenEnv)

def verifyHelloToken (hello : Hello) (roomVk : env.signer.VerifyingKey) (peerPubkeyHex roomId : String)
    (nowSecs : UInt64) : Except String VerifiedToken := do
  let token ← hello.token.elim
    (.error "room is locked — include a capability token in hello") .ok
  let peerHex ← token.peerPubkey.elim (.error "missing token.peer_pubkey") .ok
  let expiry ← token.expiry.elim (.error "missing token.expiry") .ok
  let sigHex ← token.sig.elim (.error "missing token.sig") .ok
  let peer ← (parseHex 32 peerPubkeyHex).elim (.error "invalid peer pubkey in hello") .ok
  let roomToken ← RoomToken.fromWire peerHex expiry token.caps sigHex
  (roomToken.verify env.signer roomId roomVk peer nowSecs).mapError TokenError.text
  validateIdentityContinuityV1 token peer nowSecs
  let capabilities ← env.expandProfile roomToken.capabilities
    (token.capabilityProfileVersion <|> token.profileVersion)
  return ⟨expiry, capabilities⟩

/-- The hello carries a token that the server takes under the key. -/
def Hello.tokenVerifies (hello : Hello) (roomVk : env.signer.VerifyingKey) (roomId : String)
    (nowSecs : UInt64) : Bool :=
  (verifyHelloToken env hello roomVk hello.pubkeyText roomId nowSecs).toBool

/-- What the handlers of later messages read of the handshake. -/
structure PeerSession where
  pubkeyHex : String
  isServerPeer : Bool
  verified : Option VerifiedToken

def PeerSession.caps (session : PeerSession) : Finset String :=
  session.verified.elim ∅ fun token => token.capabilities.toFinset

/-- The token is asked for only in a locked room; whether the peer is the server
itself is what the hello says. -/
def handshake (authKey : Option env.signer.VerifyingKey) (serverKey : PublicKey) (hello : Hello)
    (roomId : String) (nowSecs : UInt64) : Except String PeerSession :=
  let opened (verified : Option VerifiedToken) : PeerSession :=
    ⟨hello.pubkeyText, hello.pubkeyText = NodalMerge.pubkeyHex serverKey, verified⟩
  match authKey with
  | none => .ok (opened none)
  | some roomVk =>
    match verifyHelloToken env hello roomVk hello.pubkeyText roomId nowSecs with
    | .ok token => .ok (opened (some token))
    | .error error => .error ("auth: " ++ error)

end

inductive ClientDispatchCommand where
  | subscribe | pack | mstRequest | mstDone | request
  | blobUpload | blobRequest | requestUpload | blobUploaded
  | presence | setRoomKey | setPolicy | serverInfo | startTick | stopTick | compactRoom
  | archiveDescribe | archiveValidate | archiveImport | archiveExport
  | queryRegister | projectionBuild | projectionRead | projectionInvalidate | projectionList
  | replayReadRange
  | topologyCreateChild | topologyDescribeLineage | topologyListChildren
  | topologyProposePromotion | topologyValidatePromotion | topologyApplyPromotion
  | graphGetFrontier | graphGetCausalParents | graphGetCanonicalResolution | graphComputeSyncDiff
  | relay | unknown
  deriving DecidableEq

def routeClientDispatchCommand (messageType : String) : ClientDispatchCommand :=
  match messageType with
  | "subscribe" => .subscribe
  | "pack" => .pack
  | "mst-request" => .mstRequest
  | "mst-done" => .mstDone
  | "request" => .request
  | "blob-upload" => .blobUpload
  | "blob-request" => .blobRequest
  | "request-upload" => .requestUpload
  | "blob-uploaded" => .blobUploaded
  | "presence" => .presence
  | "set-room-key" => .setRoomKey
  | "set-policy" => .setPolicy
  | "server-info" => .serverInfo
  | "start-tick" => .startTick
  | "stop-tick" => .stopTick
  | "compact-room" => .compactRoom
  | "archive.describe" => .archiveDescribe
  | "archive.validate" => .archiveValidate
  | "archive.import" => .archiveImport
  | "archive.export" => .archiveExport
  | "query.register" => .queryRegister
  | "projection.build" => .projectionBuild
  | "projection.read" => .projectionRead
  | "projection.invalidate" => .projectionInvalidate
  | "projection.list" => .projectionList
  | "replay.read-range" => .replayReadRange
  | "topology.create-child" => .topologyCreateChild
  | "topology.describe-lineage" => .topologyDescribeLineage
  | "topology.list-children" => .topologyListChildren
  | "topology.propose-promotion" => .topologyProposePromotion
  | "topology.validate-promotion" => .topologyValidatePromotion
  | "topology.apply-promotion" => .topologyApplyPromotion
  | "graph.get-frontier" => .graphGetFrontier
  | "graph.get-causal-parents" => .graphGetCausalParents
  | "graph.get-canonical-resolution" => .graphGetCanonicalResolution
  | "graph.compute-sync-diff" => .graphComputeSyncDiff
  | "webrtc-offer" | "webrtc-answer" | "webrtc-ice" => .relay
  | _ => .unknown

def requiredCapabilityForControlPlaneCommand (command : String) : Option String :=
  match command with
  | "set-policy" => some "policy.admin"
  | "set-room-key" => some "room.admin"
  | "start-tick" | "stop-tick" => some "tick.admin"
  | "archive.describe" => some "archive.read"
  | "archive.validate" | "archive.import" | "archive.export" => some "archive.admin"
  | "query.register" | "projection.build" | "projection.invalidate" => some "query.admin"
  | "graph.get-frontier" | "graph.get-causal-parents" | "graph.get-canonical-resolution"
  | "graph.compute-sync-diff" => some "query.admin"
  | "projection.read" | "projection.list" | "replay.read-range" => some "query.read"
  | "topology.create-child" | "topology.describe-lineage" | "topology.list-children"
  | "topology.propose-promotion" | "topology.validate-promotion" | "topology.apply-promotion" =>
    some "topology.admin"
  | _ => none

def isControlPlaneAllowed (session : PeerSession) (required : String) : Bool :=
  session.isServerPeer || decide (required ∈ session.caps)

def evaluateControlPlaneAuthorization (session : PeerSession) (command : String) : Except String Unit :=
  match requiredCapabilityForControlPlaneCommand command with
  | none => .ok ()
  | some required =>
    if isControlPlaneAllowed session required then .ok ()
    else .error ("reject.control_plane_forbidden: command=" ++ command ++ " requires=" ++ required)

/-- The checks that four handlers write out themselves. -/
def inlineGuard (session : PeerSession) (required rejection : String) : Except String Unit :=
  if isControlPlaneAllowed session required then .ok () else .error rejection

/-- What each handler checks first. -/
def ClientDispatchCommand.guard (session : PeerSession) : ClientDispatchCommand → Except String Unit
  | .setRoomKey => inlineGuard session "room.admin"
      "reject.control_plane_forbidden: command=set-room-key requires=room.admin"
  | .setPolicy => inlineGuard session "policy.admin"
      "reject.control_plane_forbidden: command=set-policy requires=policy.admin"
  | .startTick => inlineGuard session "tick.admin"
      "reject.control_plane_forbidden: command=start-tick requires=tick.admin"
  | .stopTick => inlineGuard session "tick.admin"
      "reject.control_plane_forbidden: command=stop-tick requires=tick.admin"
  | .archiveDescribe => evaluateControlPlaneAuthorization session "archive.describe"
  | .archiveValidate => evaluateControlPlaneAuthorization session "archive.validate"
  | .archiveImport => evaluateControlPlaneAuthorization session "archive.import"
  | .archiveExport => evaluateControlPlaneAuthorization session "archive.export"
  | .queryRegister => evaluateControlPlaneAuthorization session "query.register"
  | .projectionBuild => evaluateControlPlaneAuthorization session "projection.build"
  | .projectionRead => evaluateControlPlaneAuthorization session "projection.read"
  | .projectionInvalidate => evaluateControlPlaneAuthorization session "projection.invalidate"
  | .projectionList => evaluateControlPlaneAuthorization session "projection.list"
  | .replayReadRange => evaluateControlPlaneAuthorization session "replay.read-range"
  | .topologyCreateChild => evaluateControlPlaneAuthorization session "topology.create-child"
  | .topologyDescribeLineage => evaluateControlPlaneAuthorization session "topology.describe-lineage"
  | .topologyListChildren => evaluateControlPlaneAuthorization session "topology.list-children"
  | .topologyProposePromotion =>
    evaluateControlPlaneAuthorization session "topology.propose-promotion"
  | .topologyValidatePromotion =>
    evaluateControlPlaneAuthorization session "topology.validate-promotion"
  | .topologyApplyPromotion => evaluateControlPlaneAuthorization session "topology.apply-promotion"
  | .graphGetFrontier => evaluateControlPlaneAuthorization session "graph.get-frontier"
  | .graphGetCausalParents => evaluateControlPlaneAuthorization session "graph.get-causal-parents"
  | .graphGetCanonicalResolution =>
    evaluateControlPlaneAuthorization session "graph.get-canonical-resolution"
  | .graphComputeSyncDiff => evaluateControlPlaneAuthorization session "graph.compute-sync-diff"
  | _ => .ok ()

/-- A text frame from the client; a message without a type has the empty one. -/
inductive ClientText where
  | malformed
  | message (messageType : String)
  deriving DecidableEq

/-- An error to the client, or a command that goes on to its handler. -/
inductive Handled where
  | error (text : String)
  | authorised (command : ClientDispatchCommand)
  deriving DecidableEq

/-- Neither malformed nor unknown messages close the connection. -/
def handleClientMessage (session : PeerSession) : ClientText → Handled
  | .malformed => .error "invalid JSON"
  | .message messageType =>
    let command := routeClientDispatchCommand messageType
    match command.guard session with
    | .error rejection => .error rejection
    | .ok () => .authorised command

/-- The messages of a session with what became of them. -/
def PeerSession.handleAll (session : PeerSession) (texts : List ClientText) : List (ClientText × Handled) :=
  texts.map fun text => (text, handleClientMessage session text)

/-- A type that is not routed is not in the table. -/
theorem required_of_unknown (unknown : routeClientDispatchCommand messageType = .unknown) :
    requiredCapabilityForControlPlaneCommand messageType = none := by
  unfold requiredCapabilityForControlPlaneCommand
  split <;> first | rfl | cases unknown

/-- Every handler asks for what the table lists under its message type, and its
rejection names both. -/
theorem guard_route (session : PeerSession) (messageType : String) :
    (routeClientDispatchCommand messageType).guard session =
      evaluateControlPlaneAuthorization session messageType := by
  by_cases unknown : routeClientDispatchCommand messageType = .unknown
  · rw [evaluateControlPlaneAuthorization, required_of_unknown unknown, unknown]
    rfl
  · revert unknown
    unfold routeClientDispatchCommand
    split <;> first | exact fun unknown => absurd rfl unknown | exact fun _ => rfl

theorem handleClientMessage_authorised_iff :
    (∃ command, handleClientMessage session (.message messageType) = .authorised command) ↔
      evaluateControlPlaneAuthorization session messageType = .ok () := by
  rw [← guard_route]
  simp only [handleClientMessage]
  cases (routeClientDispatchCommand messageType).guard session <;> simp

theorem evaluateControlPlaneAuthorization_ok_iff
    (listed : requiredCapabilityForControlPlaneCommand command = some required) :
    evaluateControlPlaneAuthorization session command = .ok () ↔
      isControlPlaneAllowed session required = true := by
  simp only [evaluateControlPlaneAuthorization, listed]
  cases isControlPlaneAllowed session required <;> simp

section
variable {env : TokenEnv} {authKey : Option env.signer.VerifyingKey} {roomId : String}
  {session : PeerSession}

theorem handshake_isServerPeer
    (opened : handshake env authKey serverKey hello roomId nowSecs = .ok session) :
    session.isServerPeer = decide (hello.pubkeyText = pubkeyHex serverKey) := by
  unfold handshake at opened
  split at opened
  · rw [← Except.ok.inj opened]
  · split at opened
    · rw [← Except.ok.inj opened]
    · cases opened

/-- Whatever the client sends, no command of the capability table is authorised. -/
def PeerSession.NeverPrivileged (session : PeerSession) : Prop :=
  ∀ texts, ∀ entry ∈ session.handleAll texts, ∀ messageType required,
    entry.1 = .message messageType →
    requiredCapabilityForControlPlaneCommand messageType = some required →
    ∀ command, entry.2 ≠ .authorised command

theorem neverPrivileged_iff (unverified : session.verified = none) :
    session.NeverPrivileged ↔ session.isServerPeer = false := by
  have uncapable : session.caps = ∅ := by
    rw [PeerSession.caps, unverified]
    rfl
  constructor
  · intro never
    by_contra claimed
    have allowed : isControlPlaneAllowed session "policy.admin" = true := by
      rw [isControlPlaneAllowed, Bool.not_eq_false _ |>.mp claimed, Bool.true_or]
    have listed : requiredCapabilityForControlPlaneCommand "set-policy" = some "policy.admin" := rfl
    obtain ⟨command, authorised⟩ := handleClientMessage_authorised_iff.mpr
      ((evaluateControlPlaneAuthorization_ok_iff listed).mpr allowed)
    exact never [.message "set-policy"] _ List.mem_cons_self "set-policy" "policy.admin" rfl listed
      command authorised
  · intro claimed texts entry member messageType required sent listed command authorised
    obtain ⟨text, -, rfl⟩ := List.mem_map.mp member
    subst sent
    have allowed := (evaluateControlPlaneAuthorization_ok_iff listed).mp
      (handleClientMessage_authorised_iff.mp ⟨command, authorised⟩)
    simp [isControlPlaneAllowed, claimed, uncapable] at allowed

end

/-- A session that showed no token stays without privileges exactly when its
hello does not name the public key of the server. -/
theorem unverified_session_unprivileged_iff (env : TokenEnv)
    (authKey : Option env.signer.VerifyingKey) (serverKey : PublicKey) (hello : Hello)
    (roomId : String) (nowSecs : UInt64) (session : PeerSession)
    (opened : handshake env authKey serverKey hello roomId nowSecs = .ok session)
    (unverified : session.verified = none) :
    session.NeverPrivileged ↔ hello.pubkeyText ≠ pubkeyHex serverKey := by
  rw [neverPrivileged_iff unverified, handshake_isServerPeer opened, decide_eq_false_iff_not]

/-- Signatures that never verify, every key readable, and no capability profile. -/
def TokenEnv.sample : TokenEnv where
  signer := ⟨Unit, PublicKey, fun _ => Bytes.zero 32, fun _ _ => Bytes.zero 64, fun _ _ _ => false⟩
  keyFromBytes := some
  expandProfile caps _ := .ok caps

/-- A peer that presents the given key and no token. -/
def Hello.plain (pubkey : String) : Hello := ⟨some pubkey, none⟩

theorem guest_unprivileged :
    ∃ session, handshake TokenEnv.sample none (Bytes.zero 32) (.plain "guest") "r" 0 = .ok session ∧
      session.NeverPrivileged :=
  ⟨_, rfl, (unverified_session_unprivileged_iff TokenEnv.sample none (Bytes.zero 32) (.plain "guest")
    "r" 0 _ rfl rfl).mpr (by decide)⟩

/-- The key that the welcome message discloses is all it takes. -/
theorem claimed_server_key_privileged :
    ∃ session, handshake TokenEnv.sample none (Bytes.zero 32) (.plain (pubkeyHex (Bytes.zero 32)))
        "r" 0 = .ok session ∧ session.verified = none ∧
      session.handleAll [.message "set-policy"] =
        [(.message "set-policy", .authorised .setPolicy)] :=
  ⟨_, rfl, rfl, rfl⟩

end NodalMerge
