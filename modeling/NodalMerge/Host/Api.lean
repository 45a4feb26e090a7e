import NodalMerge.Host.Value

namespace NodalMerge.Host

abbrev SessionId := Nat

inductive HostCoreError where
  | invalidCommand
  | roomNotFound
  | sessionNotFound
  | sessionAlreadyOpen
  | protocolViolation
  | authViolation
  | policyViolation
  | internalInvariant
  deriving DecidableEq

structure CapabilitySet where
  supportsIbf : Bool
  supportsMst : Bool
  deriving DecidableEq

def CapabilitySet.default : CapabilitySet := ⟨true, true⟩

structure HelloTokenPayload where
  peerPubkey : String
  expiry : UInt64
  caps : List String
  sig : String

structure ClientHelloPayload where
  peerPubkeyHex : String
  clientFrontier : List String
  capabilities : CapabilitySet
  token : Option HelloTokenPayload

structure PolicyRulePayload where
  pathGlob : String
  canWrite : List String

/-- A presigned URL from the blob store. -/
structure PresignedBlobUrl where
  url : String
  expiresAtUnix : Nat

structure MapEntry where
  key : String
  value : Value

structure TextEntry where
  id : String
  ch : String

structure ListEntry where
  id : String
  value : Value

structure BlobEntry where
  hash : String
  dataB64 : String

structure BlobRedirectEntry where
  hash : String
  url : String
  expiresAtUnix : Nat

structure PresenceEntry where
  sessionId : SessionId
  fromPeerPubkey : String
  data : Value
  expiresAtUnixMs : Option Nat

structure ConflictEntry where
  atUnixMs : Nat
  event : ConflictEvent

structure CanonicalMapEntry where
  key : String
  valueBytesB64 : String

inductive HostCommand where
  | ensureRoom
  | openSession (sessionId : SessionId) (peerPubkeyHex : String)
  | closeSession (sessionId : SessionId)
  | clientHello (sessionId : SessionId) (hello : ClientHelloPayload)
  | mapSet (ns key : String) (value : Value)
  | mapDelete (ns key : String)
  | mapGet (ns key : String)
  | mapAll (ns : String)
  | textInsert (ns key : String) (afterId : Option String) (ch : String)
  | textDelete (ns key targetId : String)
  | textGet (ns key : String)
  | textGetCanonical (ns key : String)
  | listPush (ns key : String) (value : Value)
  | listInsert (ns key : String) (index : Nat) (value : Value)
  | listDelete (ns key : String) (index : Nat)
  | listMove (ns key : String) (fromIndex toIndex : Nat)
  | listUpdate (ns key : String) (index : Nat) (value : Value)
  | listGet (ns key : String)
  | blobSet (ns hash dataB64 : String)
  | blobGet (ns hash : String)
  | blobGetMany (ns : String) (hashes : List String)
  | requestUpload (ns hash : String) (sizeBytes : Nat) (contentType : Option String)
  | blobRequest (ns : String) (hashes : List String)
  | presenceSet (sessionId : SessionId) (data : Value) (ttlMs nowUnixMs : Option Nat)
  | presenceGetAll
  | presenceSweep (nowUnixMs : Nat)
  | subscribe (sessionId : SessionId) (patterns : List String)
  | setRoomKey (pubkeyHex : String)
  | setPolicy (fallback : String) (rules : List PolicyRulePayload)
  | importPack (nodesB64 : String)
  | requestServerPack (knownIds : List String)
  | mstRequest (paths : List String)
  | mstDone (ids : List String)
  | getRecentConflicts (sinceUnixMs : Option Nat)
  | relayPeerSignal (sessionId : SessionId) (msgType toPeerPubkey : String) (payload : Value)
  | createTopologyChild (parentRoomId childRoomId childPurpose createdBy promotionPolicyId : String)
      (parentCheckpoint : Value)
  | describeRoomLineage (roomId : String)
  | listTopologyChildren (parentRoomId : String)
  | proposeTopologyPromotion (parentRoomId childRoomId childCheckpointHash payloadRef : String)
      (idempotencyKey : Option String)
  | validateTopologyPromotion (proposalId : String)
  | applyTopologyPromotion (proposalId : String)
  | registerQuerySpec (querySpecId version : String) (descriptor : Value)
  | buildProjection (projectionId querySpecId : String) (targetCheckpoint : Option Value)
  | readProjection (projectionId : String) (limit : Nat) (pageToken : Option String)
  | invalidateProjection (projectionId reason : String)
  | listProjections (querySpecId stateFilter : Option String)
  | describeArchive (archiveRef : String)
  | validateArchive (archiveRef mode : String)
  | importArchive (archiveRef importMode : String) (expectedCheckpoint : Option Value)
  | promoteCheckpointToGraph (selector : Option Value)
  | replayReadRange (keyPrefix : String) (fromLamport : Nat) (limit : Option Nat)
      (cursor : Option String)
  | getFrontier
  | getCausalParents (nodeIdHex : String)
  | getCanonicalResolution
  | computeSyncDiff (peerNodeIdsHex : List String)
  | inspectPack (nodesB64 : String)
  | noop

inductive HostEvent where
  | roomEnsured (roomId : String)
  | sessionOpened (roomId : String) (sessionId : SessionId)
  | sessionClosed (roomId : String) (sessionId : SessionId)
  | welcomePrepared (roomId : String) (sessionId : SessionId) (negotiated : CapabilitySet)
      (missingFromServerCount : Nat)
  | mapValueUpserted (roomId ns key : String) (value : Value)
  | mapValueDeleted (roomId ns key : String) (found : Bool)
  | mapValueRead (roomId ns key : String) (value : Option Value)
  | mapEntriesListed (roomId ns : String) (entries : List MapEntry)
  | textValueInserted (roomId ns key id ch : String)
  | textValueDeleted (roomId ns key targetId : String) (found : Bool)
  | textValueRead (roomId ns key value : String) (entries : List TextEntry)
  | listValuePushed (roomId ns key id : String) (index : Nat) (value : Value)
  | listValueInserted (roomId ns key id : String) (index : Nat) (value : Value)
  | listValueDeleted (roomId ns key : String) (index : Nat) (found : Bool) (removed : Option Value)
  | listValueMoved (roomId ns key : String) (fromIndex toIndex : Nat) (found : Bool)
      (id : Option String)
  | listValueUpdated (roomId ns key : String) (index : Nat) (found : Bool) (id : Option String)
      (value : Option Value)
  | listValueRead (roomId ns key : String) (entries : List ListEntry)
  | blobValueStored (roomId ns hash : String) (stored : Bool)
  | blobValueRead (roomId ns hash : String) (found : Bool) (dataB64 : Option String)
  | blobValuesRead (roomId ns : String) (entries : List BlobEntry) (missing : List String)
  | uploadGranted (roomId ns hash url : String) (expiresAtUnix : Nat)
  | uploadDenied (roomId ns hash reason : String)
  | blobRedirectPrepared (roomId ns : String) (redirects : List BlobRedirectEntry)
  | blobPackPrepared (roomId ns : String) (blobs : List BlobEntry) (requested : List String)
  | presenceValueSet (roomId : String) (sessionId : SessionId) (fromPeerPubkey : String)
      (data : Value) (joined : Bool)
  | presenceValueRemoved (roomId : String) (sessionId : SessionId) (fromPeerPubkey reason : String)
  | presenceValuesListed (roomId : String) (entries : List PresenceEntry)
  | subscriptionUpdated (roomId : String) (sessionId : SessionId) (patterns : List String)
  | roomLocked (roomId pubkeyHex : String)
  | setRoomKeyRejected (roomId msg : String)
  | policySet (roomId : String)
  | setPolicyRejected (roomId msg : String)
  | packImported (roomId : String) (incomingCount acceptedCount rejectedCount : Nat)
  | serverPackPrepared (roomId nodesB64 rootHex : String)
  | mstResponsePrepared (roomId : String) (nodes : List Value)
  | conflictsObserved (roomId : String) (entries : List ConflictEntry)
  | recentConflictsListed (roomId : String) (entries : List ConflictEntry)
  | checkpointPromoted (roomId : String) (seq : Nat) (nodeIdHex : String)
      (frontierHeadsHex : List String)
  | frontierQueried (roomId : String) (frontierHeadsHex : List String)
  | causalParentsQueried (roomId nodeIdHex : String) (parentIdsHex : List String)
      (nodeFound : Bool)
  | canonicalResolutionQueried (roomId : String) (entries : List CanonicalMapEntry)
      (entryCount : Nat)
  | syncDiffComputed (roomId : String) (onlyInServer onlyInPeer : List String)
  | packInspected (nodeCount : Nat) (externalParentIdsHex tipNodeIdsHex : List String)
  | peerSignalRelayed (roomId fromPeerPubkey msgType toPeerPubkey : String) (payload : Value)
  | childRoomCreated (childRoomId : String) (lineage : Value)
  | roomLineageDescribed (roomId : String) (lineage : Option Value) (ancestors : List Value)
  | childrenListed (parentRoomId : String) (children : List Value)
  | promotionProposed (proposalId parentRoomId childRoomId childCheckpointHash payloadRef
      proposalDigest : String)
  | promotionValidated (proposalId validationDigest : String)
  | promotionValidationRejected (proposalId reasonClass reasonMessage : String)
  | replayRangeRead (roomId keyPrefix : String) (fromLamport : Nat) (items : List Value)
      (nextCursor : Option String)
  | replayRangeRejected (roomId reasonClass reasonMessage : String)
  | promotionApplied (proposalId parentRoomId parentNewCanonicalHash auditKey : String)
  | querySpecRegistered (roomId querySpecId version : String) (canonicalHash : Value)
      (accepted : Bool)
  | projectionBuildCompleted (roomId projectionId : String) (checkpoint digest : Value)
  | projectionBuildRejected (roomId projectionId reasonClass reasonMessage : String)
  | projectionReadResult (roomId projectionId : String) (checkpoint : Value) (rows : List Value)
      (digest nextPageToken : Option Value)
  | projectionInvalidated (roomId projectionId reason : String) (invalidatedAtHlc : Value)
  | projectionListResult (roomId : String) (querySpecId : Option String) (items : List Value)
      (cursor : Option Value)
  | archiveDescribed (roomId archiveRef manifestId formatVersion archiveKind : String)
      (checkpoint payloadDigestSet compatibilityWindow provenance : Value)
  | archiveValidated (roomId archiveRef : String) (accepted : Bool) (mode : String)
      (checks : List String) (compatibilityWindow : Value)
  | archiveValidationRejected (roomId archiveRef reasonClass reasonMessage : String)
  | archiveImported (roomId archiveRef canonicalHash : String) (checkpoint : Value)
      (importedNodes importedBlobs : Int)
  | archiveImportRejected (roomId archiveRef reasonClass reasonMessage : String)
  | noopAck

/-- What a command returns: an error, or the events of a `CommandResult`. -/
abbrev CommandResult := Except HostCoreError (List HostEvent)

structure CommandEnvelope where
  roomId : String
  command : HostCommand

/-- A call of `apply` with the clock it reads. -/
structure HostCall where
  nowUnixMs : Nat
  envelope : CommandEnvelope

end NodalMerge.Host
