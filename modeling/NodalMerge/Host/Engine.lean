import NodalMerge.Host.Queries
import NodalMerge.Library.Machine

namespace NodalMerge.Host

/-- The tables of `HostEngine`, grouped by the commands that write them. -/
structure HostEngine where
  rooms : Finset String
  sessions : Sessions
  texts : Texts
  lists : Lists
  blobs : Blobs
  checkpoints : Checkpoints
  graphs : Graphs
  queries : Queries

namespace HostEngine

def new : HostEngine :=
  ⟨∅, .empty, .empty, .empty, fun _ _ => none, .empty, .empty, .empty⟩

variable (env : HostEnv) (engine : HostEngine)

/-- The new tables of a room start out empty, except for what the groups say. -/
def ensureRoom (room : String) : HostEngine :=
  { engine with
    rooms := insert room engine.rooms
    graphs := engine.graphs.ensureRoom room
    checkpoints := engine.checkpoints.ensureRoom env.crypto room }

def createTopologyChild (parentRoomId childRoomId childPurpose createdBy promotionPolicyId : String)
    (parentCheckpoint : Value) : HostEngine × CommandResult :=
  if childRoomId = "" ∨ childPurpose = "" ∨ promotionPolicyId = "" then
    (engine, .error .invalidCommand)
  else if parentRoomId ∉ engine.rooms then (engine, .error .roomNotFound)
  else
    let lineage := Checkpoints.lineageValue parentRoomId childPurpose createdBy promotionPolicyId
      parentCheckpoint
    ({ engine with
        rooms := insert childRoomId engine.rooms
        graphs := engine.graphs.ensureRoom childRoomId
        checkpoints := engine.checkpoints.createTopologyChild childRoomId lineage },
      .ok [.childRoomCreated childRoomId lineage])

def promoteCheckpointToGraph (room : String) (nowUnixMs : Nat) (selector : Option Value) :
    HostEngine × CommandResult :=
  if room ∉ engine.rooms then (engine, .error .roomNotFound)
  else
    match engine.checkpoints.resolveCanonicalCheckpoint room selector with
    | .selectorInvalid | .notFound => (engine, .error .invalidCommand)
    | .resolved seq snapshot =>
      -- Whether the graph takes the node is not looked at.
      let promoted := promoteToGraph env.crypto room nowUnixMs (engine.graphs.graph room) seq
        snapshot
      let heads := graphFrontierHeadsHex promoted.1
      ({ engine with
          graphs := engine.graphs.setGraph room promoted.1
          checkpoints := engine.checkpoints.setSnapshotFrontier room seq heads },
        .ok [.checkpointPromoted room seq (Hash.toHex promoted.2) heads])

def onSessions (outcome : Sessions × CommandResult) : HostEngine × CommandResult :=
  ({ engine with sessions := outcome.1 }, outcome.2)

def onTexts (outcome : Texts × CommandResult) : HostEngine × CommandResult :=
  ({ engine with texts := outcome.1 }, outcome.2)

def onLists (outcome : Lists × CommandResult) : HostEngine × CommandResult :=
  ({ engine with lists := outcome.1 }, outcome.2)

def onBlobs (outcome : Blobs × CommandResult) : HostEngine × CommandResult :=
  ({ engine with blobs := outcome.1 }, outcome.2)

def onCheckpoints (outcome : Checkpoints × CommandResult) : HostEngine × CommandResult :=
  ({ engine with checkpoints := outcome.1 }, outcome.2)

def onGraphs (outcome : Graphs × CommandResult) : HostEngine × CommandResult :=
  ({ engine with graphs := outcome.1 }, outcome.2)

def onQueries (outcome : Queries × CommandResult) : HostEngine × CommandResult :=
  ({ engine with queries := outcome.1 }, outcome.2)

def answer (result : CommandResult) : HostEngine × CommandResult := (engine, result)

/-- The command in a room, at a time. -/
def run (room : String) (nowUnixMs : Nat) : HostCommand → Option (HostEngine × CommandResult)
  | .ensureRoom => some (engine.ensureRoom env room, .ok [.roomEnsured room])
  | .openSession sessionId peerPubkeyHex => some (engine.onSessions
      (engine.sessions.openSession room engine.rooms sessionId peerPubkeyHex))
  | .closeSession sessionId => some (engine.onSessions (engine.sessions.closeSession sessionId))
  | .clientHello sessionId hello => some (engine.answer
      (engine.sessions.clientHello room env nowUnixMs sessionId hello))
  | .mapSet ns key value =>
    (engine.checkpoints.mapSet env.crypto engine.rooms room ns key value).map
      engine.onCheckpoints
  | .mapDelete ns key =>
    (engine.checkpoints.mapDelete env.crypto engine.rooms room ns key).map engine.onCheckpoints
  | .mapGet ns key => some (engine.answer (engine.checkpoints.mapGet engine.rooms room ns key))
  | .mapAll ns => some (engine.answer (engine.checkpoints.mapAll engine.rooms room ns))
  | .textInsert ns key afterId ch =>
    (engine.texts.textInsert engine.rooms room ns key afterId ch).map engine.onTexts
  | .textDelete ns key targetId => some (engine.onTexts
      (engine.texts.textDelete engine.rooms room ns key targetId))
  | .textGet ns key => (engine.texts.textGet engine.rooms room ns key).map engine.answer
  | .textGetCanonical ns key => (engine.texts.textGet engine.rooms room ns key).map engine.answer
  | .listPush ns key value =>
    (engine.lists.listPush engine.rooms room ns key value).map engine.onLists
  | .listInsert ns key index value =>
    (engine.lists.listInsert engine.rooms room ns key index value).map engine.onLists
  | .listDelete ns key index =>
    (engine.lists.listDelete engine.rooms room ns key index).map engine.onLists
  | .listMove ns key fromIndex toIndex =>
    (engine.lists.listMove engine.rooms room ns key fromIndex toIndex).map engine.onLists
  | .listUpdate ns key index value => some (engine.onLists
      (engine.lists.listUpdate engine.rooms room ns key index value))
  | .listGet ns key => some (engine.answer (engine.lists.listGet engine.rooms room ns key))
  | .blobSet ns hash dataB64 => some (engine.onBlobs
      (engine.blobs.blobSet engine.rooms room ns hash dataB64))
  | .blobGet ns hash => some (engine.answer (engine.blobs.blobGet engine.rooms room ns hash))
  | .blobGetMany ns hashes => some (engine.answer
      (engine.blobs.blobGetMany engine.rooms room ns hashes))
  | .requestUpload ns hash sizeBytes contentType =>
    (Blobs.requestUpload engine.rooms room ns env hash sizeBytes contentType).map engine.answer
  | .blobRequest ns hashes => some (engine.answer
      (engine.blobs.blobRequest engine.rooms room ns env hashes))
  | .presenceSet sessionId data ttlMs clientNowMs => some (engine.onSessions
      (engine.sessions.presenceSet room sessionId data ttlMs clientNowMs))
  | .presenceGetAll => some (engine.answer (engine.sessions.presenceGetAll room))
  | .presenceSweep clientNowMs => some (engine.onSessions
      (engine.sessions.presenceSweep room clientNowMs))
  | .subscribe sessionId patterns => some (engine.onSessions
      (engine.sessions.subscribe room sessionId patterns))
  | .setRoomKey pubkeyHex => some (engine.onSessions
      (engine.sessions.setRoomKey room engine.rooms pubkeyHex))
  | .setPolicy fallback rules => some (engine.onGraphs
      (engine.graphs.setPolicy engine.rooms room fallback rules))
  | .importPack nodesB64 => some (engine.onGraphs
      (engine.graphs.importPack engine.rooms room env nowUnixMs nodesB64))
  | .requestServerPack knownIds => some (engine.answer
      (engine.graphs.requestServerPack engine.rooms room env knownIds))
  | .mstRequest paths => some (engine.answer
      (engine.graphs.mstRequest engine.rooms room env paths))
  | .mstDone ids => some (engine.answer (engine.graphs.mstDone engine.rooms room env ids))
  | .getRecentConflicts sinceUnixMs => some (engine.answer
      (engine.graphs.getRecentConflicts engine.rooms room sinceUnixMs))
  | .relayPeerSignal sessionId msgType toPeerPubkey payload => some (engine.answer
      (engine.sessions.relayPeerSignal room engine.rooms sessionId msgType toPeerPubkey payload))
  | .createTopologyChild parentRoomId childRoomId childPurpose createdBy promotionPolicyId
      parentCheckpoint => some (engine.createTopologyChild parentRoomId childRoomId childPurpose
      createdBy promotionPolicyId parentCheckpoint)
  | .describeRoomLineage roomId => some (engine.answer
      (engine.checkpoints.describeRoomLineage engine.rooms roomId))
  | .listTopologyChildren parentRoomId => some (engine.answer
      (engine.checkpoints.listTopologyChildren engine.rooms parentRoomId))
  | .proposeTopologyPromotion parentRoomId childRoomId childCheckpointHash payloadRef
      idempotencyKey => some (engine.onCheckpoints (engine.checkpoints.proposeTopologyPromotion
      env.crypto engine.rooms parentRoomId childRoomId childCheckpointHash payloadRef
      idempotencyKey))
  | .validateTopologyPromotion proposalId => some (engine.onCheckpoints
      (engine.checkpoints.validateTopologyPromotion env.crypto proposalId))
  | .applyTopologyPromotion proposalId =>
    (engine.checkpoints.applyTopologyPromotion env.crypto proposalId).map engine.onCheckpoints
  | .registerQuerySpec querySpecId version descriptor => some (engine.onQueries
      (engine.queries.registerQuerySpec engine.rooms room env.crypto querySpecId version
        descriptor))
  | .buildProjection projectionId querySpecId targetCheckpoint => some (engine.onQueries
      (engine.queries.buildProjection engine.rooms room env.crypto engine.checkpoints projectionId
        querySpecId targetCheckpoint))
  | .readProjection projectionId limit pageToken =>
    (engine.queries.readProjection engine.rooms room projectionId limit pageToken).map
      engine.answer
  | .invalidateProjection projectionId reason => some (engine.onQueries
      (engine.queries.invalidateProjection engine.rooms room projectionId reason))
  | .listProjections querySpecId stateFilter => some (engine.answer
      (engine.queries.listProjections engine.rooms room querySpecId stateFilter))
  | .describeArchive archiveRef =>
    (engine.checkpoints.describeArchive env.crypto engine.rooms room archiveRef).map engine.answer
  | .validateArchive archiveRef mode => some (engine.answer
      (Checkpoints.validateArchive engine.rooms room archiveRef mode))
  | .importArchive archiveRef _ expectedCheckpoint => some (engine.answer
      (engine.checkpoints.importArchive env.crypto engine.rooms room archiveRef
        expectedCheckpoint))
  | .promoteCheckpointToGraph selector => some
      (engine.promoteCheckpointToGraph env room nowUnixMs selector)
  | .replayReadRange keyPrefix fromLamport limit cursor =>
    (engine.graphs.replayReadRange engine.rooms room keyPrefix fromLamport limit cursor).map
      engine.answer
  | .getFrontier => some (engine.answer (engine.graphs.getFrontier engine.rooms room))
  | .getCausalParents nodeIdHex => some (engine.answer
      (engine.graphs.getCausalParents engine.rooms room nodeIdHex))
  | .getCanonicalResolution => some (engine.answer
      (engine.graphs.getCanonicalResolution engine.rooms room))
  | .computeSyncDiff peerNodeIdsHex => some (engine.answer
      (engine.graphs.computeSyncDiff engine.rooms room peerNodeIdsHex))
  | .inspectPack nodesB64 => some (engine.answer (Graphs.inspectPack env nodesB64))
  | .noop => some (engine.answer (.ok [.noopAck]))

/-- `HostEngine::apply`: the engine afterwards and what is returned; `none` is a panic. -/
def apply (call : HostCall) : Option (HostEngine × CommandResult) :=
  if call.envelope.roomId = "" then some (engine, .error .invalidCommand)
  else engine.run env call.envelope.roomId call.nowUnixMs call.envelope.command

/-- The engine after a call, whatever it returns. -/
def step (call : HostCall) : Option HostEngine := (engine.apply env call).map Prod.fst

end HostEngine

end NodalMerge.Host
