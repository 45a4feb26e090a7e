import NodalMerge.Archive.Export

/-! Metrics, the unread `room` field of a request and `archive.describe` are left out. -/

namespace NodalMerge

open Option

inductive ArchiveSourceRef where
  | room (sourceRoom : String)
  | fileManifest (path : String)
  | objectManifest (bucket key : String)

/-- `str::strip_prefix`. -/
def stripFront (front text : String) : Option String :=
  if front.toList.isPrefixOf text.toList then some (String.ofList (text.toList.drop front.length))
  else none

/-- A drive letter behind a leading slash loses the slash. -/
def normalizedPath (pathText : String) : String :=
  match pathText.toList with
  | '/' :: drive :: ':' :: rest =>
    if drive.toNat < 128 then String.ofList (drive :: ':' :: rest) else pathText
  | _ => pathText

/-- `splitn(2, '/')`, the second part empty where there is no slash. -/
def splitAtSlash (text : String) : String × String :=
  (String.ofList (text.toList.takeWhile (· ≠ '/')),
    String.ofList ((text.toList.dropWhile (· ≠ '/')).drop 1))

def parseArchiveRef (archiveRef : String) : Except ArchiveReasonClass ArchiveSourceRef :=
  match stripFront "room://" archiveRef with
  | some room => if trim room = "" then .error .manifestInvalid else .ok (.room (trim room))
  | none =>
    match stripFront "file://" archiveRef with
    | some pathText =>
      if trim pathText = "" then .error .manifestInvalid
      else .ok (.fileManifest (normalizedPath (trim pathText)))
    | none =>
      match stripFront "object://" archiveRef with
      | some refText =>
        let parts := splitAtSlash (trim refText)
        if trim parts.1 = "" ∨ trim parts.2 = "" then .error .manifestInvalid
        else .ok (.objectManifest (trim parts.1) (trim parts.2))
      | none => .error .unsupportedFormat

/-- `Path::join`: an absolute part takes the place of the path. -/
def joinPath (path part : String) : String :=
  if part.toList.head? = some '/' ∨ path = "" then part
  else if path.toList.getLast? = some '/' then path ++ part
  else path ++ "/" ++ part

structure ManifestCacheRevision where
  lenBytes : Nat
  modifiedUnixNanos : Nat
  deriving DecidableEq

inductive ManifestText where
  | unreadable
  | malformed
  | manifest (file : ManifestFile)

/-- A file; there is no revision where the file system has no usable time for it. -/
structure StoredManifest where
  text : ManifestText
  revision : Option ManifestCacheRevision

/-- What outlives a request besides the room: manifests and their cache, the node
table and the blobs at rest. -/
structure ArchiveHost where
  objectRoot : Option String
  files : String → Option StoredManifest
  cache : String → Option (ManifestCacheRevision × ExternalManifestMetadata)
  table : List NodeRow
  backend : BlobBackend

namespace ArchiveHost

variable (host : ArchiveHost)

def manifestFileRevision (path : String) : Option ManifestCacheRevision :=
  (host.files path).bind StoredManifest.revision

/-- `load_cached_external_manifest_metadata`. -/
def cachedMetadata (path : String) (revision : Option ManifestCacheRevision) :
    Option ExternalManifestMetadata :=
  match revision, host.cache path with
  | some revision, some (cachedAt, metadata) => if cachedAt = revision then some metadata else none
  | _, _ => none

/-- `cache_external_manifest_metadata`. -/
def cacheMetadata (path : String) (revision : Option ManifestCacheRevision)
    (metadata : ExternalManifestMetadata) : ArchiveHost :=
  match revision with
  | none => host
  | some revision =>
    { host with cache := Function.update host.cache path (some (revision, metadata)) }

def writeManifest (path : String) (stored : StoredManifest) : ArchiveHost :=
  { host with files := Function.update host.files path (some stored) }

end ArchiveHost

section
variable (env : ArchiveEnv)

def loadExternalManifestSourceRoom (host : ArchiveHost) (path room archiveRef : String) :
    ArchiveHost × Except ArchiveRejected ExternalManifestMetadata :=
  let revision := host.manifestFileRevision path
  match host.cachedMetadata path revision with
  | some metadata => (host, .ok metadata)
  | none =>
    match (host.files path).elim .unreadable StoredManifest.text with
    | .unreadable =>
      (host, .error ⟨room, archiveRef, .checkpointNotFound,
        "external archive manifest was not found"⟩)
    | .malformed =>
      (host, .error ⟨room, archiveRef, .manifestInvalid, "external archive manifest is invalid"⟩)
    | .manifest file =>
      match checkExternalManifest env room archiveRef file.toExternalArchiveManifest with
      | .error rejected => (host, .error rejected)
      | .ok metadata => (host.cacheMetadata path revision metadata, .ok metadata)

/-- The first half of `load_archive_from_ref`: the room that the reference leads to. -/
def loadSourceRoom (host : ArchiveHost) (room archiveRef : String) :
    ArchiveHost × Except ArchiveRejected ExternalManifestMetadata :=
  match parseArchiveRef archiveRef with
  | .error reasonClass =>
    (host, .error ⟨room, archiveRef, reasonClass, "unsupported archive reference format"⟩)
  | .ok (.room sourceRoom) => (host, .ok ⟨sourceRoom, none, none, none⟩)
  | .ok (.fileManifest path) => loadExternalManifestSourceRoom env host path room archiveRef
  | .ok (.objectManifest bucket key) =>
    match host.objectRoot with
    | none =>
      (host, .error ⟨room, archiveRef, .checkpointNotFound,
        "object archive root is not configured"⟩)
    | some root =>
      loadExternalManifestSourceRoom env host (joinPath (joinPath root bucket) key) room archiveRef

inductive BlobBytesNeed where
  | required
  | notNeeded
  deriving DecidableEq

structure LoadedArchive where
  metadata : ExternalManifestMetadata
  nodes : List SyncNode
  blobs : List (Hash × List U8)
  frontier : List String

/-- The second half of `load_archive_from_ref`: the nodes and blobs of the room. -/
def loadPayload (host : ArchiveHost) (room archiveRef : String) (need : BlobBytesNeed)
    (order : HashOrder) (metadata : ExternalManifestMetadata) :
    Except ArchiveRejected LoadedArchive := do
  let loaded := loadRoomNodes host.table metadata.sourceRoom
  require (loaded ≠ [])
    ⟨room, archiveRef, .checkpointNotFound, "archive source room has no persisted nodes"⟩
  let nodes := sortById loaded
  let blobs ←
    if need = .required then
      (resolveReferencedBlobs env.crypto host.backend order nodes).mapError
        (⟨room, archiveRef, .checkpointNotFound, ·⟩)
    else .ok []
  return ⟨metadata, nodes, blobs, [frontierText nodes]⟩

def loadArchiveFromRef (host : ArchiveHost) (room archiveRef : String) (need : BlobBytesNeed)
    (order : HashOrder) : ArchiveHost × Except ArchiveRejected LoadedArchive :=
  let found := loadSourceRoom env host room archiveRef
  (found.1, found.2.bind (loadPayload env host room archiveRef need order))

/-- The parts of a room that the requests read and write. -/
structure ArchiveRoom where
  roomId : String
  graph : StateGraph
  /-- The blobs in memory. -/
  blobs : Hash → Option (List U8)
  policyTimeline : List PolicyTimelineEntry

/-- The parity of a manifest with the timeline of the room; an archive without a
manifest has none. -/
def checkPolicyTimeline (room : ArchiveRoom) (archiveRef : String)
    (metadata : ExternalManifestMetadata) : Except ArchiveRejected Unit :=
  match metadata.policyTimelineHash, metadata.policyTimelineCutoverLamport with
  | some hash, some cutover => do
    let current := policyTimelineMetadataForTimeline env room.policyTimeline
    require (hash = current.hashHex ∧ cutover = current.cutoverLamport)
      ⟨room.roomId, archiveRef, .policyTimelineMismatch,
        "external archive manifest policy timeline parity metadata mismatches target room policy"⟩
    match metadata.policyTimelineTransitionCutovers with
    | none => .ok ()
    | some transitions =>
      require (transitions = current.transitionCutovers)
        ⟨room.roomId, archiveRef, .policyTimelineMismatch,
          "external archive manifest policy timeline transition metadata mismatches target " ++
            "room policy"⟩
  | _, _ => .ok ()

/-- The trimmed reference of a request. -/
def parseArchiveRefField (roomId : String) (archiveRef : Option String) :
    Except ArchiveRejected String := do
  let trimmed := trim (archiveRef.getD "")
  require (trimmed ≠ "") ⟨roomId, "", .manifestInvalid, "missing archive_ref"⟩
  return trimmed

structure ValidateMessage where
  archiveRef : Option String
  mode : Option String

structure ArchiveValidated where
  room : String
  archiveRef : String
  accepted : Bool
  mode : String
  checks : List String
  compatibilityWindow : Option ArchiveCompatibilityWindow

/-- The answer to a validation that is not refused. -/
def validatedAnswer (roomId archiveRef mode : String) : ArchiveValidated where
  room := roomId
  archiveRef := archiveRef
  accepted := true
  mode := mode
  checks :=
    if mode = "full_integrity" then
      ["manifest", "compatibility", "digest_set", "checkpoint", "policy_timeline"]
    else ["manifest", "compatibility"]
  compatibilityWindow := some ⟨"1", "1"⟩

/-- What is left of a validation once the archive is loaded. -/
def validateLoaded (room : ArchiveRoom) (archiveRef mode : String) (loaded : LoadedArchive) :
    Except ArchiveRejected ArchiveValidated := do
  checkPolicyTimeline env room archiveRef loaded.metadata
  require (mode = "full_integrity" →
      ¬ (loaded.blobs.any fun blob => env.crypto.blake3 blob.2 != blob.1) = true)
    ⟨room.roomId, archiveRef, .digestMismatch, "blob digest verification failed"⟩
  return validatedAnswer room.roomId archiveRef mode

def processArchiveValidate (host : ArchiveHost) (room : ArchiveRoom) (message : ValidateMessage)
    (order : HashOrder) : ArchiveHost × Except ArchiveRejected ArchiveValidated :=
  let mode := message.mode.getD "metadata_only"
  match parseArchiveRefField room.roomId message.archiveRef with
  | .error rejected => (host, .error rejected)
  | .ok archiveRef =>
    if mode ≠ "metadata_only" ∧ mode ≠ "full_integrity" then
      (host, .error ⟨room.roomId, archiveRef, .manifestInvalid, "unsupported validate mode"⟩)
    else
      let loaded := loadArchiveFromRef env host room.roomId archiveRef .notNeeded order
      (loaded.1, loaded.2.bind (validateLoaded env room archiveRef mode))

end

def bytesDebug (bytes : List U8) : String :=
  "[" ++ ", ".intercalate (bytes.map fun byte => byte.val.repr) ++ "]"

def SyncError.text : SyncError → String
  | .hashMismatch expected actual =>
    "hash mismatch: expected " ++ hexLower expected.val ++ ", got " ++ hexLower actual.val
  | .missingParent parent => "missing parent node: " ++ hexLower parent.val
  | .duplicateNode id => "duplicate node: " ++ hexLower id.val
  | .invalidSignature id => "invalid ed25519 signature on node " ++ hexLower id.val
  | .policyViolation author key =>
    "policy violation: author " ++ bytesDebug author.val ++ " not permitted to write key '" ++
      key ++ "'"
  | .lamportCeiling id lamport ceiling =>
    "lamport ceiling exceeded on node " ++ hexLower id.val ++ ": lamport=" ++ lamport.repr ++
      ", ceiling=" ++ ceiling.repr
  | .wallClockSkew id wallMs nowMs =>
    "wall clock skew on node " ++ hexLower id.val ++ ": wall_ms=" ++ wallMs.repr ++
      " exceeds now=" ++ nowMs.repr ++ " by more than 24h"

def ImportIssue.text : ImportIssue → String
  | .rejected error => error.text
  | .missingParent unresolved => "missing_parent: " ++ unresolved.repr ++ " node(s) unresolved"

structure ImportMessage where
  archiveRef : Option String
  importMode : Option String
  /-- Absent also when it does not parse. -/
  expectedCheckpoint : Option ArchiveCheckpoint

structure ArchiveImported where
  room : String
  archiveRef : String
  canonicalHash : String
  checkpoint : ArchiveCheckpoint
  importedNodes : Nat
  importedBlobs : Nat

/-- The room that answers and what it shares with the other rooms. -/
structure ArchiveServer where
  host : ArchiveHost
  room : ArchiveRoom

section
variable (env : ArchiveEnv)

/-- A request whose archive is loaded and fits the timeline of the room. -/
structure LoadedImport where
  archiveRef : String
  importMode : String
  loaded : LoadedArchive

/-- `process_archive_import` up to the timeline checks. -/
def loadImport (server : ArchiveServer) (archiveRef importMode : Option String)
    (order : HashOrder) : ArchiveHost × Except ArchiveRejected LoadedImport :=
  let importMode := importMode.getD "full_apply"
  match parseArchiveRefField server.room.roomId archiveRef with
  | .error rejected => (server.host, .error rejected)
  | .ok archiveRef =>
    if importMode ≠ "full_apply" ∧ importMode ≠ "metadata_only" then
      (server.host, .error ⟨server.room.roomId, archiveRef, .manifestInvalid,
        "unsupported import mode"⟩)
    else
      let loaded := loadArchiveFromRef env server.host server.room.roomId archiveRef
        (if importMode = "full_apply" then .required else .notNeeded) order
      (loaded.1, loaded.2.bind fun archive =>
        (checkPolicyTimeline env server.room archiveRef archive.metadata).map fun _ =>
          ⟨archiveRef, importMode, archive⟩)

/-- `import_nodes` on the room: the accepted nodes are persisted as well. -/
def ArchiveServer.importNodes (server : ArchiveServer) (nowMs : Nat) (nodes : List SyncNode) :
    ArchiveServer where
  host := { server.host with
    table := (NodalMerge.importedNodes env.crypto nowMs server.room.graph nodes).foldl
      (fun table node => persistRow table server.room.roomId node) server.host.table }
  room := { server.room with
    graph := (NodalMerge.importNodes env.crypto nowMs server.room.graph nodes).graph }

/-- `MemoryBlobStore::put`. -/
def ArchiveRoom.putBlob (room : ArchiveRoom) (bytes : List U8) : ArchiveRoom :=
  let hash := env.crypto.blake3 bytes
  if (room.blobs hash).isSome then room
  else { room with blobs := Function.update room.blobs hash (some bytes) }

/-- Each blob is persisted and then put into memory; a blob that cannot be
persisted ends the loop. -/
def ArchiveServer.importBlobs (server : ArchiveServer) :
    List (Hash × List U8) → ArchiveServer × Except (Hash × String) Unit
  | [] => (server, .ok ())
  | (hash, bytes) :: rest =>
    match persistBlob server.host.backend hash bytes with
    | .error fault => (server, .error (hash, fault))
    | .ok backend =>
      ArchiveServer.importBlobs
        ⟨{ server.host with backend }, server.room.putBlob env bytes⟩ rest

/-- The blobs of the archive, which `metadata_only` leaves out. -/
def ArchiveServer.storeBlobs (server : ArchiveServer) (request : LoadedImport) :
    ArchiveServer × Except (Hash × String) Unit :=
  if request.importMode = "metadata_only" then (server, .ok ())
  else server.importBlobs env request.loaded.blobs

/-- The hash of everything the room resolves to. -/
def ArchiveRoom.checkpointHash (room : ArchiveRoom) : String :=
  hexLower (canonicalHash env.crypto (room.graph.entries fun _ => true)).val

/-- `process_archive_import` from `import_nodes` on. -/
def applyImport (server : ArchiveServer) (request : LoadedImport)
    (expectedCheckpoint : Option ArchiveCheckpoint) (nowMs : Nat) :
    ArchiveServer × Except ArchiveRejected ArchiveImported :=
  let loaded := request.loaded
  let rejected := ArchiveRejected.mk server.room.roomId request.archiveRef
  let result := NodalMerge.importNodes env.crypto nowMs server.room.graph loaded.nodes
  let merged := server.importNodes env nowMs loaded.nodes
  if result.errors.isEmpty = false then
    (merged, .error (rejected .manifestInvalid ("import node verification failed: " ++
      "; ".intercalate (result.errors.map ImportIssue.text))))
  else
    let stored := merged.storeBlobs env request
    match stored.2 with
    | .error (hash, fault) =>
      (stored.1, .error (rejected .checkpointNotFound
        ("archive import could not persist blob " ++ hexLower hash.val ++ ": " ++ fault)))
    | .ok () =>
      let hash := stored.1.room.checkpointHash env
      if expectedCheckpoint.any fun expected => expected.canonicalHash ≠ hash then
        (stored.1, .error (rejected .digestMismatch
          "expected checkpoint canonical hash mismatch"))
      else
        (stored.1, .ok {
          room := server.room.roomId
          archiveRef := request.archiveRef
          canonicalHash := hash
          checkpoint := ⟨loaded.frontier, hash⟩
          importedNodes := result.accepted.length
          importedBlobs :=
            if request.importMode = "metadata_only" then 0 else loaded.blobs.length })

def processArchiveImport (server : ArchiveServer) (message : ImportMessage) (nowMs : Nat)
    (order : HashOrder) : ArchiveServer × Except ArchiveRejected ArchiveImported :=
  let request := loadImport env server message.archiveRef message.importMode order
  match request.2 with
  | .error rejected => ({ server with host := request.1 }, .error rejected)
  | .ok loaded =>
    applyImport env { server with host := request.1 } loaded message.expectedCheckpoint nowMs

structure ExportMessage where
  sourceRoom : Option String
  archiveRef : Option String

structure ArchiveExported where
  room : String
  sourceRoom : String
  archiveRef : String
  manifestId : String
  manifest : ExportManifestDocument

/-- The source room with the start of the checkpoint hash. -/
def manifestId (sourceRoom checkpointHash : String) : String :=
  "m." ++ sourceRoom ++ "." ++ String.ofList (checkpointHash.toList.take 12)

/-- The trimmed source room, which defaults to the room that answers, and reference. -/
def parseArchiveExportRequest (roomId : String) (message : ExportMessage) :
    Except ArchiveRejected (String × String) := do
  let sourceRoom := trim (message.sourceRoom.getD roomId)
  require (sourceRoom ≠ "") ⟨roomId, "", .manifestInvalid, "missing source_room"⟩
  let archiveRef ← parseArchiveRefField roomId message.archiveRef
  return (sourceRoom, archiveRef)

/-- The file that an export writes to. -/
def exportPath (host : ArchiveHost) (room archiveRef : String) : Except ArchiveRejected String :=
  match parseArchiveRef archiveRef with
  | .ok (.fileManifest path) => .ok path
  | .ok (.objectManifest bucket key) =>
    host.objectRoot.elim
      (.error ⟨room, archiveRef, .checkpointNotFound, "object archive root is not configured"⟩)
      fun root => .ok (joinPath (joinPath root bucket) key)
  | .ok (.room _) | .error _ =>
    .error ⟨room, archiveRef, .unsupportedFormat,
      "archive.export destination must be file:// or object://"⟩

/-- `write` is what the file system makes of a write: an error, or the revision of
the new file. -/
def processArchiveExport (host : ArchiveHost) (room : ArchiveRoom) (message : ExportMessage)
    (signer : env.signer.SigningKey) (order : HashOrder)
    (write : String → Except String (Option ManifestCacheRevision)) :
    ArchiveHost × Except ArchiveRejected ArchiveExported :=
  match parseArchiveExportRequest room.roomId message with
  | .error rejected => (host, .error rejected)
  | .ok (sourceRoom, archiveRef) =>
    match buildExternalManifestDocument env host.table host.backend order sourceRoom signer
        (policyTimelineMetadataForTimeline env room.policyTimeline) with
    | .error reason => (host, .error ⟨room.roomId, archiveRef, .checkpointNotFound, reason⟩)
    | .ok manifest =>
      match exportPath host room.roomId archiveRef with
      | .error rejected => (host, .error rejected)
      | .ok path =>
        match write path with
        | .error reason =>
          (host, .error ⟨room.roomId, archiveRef, .manifestInvalid,
            "failed to write archive manifest: " ++ reason⟩)
        | .ok revision =>
          (host.writeManifest path ⟨.manifest manifest.file, revision⟩,
            .ok {
              room := room.roomId
              sourceRoom
              archiveRef
              manifestId := manifestId sourceRoom manifest.checkpoint.canonicalHash
              manifest })

end

/-- The file that a reference to an external manifest leads to. -/
def ArchiveHost.manifestPath (host : ArchiveHost) (archiveRef : String) : Option String :=
  match parseArchiveRef archiveRef with
  | .ok (.fileManifest path) => some path
  | .ok (.objectManifest bucket key) =>
    host.objectRoot.map fun root => joinPath (joinPath root bucket) key
  | .ok (.room _) | .error _ => none

theorem ArchiveHost.manifestPath_congr {host other : ArchiveHost}
    (root : host.objectRoot = other.objectRoot) (archiveRef : String) :
    host.manifestPath archiveRef = other.manifestPath archiveRef := by
  rw [manifestPath, manifestPath, root]

theorem ArchiveHost.manifestPath_writeManifest (host : ArchiveHost) (path archiveRef : String)
    (stored : StoredManifest) :
    (host.writeManifest path stored).manifestPath archiveRef = host.manifestPath archiveRef :=
  manifestPath_congr rfl archiveRef

/-- The timeline of a manifest is that of the room, as far as it is given. -/
def ExternalManifestMetadata.Matches (metadata : ExternalManifestMetadata)
    (current : PolicyTimelineParityMetadata) : Prop :=
  ∀ hash ∈ metadata.policyTimelineHash, ∀ cutover ∈ metadata.policyTimelineCutoverLamport,
    (hash = current.hashHex ∧ cutover = current.cutoverLamport) ∧
      ∀ transitions ∈ metadata.policyTimelineTransitionCutovers,
        transitions = current.transitionCutovers

theorem ExternalArchiveManifest.matches_of_eq {manifest : ExternalArchiveManifest}
    (hash : trim manifest.policyTimelineHash = current.hashHex)
    (cutover : manifest.policyTimelineCutoverLamport = current.cutoverLamport)
    (transitions : manifest.policyTimelineTransitionCutovers = current.transitionCutovers) :
    manifest.metadata.Matches current := by
  rintro _ ⟨⟩ _ ⟨⟩
  refine ⟨⟨hash, cutover⟩, ?_⟩
  rintro _ ⟨⟩
  exact transitions

section
variable {host : ArchiveHost}

theorem loadSourceRoom_eq (external : host.manifestPath archiveRef = some path) :
    loadSourceRoom env host roomId archiveRef =
      loadExternalManifestSourceRoom env host path roomId archiveRef := by
  rw [ArchiveHost.manifestPath] at external
  rw [loadSourceRoom]
  split at external
  · rename_i found parsed
    cases external
    rw [parsed]
  · rename_i bucket key parsed
    obtain ⟨root, configured, rfl⟩ := map_eq_some_iff.mp external
    rw [parsed]
    rw [configured]
  · cases external
  · cases external

theorem exportPath_ok_iff :
    exportPath host roomId archiveRef = .ok path ↔ host.manifestPath archiveRef = some path := by
  rw [exportPath, ArchiveHost.manifestPath]
  split
  · exact ⟨fun found => congrArg some (Except.ok.inj found), fun found =>
      congrArg Except.ok (Option.some.inj found)⟩
  · cases host.objectRoot with
    | none => exact ⟨nofun, nofun⟩
    | some root =>
      exact ⟨fun found => congrArg some (Except.ok.inj found), fun found =>
        congrArg Except.ok (Option.some.inj found)⟩
  · exact ⟨nofun, nofun⟩
  · exact ⟨nofun, nofun⟩

theorem parseArchiveRefField_ok_iff :
    parseArchiveRefField roomId given = .ok archiveRef ↔
      trim (given.getD "") ≠ "" ∧ archiveRef = trim (given.getD "") := by
  simp only [parseArchiveRefField, require_bind_ok_iff]
  exact and_congr_right fun _ => ⟨fun same => (Except.ok.inj same).symm, fun same => same ▸ rfl⟩

theorem ne_empty_of_manifestPath (external : host.manifestPath archiveRef = some path) :
    archiveRef ≠ "" := by
  rintro rfl
  cases external

/-- The metadata that a load gives for the manifest at a path. -/
theorem loadExternalManifestSourceRoom_ok_iff
    (stored : host.files path = some ⟨.manifest file, revision⟩) :
    (loadExternalManifestSourceRoom env host path roomId archiveRef).2 = .ok metadata ↔
      host.cachedMetadata path revision = some metadata ∨
        host.cachedMetadata path revision = none ∧
          file.Admitted env ∧ metadata = file.metadata := by
  have known : host.manifestFileRevision path = revision := by
    rw [ArchiveHost.manifestFileRevision, stored]
    rfl
  rw [loadExternalManifestSourceRoom, known]
  split
  · rename_i cached hit
    rw [hit]
    simp
  · rename_i missed
    rw [missed, stored]
    simp only [elim_some, reduceCtorEq, true_and, false_or]
    rw [← @checkExternalManifest_ok_iff env roomId archiveRef]
    split <;> simp_all

theorem loadPayload_ok_iff :
    loadPayload env host roomId archiveRef need order metadata = .ok loaded ↔
      loadRoomNodes host.table metadata.sourceRoom ≠ [] ∧ ∃ blobs,
        (if need = .required then resolveReferencedBlobs env.crypto host.backend order
          (sortById (loadRoomNodes host.table metadata.sourceRoom)) = .ok blobs else blobs = []) ∧
        loaded = ⟨metadata, sortById (loadRoomNodes host.table metadata.sourceRoom), blobs,
          [frontierText (sortById (loadRoomNodes host.table metadata.sourceRoom))]⟩ := by
  simp only [loadPayload, require_bind_ok_iff]
  refine and_congr_right fun _ => ?_
  by_cases wanted : need = .required
  · simp only [if_pos wanted]
    cases resolveReferencedBlobs env.crypto host.backend order
        (sortById (loadRoomNodes host.table metadata.sourceRoom)) with
    | error reason =>
      constructor
      · intro ran
        cases ran
      · rintro ⟨_, resolved, _⟩
        cases resolved
    | ok blobs =>
      constructor
      · exact fun ran => ⟨blobs, rfl, (Except.ok.inj ran).symm⟩
      · rintro ⟨_, ⟨⟩, rfl⟩
        rfl
  · simp only [if_neg wanted]
    constructor
    · exact fun ran => ⟨[], rfl, (Except.ok.inj ran).symm⟩
    · rintro ⟨_, rfl, rfl⟩
      rfl

theorem checkPolicyTimeline_ok_iff :
    checkPolicyTimeline env room archiveRef metadata = .ok () ↔
      metadata.Matches (policyTimelineMetadataForTimeline env room.policyTimeline) := by
  obtain ⟨sourceRoom, hash, cutover, transitions⟩ := metadata
  simp only [checkPolicyTimeline, ExternalManifestMetadata.Matches]
  cases hash with
  | none => simp
  | some hash =>
    cases cutover with
    | none => simp
    | some cutover =>
      simp only [require_bind_ok_iff, mem_some_iff, forall_eq']
      refine and_congr_right fun _ => ?_
      cases transitions with
      | none => simp
      | some transitions =>
        simp only [require, mem_some_iff, forall_eq']
        split <;> simp_all

theorem validateLoaded_ok_iff :
    validateLoaded env room archiveRef mode loaded = .ok answer ↔
      loaded.metadata.Matches (policyTimelineMetadataForTimeline env room.policyTimeline) ∧
        (mode = "full_integrity" →
          ¬ (loaded.blobs.any fun blob => env.crypto.blake3 blob.2 != blob.1) = true) ∧
        answer = validatedAnswer room.roomId archiveRef mode := by
  rw [← @checkPolicyTimeline_ok_iff env room archiveRef, validateLoaded]
  cases checkPolicyTimeline env room archiveRef loaded.metadata with
  | error rejected => exact ⟨nofun, nofun⟩
  | ok _ =>
    refine require_bind_ok_iff.trans (Iff.trans ?_ (and_iff_right rfl).symm)
    refine and_congr_right fun _ => ?_
    exact ⟨fun same => (Except.ok.inj same).symm, fun same => same ▸ rfl⟩

end

end NodalMerge
