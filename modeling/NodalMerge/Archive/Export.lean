import Mathlib.Data.List.Destutter
import NodalMerge.Archive.Manifest
import NodalMerge.Server.Rooms

namespace NodalMerge

inductive HydrateError where
  | missing
  | unhydratable (backend detail : String)
  | backend (detail : String)

/-- A blob backend. A directory verifies what it reads and leaves a blob that it
already has; a bucket does neither. The faults are those of the present attempt. -/
structure BlobBackend where
  atRest : Hash → Option (List U8)
  verifiesOnRead : Bool
  replaces : Bool
  readFault : Hash → Option HydrateError
  writeFault : Hash → Option String

section
variable (crypto : Crypto) (backend : BlobBackend)

def hydrateBlob (hash : Hash) : Except HydrateError (List U8) :=
  match backend.readFault hash with
  | some fault => .error fault
  | none =>
    match backend.atRest hash with
    | none => .error .missing
    | some bytes =>
      if backend.verifiesOnRead && crypto.blake3 bytes != hash then .error .missing else .ok bytes

def persistBlob (hash : Hash) (bytes : List U8) : Except String BlobBackend :=
  match backend.writeFault hash with
  | some fault => .error fault
  | none =>
    if (backend.atRest hash).isSome && !backend.replaces then .ok backend
    else .ok { backend with atRest := Function.update backend.atRest hash (some bytes) }

/-- The loop of `resolve_referenced_blobs`: a missing blob is passed over, any other
fault ends it. -/
def resolveBlobs : List Hash → Except String (List (Hash × List U8))
  | [] => .ok []
  | hash :: rest =>
    match hydrateBlob crypto backend hash with
    | .ok bytes => (resolveBlobs rest).map fun blobs => (hash, bytes) :: blobs
    | .error .missing => resolveBlobs rest
    | .error (.unhydratable backendName detail) =>
      .error ("DEPLOYMENT CONFIGURATION: archive export cannot hydrate referenced blob " ++
        hexLower hash.val ++ ": this server's blob backend (" ++ backendName ++
        ") can never read blob bytes into the server process, so the export's blobs digest " ++
        "would be computed over an incomplete set and would not match a Dir-backed peer's " ++
        "digest for the same room. This is a configuration fact, not data loss — the object " ++
        "is very likely intact in the bucket. Backend detail: " ++ detail)
    | .error (.backend detail) =>
      .error ("referenced blob " ++ hexLower hash.val ++
        " could not be read from the blob backend: " ++ detail ++
        ". The export was aborted rather than sign a digest over an incomplete blob set; " ++
        "this is retryable")

/-- How the hash set of referenced blobs happens to be iterated. -/
abbrev HashOrder := (hashes : Finset Hash) → Enumeration hashes

def resolveReferencedBlobs (order : HashOrder) (nodes : List SyncNode) :
    Except String (List (Hash × List U8)) :=
  resolveBlobs crypto backend (order (blobHashesReferencedBy nodes)).toList

end

section
variable (env : ArchiveEnv)

def sortById (nodes : List SyncNode) : List SyncNode :=
  nodes.insertionSort fun first second => first.id ≤ second.id

def checkpointHashForNodes (nodes : List SyncNode) : Except String String :=
  match replay env.crypto nodes none with
  | .error _ => .error "persisted nodes could not be replayed"
  | .ok replayed => .ok (hexLower (canonicalHash env.crypto replayed.map).val)

def nodesDigestForNodes (nodes : List SyncNode) : String :=
  "sha256:" ++ hexLower (env.crypto.blake3 (env.packNodes nodes)).val

/-- The digest over a map from hash texts to bytes. -/
def blobsDigest (blobs : List (Hash × List U8)) : String :=
  let map := (blobs.map fun blob => (hexLower blob.1.val, blob.2)).insertionSort
    fun first second => first.1 ≤ second.1
  "sha256:" ++ hexLower (canonicalHash env.crypto map).val

def blobsDigestForReferenced (backend : BlobBackend) (order : HashOrder) (nodes : List SyncNode) :
    Except String String :=
  (resolveReferencedBlobs env.crypto backend order nodes).map (blobsDigest env)

structure PolicyTimelineParityMetadata where
  hashHex : String
  cutoverLamport : Nat
  transitionCutovers : List Nat
  deriving DecidableEq

def policyTimelineMetadataForTimeline (timeline : List PolicyTimelineEntry) :
    PolicyTimelineParityMetadata :=
  let sortedTimeline := sortTimeline (if timeline.isEmpty then [⟨0, .default⟩] else timeline)
  let cutoverLamport := (policyTimelineCutoverLamport sortedTimeline).getD 0
  let transitionCutovers :=
    (sortedTimeline.map PolicyTimelineEntry.effectiveLamport).destutter (· ≠ ·)
  { hashHex := hexLower (policyTimelineHash env.crypto env.postcard sortedTimeline).val
    cutoverLamport
    transitionCutovers :=
      if cutoverLamport = 0 then [0]
      else if transitionCutovers.isEmpty then [0] else transitionCutovers }

structure ExportManifestDocument where
  formatVersion : String
  sourceRoom : String
  checkpoint : ArchiveCheckpoint
  payloadDigestSet : ArchivePayloadDigestSet
  compatibilityWindow : ArchiveCompatibilityWindow
  payloadDigestPolicy : String
  policyTimelineHash : String
  policyTimelineCutoverLamport : Nat
  policyTimelineTransitionCutovers : List Nat
  signature : ArchiveSignature

/-- The manifest as `write_file_manifest` leaves it on disk. -/
def ExportManifestDocument.file (document : ExportManifestDocument) : ManifestFile where
  formatVersion := document.formatVersion
  sourceRoom := document.sourceRoom
  compatibilityWindow := document.compatibilityWindow
  payloadDigestPolicy := document.payloadDigestPolicy
  policyTimelineHash := document.policyTimelineHash
  policyTimelineCutoverLamport := document.policyTimelineCutoverLamport
  policyTimelineTransitionCutovers := document.policyTimelineTransitionCutovers
  signature := some document.signature
  checkpoint := some document.checkpoint
  payloadDigestSet := some document.payloadDigestSet

/-- `seq:` with the number of nodes. -/
def frontierText (nodes : List SyncNode) : String := "seq:" ++ nodes.length.repr

/-- The manifest of a room with these nodes, signed. -/
def manifestDocument (sourceRoom : String) (signer : env.signer.SigningKey)
    (timeline : PolicyTimelineParityMetadata) (nodes : List SyncNode)
    (checkpointHash blobsDigest : String) : ExportManifestDocument :=
  let compatibilityWindow : ArchiveCompatibilityWindow :=
    ⟨exportCompatMinSupported, exportCompatMaxSupported⟩
  let payload := signaturePayload exportFormatVersion sourceRoom compatibilityWindow
    exportDigestPolicyStrictSha256V1 timeline.hashHex timeline.cutoverLamport
    timeline.transitionCutovers
  { formatVersion := exportFormatVersion
    sourceRoom
    checkpoint := ⟨[frontierText nodes], checkpointHash⟩
    payloadDigestSet := ⟨nodesDigestForNodes env nodes, blobsDigest⟩
    compatibilityWindow
    payloadDigestPolicy := exportDigestPolicyStrictSha256V1
    policyTimelineHash := timeline.hashHex
    policyTimelineCutoverLamport := timeline.cutoverLamport
    policyTimelineTransitionCutovers := timeline.transitionCutovers
    signature := ⟨hexLower (env.keyToBytes (env.signer.verifyingKey signer)).val,
      hexLower (env.signer.sign signer (utf8 payload)).val⟩ }

def buildExternalManifestDocument (table : List NodeRow) (backend : BlobBackend) (order : HashOrder)
    (sourceRoom : String) (signer : env.signer.SigningKey)
    (timeline : PolicyTimelineParityMetadata) : Except String ExportManifestDocument := do
  let loaded := loadRoomNodes table sourceRoom
  require (loaded ≠ []) "archive source room has no persisted nodes"
  let nodes := sortById loaded
  let checkpointHash ← checkpointHashForNodes env nodes
  let blobsDigest ← blobsDigestForReferenced env backend order nodes
  return manifestDocument env sourceRoom signer timeline nodes checkpointHash blobsDigest

end

theorem atRest_of_hydrateBlob {hash : Hash}
    (hydrated : hydrateBlob crypto backend hash = .ok bytes) :
    backend.atRest hash = some bytes := by
  rw [hydrateBlob] at hydrated
  split at hydrated
  · cases hydrated
  · split at hydrated
    · cases hydrated
    · rename_i found stored
      split at hydrated
      · cases hydrated
      · rw [stored, Except.ok.inj hydrated]

theorem buildExternalManifestDocument_ok_iff {signer : env.signer.SigningKey} :
    buildExternalManifestDocument env table backend order sourceRoom signer timeline =
        .ok document ↔
      loadRoomNodes table sourceRoom ≠ [] ∧ ∃ checkpointHash,
        checkpointHashForNodes env (sortById (loadRoomNodes table sourceRoom)) =
            .ok checkpointHash ∧ ∃ blobsDigest,
          blobsDigestForReferenced env backend order (sortById (loadRoomNodes table sourceRoom)) =
              .ok blobsDigest ∧
            document = manifestDocument env sourceRoom signer timeline
              (sortById (loadRoomNodes table sourceRoom)) checkpointHash blobsDigest := by
  refine require_bind_ok_iff.trans (and_congr_right fun _ => ?_)
  simp only [bind_eq_ok]
  refine exists_congr fun hash => and_congr_right fun _ => exists_congr fun digest =>
    and_congr_right fun _ => ?_
  exact ⟨fun same => (Except.ok.inj same).symm, fun same => same ▸ rfl⟩

end NodalMerge
