import NodalMerge.Archive.Exported
import NodalMerge.Archive.ImportAtomicity
import NodalMerge.Server.ImportOrder

namespace NodalMerge

open Function LinkedLog List StateGraph

/-- The blob can be read and written back, or is nowhere to be found. -/
def BlobBackend.Carries (crypto : Crypto) (backend : BlobBackend) (hash : Hash) : Prop :=
  match hydrateBlob crypto backend hash with
  | .ok _ => backend.writeFault hash = none
  | .error .missing => True
  | .error _ => False

section
variable {server : ArchiveServer}

theorem resolveBlobs_ok_iff :
    (∃ blobs, resolveBlobs crypto backend hashes = .ok blobs ∧
        ∀ blob ∈ blobs, backend.writes blob = true) ↔
      ∀ hash ∈ hashes, backend.Carries crypto hash := by
  induction hashes with
  | nil => exact ⟨fun _ _ absent => (not_mem_nil absent).elim, fun _ => ⟨[], rfl, nofun⟩⟩
  | cons hash rest ih =>
    rw [forall_mem_cons, ← ih, resolveBlobs, BlobBackend.Carries]
    cases hydrateBlob crypto backend hash with
    | ok bytes =>
      have writes : backend.writes (hash, bytes) = true ↔ backend.writeFault hash = none :=
        Option.isNone_iff_eq_none
      cases resolveBlobs crypto backend rest with
      | error reason =>
        constructor
        · rintro ⟨_, failed, _⟩
          cases failed
        · rintro ⟨_, _, failed, _⟩
          cases failed
      | ok others =>
        constructor
        · rintro ⟨_, ⟨⟩, all⟩
          obtain ⟨head, tail⟩ := forall_mem_cons.mp all
          exact ⟨writes.mp head, others, rfl, tail⟩
        · rintro ⟨head, _, ⟨⟩, tail⟩
          exact ⟨_, rfl, forall_mem_cons.mpr ⟨writes.mpr head, tail⟩⟩
    | error fault =>
      cases fault with
      | missing => exact (and_iff_right trivial).symm
      | unhydratable name detail =>
        exact ⟨fun failed => by simp at failed, fun failed => failed.1.elim⟩
      | backend detail =>
        exact ⟨fun failed => by simp at failed, fun failed => failed.1.elim⟩

end

/-- The maps that graphs with these nodes show. -/
def shownMaps (crypto : Crypto) (order : List SyncNode) : Set (List (String × List U8)) :=
  { map | ∃ graph, Reachable crypto (fun _ _ => True) graph ∧ graph.nodes.data = order ∧
    (map = graph.entries (fun _ => true) ∨ map = graph.entries fun key => key != e2eeKey) }

section
variable {env : ArchiveEnv} {nodes rows : List SyncNode} {nowMs : Nat}

theorem hexLower_inj {other : Hash} (same : hexLower one.val = hexLower other.val) :
    one = other := by
  have decoded := congrArg (decodeHexExact 32) same
  rw [decodeHexExact_hexLower, decodeHexExact_hexLower] at decoded
  exact Option.some.inj decoded

theorem hexLower_ne_empty (hash : Hash) : hexLower hash.val ≠ "" := by
  intro none
  have decoded := decodeHexExact_hexLower hash
  have empty : decodeHexExact 32 "" = Option.none := by decide
  rw [none, empty] at decoded
  cases decoded

theorem checkpointHashForNodes_ok_iff :
    checkpointHashForNodes env nodes = .ok checkpointHash ↔
      ∃ last, ReplayRun env.crypto [] nodes last ∧
        checkpointHash =
          hexLower (canonicalHash env.crypto (last.entries fun key => key != e2eeKey)).val := by
  rw [checkpointHashForNodes, replay, Option.elim_none]
  constructor
  · intro ran
    split at ran
    · cases ran
    · rename_i state replayed
      obtain ⟨last, run, rfl⟩ := replay_ok_iff.mp replayed
      exact ⟨last, run, (Except.ok.inj ran).symm⟩
  · rintro ⟨last, run, rfl⟩
    rw [replay_ok_iff.mpr ⟨last, run, rfl⟩]

/-- What an empty room asks of an archived node besides what a replay asks. -/
structure ImportsInto (nowMs : Nat) (node : SyncNode) : Prop where
  ceiling : node.lamport ≤ lamportSlack
  wall : checkWallSkew nowMs node = .ok ()

theorem cleared_iff_importsInto (nodup : (nodes.map SyncNode.id).Nodup)
    (ran : ReplayRun env.crypto [] nodes last) (member : node ∈ nodes) :
    Cleared env.crypto (some nowMs) empty node ↔ ImportsInto nowMs node := by
  have genuine : node.Genuine env.crypto := by
    obtain ⟨copy, inside, same, genuine⟩ := ran.replayable.signed node member
    rwa [← inj_on_of_nodup_map nodup inside member same]
  have hashed : env.crypto.txHash node.transaction = node.id :=
    (ran.replayable.lawful node member).hashed
  constructor
  · intro cleared
    obtain ⟨-, ceiling, wall⟩ := precheck_ok_iff.mp cleared.screened.prechecked
    exact ⟨ceiling.trans_eq ceiling_empty, wall nowMs rfl⟩
  · intro fits
    refine ⟨⟨precheck_ok_iff.mpr ⟨hashed, fits.ceiling.trans_eq ceiling_empty.symm, ?_⟩, ?_⟩,
      .inr fun op _ => rfl⟩
    · rintro now ⟨⟩
      exact fits.wall
    · exact checkSignature_ok_iff.mpr (Rehydrates.screened hashed ⟨fits.ceiling, genuine⟩).2

/-- The import of an archive stores all its nodes and shows what the export hashed. -/
theorem import_shows_checkpoint_iff (sound : env.crypto.BatchSound nodes)
    (linked : Linked SyncNode.id SyncNode.parents rows) (perm : nodes.Perm rows)
    (noCollision : Set.InjOn (canonicalHash env.crypto)
      (shownMaps env.crypto (settled [] nodes)))
    (ran : ReplayRun env.crypto [] nodes last) :
    (importPasses env.crypto (some nowMs) empty nodes).errors = [] ∧
        hexLower (canonicalHash env.crypto
          ((importPasses env.crypto (some nowMs) empty nodes).graph.entries fun _ => true)).val =
        hexLower (canonicalHash env.crypto (last.entries fun key => key != e2eeKey)).val ↔
      (∀ node ∈ nodes, ImportsInto nowMs node) ∧
        lwwResolve (settled [] nodes) e2eeKey = none := by
  have nodup : (nodes.map SyncNode.id).Nodup :=
    (perm.map SyncNode.id).nodup_iff.mpr linked.nodup
  rw [importPasses_empty_errors_iff sound linked perm]
  have fits : (∀ node ∈ nodes, Cleared env.crypto (some nowMs) empty node) ↔
      ∀ node ∈ nodes, ImportsInto nowMs node :=
    forall₂_congr fun node member => cleared_iff_importsInto nodup ran member
  rw [← fits]
  refine and_congr_right fun cleared => ?_
  have data : (importPasses env.crypto (some nowMs) empty nodes).graph.nodes.data =
      settled [] nodes := importPasses_data_eq sound nodup (fun _ _ => rfl) cleared
  have replayed : last.nodes.data = settled [] nodes := data_eq_settled ran
  have reached : Reachable env.crypto (fun _ _ => True)
      (importPasses env.crypto (some nowMs) empty nodes).graph :=
    importPasses_reachable (fun _ _ => trivial) _ .start
  have lastReached := ran.intake.1.reached
  generalize (importPasses env.crypto (some nowMs) empty nodes).graph = graph at *
  have shows := (same_of_data reached lastReached (data.trans replayed.symm)).2
  have hashes : hexLower (canonicalHash env.crypto (graph.entries fun _ => true)).val =
        hexLower (canonicalHash env.crypto (last.entries fun key => key != e2eeKey)).val ↔
      graph.entries (fun _ => true) = last.entries fun key => key != e2eeKey := by
    constructor
    · intro same
      exact noCollision ⟨graph, reached, data, .inl rfl⟩ ⟨last, lastReached, replayed, .inr rfl⟩
        (hexLower_inj same)
    · intro same
      rw [same]
  rw [hashes, entries_eq_iff, ← data, ← reached.resolve_eq]
  constructor
  · intro same
    have sentinel := same e2eeKey
    rwa [shown, shown, if_pos rfl, if_neg (by simp)] at sentinel
  · intro hidden key
    rw [shown, shown, if_pos rfl]
    by_cases sentinel : key = e2eeKey
    · rw [if_neg (by simp [sentinel]), sentinel, hidden]
    · rw [if_pos (by simpa using sentinel), shows]

end

/-- Clocks near those of an empty room, no value under the key of encrypted
payloads, and blobs that can be carried. -/
structure Reproducible (env : ArchiveEnv) (backend : BlobBackend) (nowMs : Nat)
    (nodes : List SyncNode) : Prop where
  clocks : ∀ node ∈ nodes, ImportsInto nowMs node
  clear : lwwResolve (settled [] nodes) e2eeKey = none
  blobs : ∀ hash ∈ blobHashesReferencedBy nodes, backend.Carries env.crypto hash

section
variable {env : ArchiveEnv} {host : ArchiveHost} {exporter importer : ArchiveRoom}
  {signer : env.signer.SigningKey} {order : HashOrder} {exported : ArchiveExported} {path : String}

theorem ArchiveExported.Written.admitted (signs : env.SignsWith signer)
    (written : exported.Written env host exporter signer order path) :
    exported.manifest.file.toExternalArchiveManifest.Admitted env := by
  obtain ⟨-, hash, -, digest, -, same⟩ := buildExternalManifestDocument_ok_iff.mp written.built
  rw [same]
  refine manifestDocument_admitted signs (policyTimelineMetadataForTimeline_rising ..) ?_ ?_
  · rw [policyTimelineMetadataForTimeline]
    rw [trim_hexLower]
    exact hexLower_ne_empty _
  · rw [written.trimmedRoom]
    exact written.named

/-- What a load keeps of an exported manifest. -/
theorem ArchiveExported.Written.metadata
    (written : exported.Written env host exporter signer order path) :
    exported.manifest.file.metadata.sourceRoom = exported.sourceRoom ∧
      exported.manifest.file.metadata.Matches
        (policyTimelineMetadataForTimeline env exporter.policyTimeline) := by
  obtain ⟨-, hash, -, digest, -, same⟩ := buildExternalManifestDocument_ok_iff.mp written.built
  rw [same]
  exact ⟨written.trimmedRoom, ExternalArchiveManifest.matches_of_eq (trim_hexLower _) rfl rfl⟩

section
variable {disk : ArchiveHost} {revision : Option ManifestCacheRevision} {importOrder : HashOrder}
  {nowMs : Nat} {expected : Option ArchiveCheckpoint}
  (signs : env.SignsWith signer) (written : exported.Written env host exporter signer order path)
  (external : disk.manifestPath exported.archiveRef = some path)
  (stored : disk.files path = some ⟨.manifest exported.manifest.file, revision⟩)
  (table : disk.table = host.table)
  (fresh : ∀ metadata, disk.cachedMetadata path revision = some metadata →
    metadata = exported.manifest.file.metadata)
  (timeline : policyTimelineMetadataForTimeline env importer.policyTimeline =
    policyTimelineMetadataForTimeline env exporter.policyTimeline)
include signs written external stored table fresh timeline

/-- Its archive loads exactly when the blobs can be resolved. -/
theorem loadImport_exported_iff {request : LoadedImport} :
    (loadImport env ⟨disk, importer⟩ (some exported.archiveRef) (some "full_apply")
        importOrder).2 = .ok request ↔
      ∃ blobs, resolveReferencedBlobs env.crypto disk.backend importOrder
          (sortById (loadRoomNodes host.table exported.sourceRoom)) = .ok blobs ∧
        request = ⟨exported.archiveRef, "full_apply", ⟨exported.manifest.file.metadata,
          sortById (loadRoomNodes host.table exported.sourceRoom), blobs,
          [frontierText (sortById (loadRoomNodes host.table exported.sourceRoom))]⟩⟩ := by
  obtain ⟨room, fits⟩ := written.metadata
  have field : parseArchiveRefField importer.roomId (some exported.archiveRef) =
      .ok exported.archiveRef := by
    refine parseArchiveRefField_ok_iff.mpr ⟨?_, written.trimmedRef.symm⟩
    rw [Option.getD_some, written.trimmedRef]
    exact ne_empty_of_manifestPath external
  have found : (loadSourceRoom env disk importer.roomId exported.archiveRef).2 =
      .ok exported.manifest.file.metadata := by
    rw [loadSourceRoom_eq external, loadExternalManifestSourceRoom_ok_iff stored]
    cases cached : disk.cachedMetadata path revision with
    | none => exact .inr ⟨rfl, written.admitted signs, rfl⟩
    | some metadata => exact .inl (congrArg some (fresh metadata cached))
  have nonempty := (buildExternalManifestDocument_ok_iff.mp written.built).1
  have matching : checkPolicyTimeline env importer exported.archiveRef
      exported.manifest.file.metadata = .ok () := by
    rw [checkPolicyTimeline_ok_iff, timeline]
    exact fits
  rw [loadImport]
  rw [field]
  dsimp only
  rw [if_neg (by decide), loadArchiveFromRef]
  rw [found, if_pos (by decide)]
  constructor
  · intro read
    obtain ⟨archive, payload, checked⟩ := bind_eq_ok.mp read
    obtain ⟨-, blobs, resolved, rfl⟩ := loadPayload_ok_iff.mp payload
    rw [if_pos rfl, room, table] at resolved
    refine ⟨blobs, resolved, ?_⟩
    rw [matching] at checked
    rw [← Except.ok.inj checked, room, table]
    rfl
  · rintro ⟨blobs, resolved, rfl⟩
    refine bind_eq_ok.mpr ⟨_, loadPayload_ok_iff.mpr ⟨?_, blobs, ?_, rfl⟩, ?_⟩
    · rw [room, table]
      exact nonempty
    · rw [if_pos rfl, room, table]
      exact resolved
    · rw [matching, room, table]
      rfl

/-- The import of an exported archive from a disk that holds it. -/
theorem import_reproduces_iff
    (sound : env.crypto.BatchSound (loadRoomNodes host.table exported.sourceRoom))
    (linked : Linked SyncNode.id SyncNode.parents
      (loadRoomNodes host.table exported.sourceRoom))
    (empty : importer.graph = .empty)
    (asked : ∀ checkpoint ∈ expected, checkpoint = exported.manifest.checkpoint)
    (noCollision : Set.InjOn (canonicalHash env.crypto) (shownMaps env.crypto
      (settled [] (sortById (loadRoomNodes host.table exported.sourceRoom))))) :
    (∃ answer, (processArchiveImport env ⟨disk, importer⟩
        ⟨some exported.archiveRef, some "full_apply", expected⟩ nowMs importOrder).2 = .ok answer ∧
        answer.canonicalHash = exported.manifest.checkpoint.canonicalHash) ↔
      Reproducible env disk.backend nowMs
        (sortById (loadRoomNodes host.table exported.sourceRoom)) := by
  have load (request : LoadedImport) := @loadImport_exported_iff _ _ _ _ _ _ _ _ _ _ importOrder
    signs written external stored table fresh timeline request
  obtain ⟨-, hash, replayed, digest, -, same⟩ :=
    buildExternalManifestDocument_ok_iff.mp written.built
  obtain ⟨last, ran, rfl⟩ := checkpointHashForNodes_ok_iff.mp replayed
  have checkpoint : exported.manifest.checkpoint.canonicalHash =
      hexLower (canonicalHash env.crypto (last.entries fun key => key != e2eeKey)).val := by
    rw [same]
    rfl
  have perm : (sortById (loadRoomNodes host.table exported.sourceRoom)).Perm _ :=
    perm_insertionSort ..
  generalize sortById (loadRoomNodes host.table exported.sourceRoom) = nodes at *
  have carried : (∃ blobs,
      resolveReferencedBlobs env.crypto disk.backend importOrder nodes = .ok blobs ∧
        ∀ blob ∈ blobs, disk.backend.writes blob = true) ↔
      ∀ hash ∈ blobHashesReferencedBy nodes, disk.backend.Carries env.crypto hash := by
    refine resolveBlobs_ok_iff.trans (forall_congr' fun hash => imp_congr_left ?_)
    rw [← mem_toFinset, (importOrder _).covers]
  have hosts := loadImport_host env ⟨disk, importer⟩ (some exported.archiveRef)
    (some "full_apply") importOrder
  rcases read : loadImport env ⟨disk, importer⟩ (some exported.archiveRef) (some "full_apply")
    importOrder with ⟨cached, refused | request⟩
  · rw [read] at load
    constructor
    · rintro ⟨answer, answered, -⟩
      rw [processArchiveImport] at answered
      rw [read] at answered
      cases answered
    · intro reproducible
      obtain ⟨blobs, resolved, -⟩ := carried.mpr reproducible.blobs
      cases (load _).mpr ⟨blobs, resolved, rfl⟩
  · rw [read] at load hosts
    rw [processArchiveImport_eq read]
    obtain ⟨blobs, resolved, rfl⟩ := (load request).mp rfl
    have writes : (∀ blob ∈ blobs, cached.backend.writes blob = true) ↔
        ∀ hash ∈ blobHashesReferencedBy nodes, disk.backend.Carries env.crypto hash := by
      rw [show cached.backend = disk.backend from hosts.2, ← carried]
      constructor
      · exact fun all => ⟨blobs, resolved, all⟩
      · rintro ⟨others, again, all⟩
        rw [Except.ok.inj (resolved.symm.trans again)]
        exact all
    have vouched := sound.mono perm.subset
    have shows := @import_shows_checkpoint_iff env nodes _ nowMs last vouched linked perm
      noCollision ran
    rw [← checkpoint, importPasses_errors_eq_nil_iff vouched, ← empty] at shows
    rw [applyImport_reports_iff vouched]
    constructor
    · rintro ⟨completes, reported⟩
      obtain ⟨clocks, clear⟩ := shows.mp ⟨completes.placed, reported⟩
      have full : "full_apply" ≠ "metadata_only" := by decide
      exact ⟨clocks, clear, writes.mp (completes.written full)⟩
    · rintro ⟨clocks, clear, carries⟩
      obtain ⟨placed, reported⟩ := shows.mpr ⟨clocks, clear⟩
      refine ⟨⟨placed, fun _ => writes.mpr carries, fun given member => ?_⟩, reported⟩
      exact (congrArg _ (asked given member)).trans reported.symm

end

end

/-- An exported archive is imported into an empty room with the hash of its
checkpoint exactly when the archived nodes are reproducible there. -/
theorem archive_reproduces_checkpoint_iff (env : ArchiveEnv) (host after : ArchiveHost)
    (exporter importer : ArchiveRoom) (message : ExportMessage)
    (signer : env.signer.SigningKey) (signs : env.SignsWith signer) (order importOrder : HashOrder)
    (write : String → Except String (Option ManifestCacheRevision)) (exported : ArchiveExported)
    (backend : BlobBackend) (nowMs : Nat) (expected : Option ArchiveCheckpoint)
    (calls : List (Nat × List SyncNode))
    (made : processArchiveExport env host exporter message signer order write =
      (after, .ok exported))
    (accepted : loadRoomNodes host.table exported.sourceRoom =
      (DurableRoom.new.importAll env.crypto calls).rows)
    (sound : env.crypto.BatchSound (loadRoomNodes host.table exported.sourceRoom))
    (fresh : ∀ path ∈ after.manifestPath exported.archiveRef,
      ∀ metadata ∈ after.cachedMetadata path (after.manifestFileRevision path),
        metadata = exported.manifest.file.metadata)
    (timeline : policyTimelineMetadataForTimeline env importer.policyTimeline =
      policyTimelineMetadataForTimeline env exporter.policyTimeline)
    (empty : importer.graph = .empty)
    (asked : ∀ checkpoint ∈ expected, checkpoint = exported.manifest.checkpoint)
    (noCollision : Set.InjOn (canonicalHash env.crypto) (shownMaps env.crypto
      (settled [] (sortById (loadRoomNodes host.table exported.sourceRoom))))) :
    (∃ answer, (processArchiveImport env ⟨{ after with backend := backend }, importer⟩
        ⟨some exported.archiveRef, some "full_apply", expected⟩ nowMs importOrder).2 = .ok answer ∧
        answer.canonicalHash = exported.manifest.checkpoint.canonicalHash) ↔
      Reproducible env backend nowMs
        (sortById (loadRoomNodes host.table exported.sourceRoom)) := by
  obtain ⟨path, revision, written, rfl⟩ := processArchiveExport_ok made
  have stored : (host.writeManifest path ⟨.manifest exported.manifest.file, revision⟩).files path =
      some ⟨.manifest exported.manifest.file, revision⟩ := update_self ..
  refine import_reproduces_iff signs written
    ((ArchiveHost.manifestPath_congr rfl _).trans written.path) stored rfl ?_ timeline sound ?_ empty
    asked noCollision
  · intro metadata cached
    refine fresh path ((host.manifestPath_writeManifest ..).trans written.path) metadata ?_
    rw [ArchiveHost.manifestFileRevision, stored]
    exact cached
  · have inStep := (@DurableRoom.InStep.new env.crypto).importAll calls
    rw [accepted, inStep.rows]
    exact inStep.reached.dag.linked

/-- A server on which the nodes of the room `r` are persisted. -/
def ArchiveHost.holding (nodes : List SyncNode) : ArchiveHost :=
  { ArchiveHost.sample with table := nodes.map fun node => ⟨"r", node⟩ }

/-- Signatures that always verify. -/
def ArchiveEnv.trusting : ArchiveEnv where
  crypto := .sample
  postcard := .sample
  packNodes _ := []
  signer := ⟨Unit, Unit, id, fun _ _ => Bytes.zero 64, fun _ _ _ => true⟩
  keyFromBytes _ := some ()
  keyToBytes _ := Bytes.zero 32

def trustedKey : ArchiveEnv.trusting.signer.SigningKey := ()

/-- The room `r` is exported to a file. -/
def exportHeld (nodes : List SyncNode) :
    ArchiveHost × Except ArchiveRejected ArchiveExported :=
  processArchiveExport .trusting (.holding nodes) .sample ⟨"r", "file://m"⟩ trustedKey someOrder
    fun _ => .ok none

/-- Nodes that leave the sentinel alone show one map. -/
theorem shownMaps_subsingleton (clear : lwwResolve order e2eeKey = none) :
    (shownMaps crypto order).Subsingleton := by
  have shows {map : List (String × List U8)} (shown : map ∈ shownMaps crypto order) :
      ∃ graph, Reachable crypto (fun _ _ => True) graph ∧ graph.nodes.data = order ∧
        map = graph.entries fun _ => true := by
    obtain ⟨graph, reached, data, rfl | rfl⟩ := shown
    · exact ⟨graph, reached, data, rfl⟩
    · refine ⟨graph, reached, data, entries_eq_iff.mpr fun key => ?_⟩
      rw [StateGraph.shown, StateGraph.shown, if_pos rfl]
      by_cases sentinel : key = e2eeKey
      · rw [if_neg (by simp [sentinel]), sentinel, reached.resolve_eq, data, clear]
      · rw [if_pos (by simpa using sentinel)]
  intro one inOne other inOther
  obtain ⟨graph, reached, data, rfl⟩ := shows inOne
  obtain ⟨otherGraph, otherReached, otherData, rfl⟩ := shows inOther
  refine entries_eq_iff.mpr fun key => ?_
  rw [StateGraph.shown, StateGraph.shown,
    (same_of_data reached otherReached (data.trans otherData.symm)).2]

/-- The exported room is imported into an empty one with the hash of its checkpoint. -/
def ImportedAlike (after : ArchiveHost) (exported : ArchiveExported) : Prop :=
  ∃ answer, (processArchiveImport .trusting ⟨after, .sample⟩
    ⟨some exported.archiveRef, some "full_apply", none⟩ 0 someOrder).2 = .ok answer ∧
      answer.canonicalHash = exported.manifest.checkpoint.canonicalHash

theorem single_write_archive_is_reproduced :
    ∃ after exported, exportHeld [sampleNode] = (after, .ok exported) ∧
      ImportedAlike { after with backend := .empty } exported := by
  have checked : ((exportHeld [sampleNode]).2.toOption.any fun exported =>
      exported.sourceRoom = "r") = true := by
    decide +kernel
  obtain ⟨exported, exports, room⟩ := any_toOption.mp checked
  have made : exportHeld [sampleNode] = ((exportHeld [sampleNode]).1, .ok exported) :=
    Prod.ext rfl exports
  have rows : loadRoomNodes (ArchiveHost.holding [sampleNode]).table exported.sourceRoom =
      [sampleNode] := by
    rw [of_decide_eq_true room]
    decide
  have accepted : (DurableRoom.new.importAll Crypto.sample [(0, [sampleNode])]).rows =
      [sampleNode] := by
    decide +kernel
  refine ⟨_, exported, made, (archive_reproduces_checkpoint_iff .trusting _ _ .sample
    .sample _ trustedKey ⟨rfl, fun _ => rfl⟩ someOrder someOrder _ exported .empty 0 none
    [(0, [sampleNode])] made (rows.trans accepted.symm) (Crypto.sample_batchSound _) ?_ rfl rfl
    (fun _ => nofun) ?_).mpr ?_⟩
  · obtain ⟨path, revision, written, same⟩ := processArchiveExport_ok made
    rw [same]
    intro asked _ metadata cached
    generalize ArchiveHost.manifestFileRevision _ asked = revision at cached
    cases revision <;> cases cached
  · rw [rows]
    exact (shownMaps_subsingleton (by decide)).injOn _
  · rw [rows]
    refine ⟨fun node member => ?_, by decide, fun hash member => ?_⟩
    · rw [mem_singleton.mp member]
      exact ⟨by decide, by decide⟩
    · rw [show blobHashesReferencedBy (sortById [sampleNode]) = ∅ from rfl] at member
      cases member

/-- A write to an encrypted room. -/
def sealedNode : SyncNode :=
  .newSigned Crypto.sample ⟨.padTo 32 [1], 1, 0, [.map (.set e2eeKey [7])], []⟩
    (Crypto.sampleKey 1)

theorem not_importedAlike (nodes : List SyncNode)
    (checked : ((exportHeld nodes).2.toOption.any fun exported =>
      !(processArchiveImport .trusting ⟨(exportHeld nodes).1, .sample⟩
        ⟨some exported.archiveRef, some "full_apply", none⟩ 0 someOrder).2.toOption.any
          fun answer => answer.canonicalHash = exported.manifest.checkpoint.canonicalHash) = true) :
    ∃ after exported, exportHeld nodes = (after, .ok exported) ∧
      ¬ ImportedAlike after exported := by
  obtain ⟨exported, exports, differs⟩ := any_toOption.mp checked
  refine ⟨_, exported, Prod.ext rfl exports, ?_⟩
  rintro ⟨answer, imported, same⟩
  simp [imported, same, Except.toOption] at differs

/-- An encrypted room is imported with another hash, and a room with a late clock
not at all. -/
theorem sealed_and_late_rooms_are_not_reproduced :
    (∃ calls after exported, (DurableRoom.new.importAll Crypto.sample calls).rows = [sealedNode] ∧
        exportHeld [sealedNode] = (after, .ok exported) ∧ ¬ ImportedAlike after exported) ∧
      ∃ calls after exported,
        (DurableRoom.new.importAll Crypto.sample calls).rows = [nearNode, farNode] ∧
          exportHeld [nearNode, farNode] = (after, .ok exported) ∧
          ¬ ImportedAlike after exported := by
  constructor
  · obtain ⟨after, exported, made, lost⟩ := not_importedAlike [sealedNode] (by decide +kernel)
    exact ⟨[(0, [sealedNode])], after, exported, by decide +kernel, made, lost⟩
  · obtain ⟨after, exported, made, lost⟩ :=
      not_importedAlike [nearNode, farNode] (by decide +kernel)
    exact ⟨[(0, [nearNode]), (0, [farNode])], after, exported, by decide +kernel, made, lost⟩

end NodalMerge
