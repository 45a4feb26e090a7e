import NodalMerge.Archive.Adapter

namespace NodalMerge

open StateGraph

/-- The manifest carries the checkpoint hash and the digests that an export of its
source room would compute now. -/
def ManifestFile.CarriesDigests (env : ArchiveEnv) (host : ArchiveHost) (order : HashOrder)
    (signer : env.signer.SigningKey) (timeline : PolicyTimelineParityMetadata)
    (file : ManifestFile) : Prop :=
  ∃ document, buildExternalManifestDocument env host.table host.backend order
      (trim file.sourceRoom) signer timeline = .ok document ∧
    file.checkpoint.map ArchiveCheckpoint.canonicalHash = some document.checkpoint.canonicalHash ∧
    file.payloadDigestSet = some document.payloadDigestSet

/-- The checks that a validation makes once the request names a manifest: a cached
manifest or an admitted one, whose source room has nodes and whose timeline is
that of the room. -/
def ArchiveHost.PassesChecks (env : ArchiveEnv) (host : ArchiveHost) (room : ArchiveRoom)
    (path : String) (revision : Option ManifestCacheRevision)
    (manifest : ExternalArchiveManifest) : Prop :=
  ∃ metadata, (host.cachedMetadata path revision = some metadata ∨
      host.cachedMetadata path revision = none ∧ manifest.Admitted env ∧
        metadata = manifest.metadata) ∧
    loadRoomNodes host.table metadata.sourceRoom ≠ [] ∧
    metadata.Matches (policyTimelineMetadataForTimeline env room.policyTimeline)

section
variable {host : ArchiveHost}

/-- A validation accepts a manifest exactly when it passes the checks. -/
theorem processArchiveValidate_ok_iff (external : host.manifestPath (trim archiveRef) = some path)
    (stored : host.files path = some ⟨.manifest file, revision⟩) :
    (processArchiveValidate env host room ⟨some archiveRef, some "full_integrity"⟩ order).2 =
        .ok answer ↔
      host.PassesChecks env room path revision file.toExternalArchiveManifest ∧
        answer = validatedAnswer room.roomId (trim archiveRef) "full_integrity" := by
  have reference : parseArchiveRefField room.roomId (some archiveRef) = .ok (trim archiveRef) :=
    parseArchiveRefField_ok_iff.mpr ⟨ne_empty_of_manifestPath external, rfl⟩
  have supported : ¬ ("full_integrity" ≠ "metadata_only" ∧ "full_integrity" ≠ "full_integrity") :=
    fun unknown => unknown.2 rfl
  have answers :
      (processArchiveValidate env host room ⟨some archiveRef, some "full_integrity"⟩ order).2 =
        ((loadExternalManifestSourceRoom env host path room.roomId (trim archiveRef)).2.bind
          (loadPayload env host room.roomId (trim archiveRef) .notNeeded order)).bind
            (validateLoaded env room (trim archiveRef) "full_integrity") := by
    simp only [processArchiveValidate, reference, Option.getD_some, if_neg supported,
      loadArchiveFromRef, loadSourceRoom_eq external]
  rw [answers]
  constructor
  · intro accepted
    obtain ⟨loaded, read, accepted⟩ := bind_eq_ok.mp accepted
    obtain ⟨metadata, found, read⟩ := bind_eq_ok.mp read
    obtain ⟨nonempty, blobs, -, rfl⟩ := loadPayload_ok_iff.mp read
    obtain ⟨fits, -, answered⟩ := validateLoaded_ok_iff.mp accepted
    exact ⟨⟨metadata, (loadExternalManifestSourceRoom_ok_iff stored).mp found, nonempty, fits⟩,
      answered⟩
  · rintro ⟨⟨metadata, found, nonempty, fits⟩, answered⟩
    have read : loadPayload env host room.roomId (trim archiveRef) .notNeeded order metadata =
        .ok ⟨metadata, sortById (loadRoomNodes host.table metadata.sourceRoom), [],
          [frontierText (sortById (loadRoomNodes host.table metadata.sourceRoom))]⟩ :=
      loadPayload_ok_iff.mpr ⟨nonempty, [], rfl, rfl⟩
    rw [(loadExternalManifestSourceRoom_ok_iff stored).mpr found]
    simp only [Except.bind, read]
    exact validateLoaded_ok_iff.mpr ⟨fits, fun _ => by simp, answered⟩

theorem processArchiveValidate_placed_ok_iff
    (external : host.manifestPath (trim archiveRef) = some path) :
    (processArchiveValidate env (host.writeManifest path ⟨.manifest file, revision⟩) room
        ⟨some archiveRef, some "full_integrity"⟩ order).2 = .ok answer ↔
      host.PassesChecks env room path revision file.toExternalArchiveManifest ∧
        answer = validatedAnswer room.roomId (trim archiveRef) "full_integrity" := by
  have stored : (host.writeManifest path ⟨.manifest file, revision⟩).files path =
      some ⟨.manifest file, revision⟩ := Function.update_self ..
  exact processArchiveValidate_ok_iff ((host.manifestPath_writeManifest ..).trans external) stored

end

/-- The digests that a manifest carries are right whenever `full_integrity` accepts
it, for whatever digests it carries, exactly when one of the checks that do not
look at them fails. -/
theorem full_integrity_meaningful_iff (env : ArchiveEnv) (host : ArchiveHost) (room : ArchiveRoom)
    (archiveRef path : String) (manifest : ExternalArchiveManifest)
    (revision : Option ManifestCacheRevision) (order exportOrder : HashOrder)
    (signer : env.signer.SigningKey) (timeline : PolicyTimelineParityMetadata)
    (external : host.manifestPath (trim archiveRef) = some path) :
    (∀ checkpoint digests,
        let file : ManifestFile := ⟨manifest, some checkpoint, some digests⟩
        let placed := host.writeManifest path ⟨.manifest file, revision⟩
        (∃ answer, (processArchiveValidate env placed room ⟨some archiveRef, some "full_integrity"⟩
          order).2 = .ok answer) → file.CarriesDigests env placed exportOrder signer timeline) ↔
      ¬ host.PassesChecks env room path revision manifest := by
  have accepts : ∀ checkpoint digests, (∃ answer, (processArchiveValidate env
      (host.writeManifest path ⟨.manifest ⟨manifest, some checkpoint, some digests⟩, revision⟩) room
      ⟨some archiveRef, some "full_integrity"⟩ order).2 = .ok answer) ↔
        host.PassesChecks env room path revision manifest := by
    intro checkpoint digests
    simp only [processArchiveValidate_placed_ok_iff external, exists_and_left, exists_eq, and_true]
  simp only [accepts]
  constructor
  · intro meaningful passes
    -- a checkpoint hash that no export computes: longer than the one it does compute
    cases built : buildExternalManifestDocument env host.table host.backend exportOrder
        (trim manifest.sourceRoom) signer timeline with
    | error reason =>
      obtain ⟨document, computed, -⟩ := meaningful ⟨[], ""⟩ ⟨"", ""⟩ passes
      cases built.symm.trans computed
    | ok document =>
      obtain ⟨other, computed, same, -⟩ :=
        meaningful ⟨[], document.checkpoint.canonicalHash ++ "0"⟩ ⟨"", ""⟩ passes
      obtain rfl := Except.ok.inj (built.symm.trans computed)
      exact absurd (String.append_eq_left_iff.mp (Option.some.inj same)) (by decide)
  · intro fails checkpoint digests passes
    exact absurd passes fails

def BlobBackend.empty : BlobBackend where
  atRest _ := none
  verifiesOnRead := true
  replaces := false
  readFault _ := none
  writeFault _ := none

/-- Some order of the hashes. -/
def someOrder : HashOrder := fun hashes =>
  ⟨inOrder hashes, inOrder_nodup hashes, inOrder_toFinset hashes⟩

/-- A server on which one node of the room `r` is persisted. -/
def ArchiveHost.sample : ArchiveHost where
  objectRoot := none
  files _ := none
  cache _ := none
  table := [⟨"r", sampleNode⟩]
  backend := .empty

/-- A room without nodes. -/
def ArchiveRoom.sample : ArchiveRoom where
  roomId := "t"
  graph := .empty
  blobs _ := none
  policyTimeline := []

/-- A manifest of the room `r` for the timeline of an untouched room. -/
def ExternalArchiveManifest.sample (formatVersion : String) : ExternalArchiveManifest where
  formatVersion := formatVersion
  sourceRoom := "r"
  compatibilityWindow := ⟨"1", "2"⟩
  payloadDigestPolicy := exportDigestPolicyStrictSha256V1
  policyTimelineHash := (policyTimelineMetadataForTimeline (.sample "") []).hashHex
  policyTimelineCutoverLamport := 0
  policyTimelineTransitionCutovers := [0]
  signature := some .sample

def ArchiveEnv.signsSample : ArchiveEnv :=
  .sample (externalManifestSignaturePayload (.sample "1"))

theorem sample_admitted : (ExternalArchiveManifest.sample "1").Admitted .signsSample where
  format := by decide
  window := ⟨(1, 2), by decide, by decide, by decide⟩
  timelineHash := by
    rw [ExternalArchiveManifest.sample, policyTimelineMetadataForTimeline]
    decide
  digestPolicy := by decide
  signed := verify_sample rfl rfl
  sourceRoom := by decide
  cutovers := by simp [ExternalArchiveManifest.sample]
  increasing := by simp [ExternalArchiveManifest.sample]
  last := rfl

theorem sample_manifestPath : ArchiveHost.sample.manifestPath (trim "file://m") = some "m" := by
  decide

theorem sample_passes :
    ArchiveHost.sample.PassesChecks .signsSample .sample "m" none (.sample "1") :=
  ⟨_, .inr ⟨rfl, sample_admitted, rfl⟩, by decide,
    ExternalArchiveManifest.matches_of_eq (trim_hexLower _) rfl rfl⟩

/-- A manifest of another format is refused, whatever its digests. One with the digests that an
export computes is accepted. -/
theorem other_format_refused_honest_accepted :
    (¬ ArchiveHost.sample.PassesChecks .signsSample .sample "m" none (.sample "2") ∧
      ∀ checkpoint digests,
        let file : ManifestFile := ⟨.sample "2", some checkpoint, some digests⟩
        let placed := ArchiveHost.sample.writeManifest "m" ⟨.manifest file, none⟩
        (∃ answer, (processArchiveValidate .signsSample placed .sample
          ⟨some "file://m", some "full_integrity"⟩ someOrder).2 = .ok answer) →
          file.CarriesDigests .signsSample placed someOrder () ⟨"", 0, []⟩) ∧
      ∃ checkpoint digests,
        let file : ManifestFile := ⟨.sample "1", some checkpoint, some digests⟩
        let placed := ArchiveHost.sample.writeManifest "m" ⟨.manifest file, none⟩
        (∃ answer, (processArchiveValidate .signsSample placed .sample
          ⟨some "file://m", some "full_integrity"⟩ someOrder).2 = .ok answer) ∧
          file.CarriesDigests .signsSample placed someOrder () ⟨"", 0, []⟩ := by
  have fails : ¬ ArchiveHost.sample.PassesChecks .signsSample .sample "m" none (.sample "2") := by
    rintro ⟨metadata, found, -⟩
    rcases found with cached | ⟨-, passes, -⟩
    · cases cached
    · exact absurd passes.format (by decide)
  have exports : ∃ document, buildExternalManifestDocument .signsSample ArchiveHost.sample.table
      ArchiveHost.sample.backend someOrder (trim "r") () ⟨"", 0, []⟩ = .ok document := by
    have checked : ((buildExternalManifestDocument .signsSample ArchiveHost.sample.table
        ArchiveHost.sample.backend someOrder (trim "r") () ⟨"", 0, []⟩).toOption.any
          fun _ => true) = true := by
      decide +kernel
    exact (any_toOption.mp checked).imp fun _ => And.left
  obtain ⟨document, built⟩ := exports
  refine ⟨⟨fails, (full_integrity_meaningful_iff .signsSample .sample .sample "file://m" "m"
    (.sample "2") none someOrder someOrder () ⟨"", 0, []⟩ sample_manifestPath).mpr fails⟩,
    document.checkpoint, document.payloadDigestSet, ?_, document, ?_, rfl, rfl⟩
  · exact ⟨_, (processArchiveValidate_placed_ok_iff sample_manifestPath).mpr ⟨sample_passes, rfl⟩⟩
  · exact built

/-- A signed manifest whose checkpoint and digests are made up is accepted in full. -/
theorem made_up_digests_pass_full_integrity :
    let file : ManifestFile := ⟨.sample "1", some ⟨["seq:1"], "none"⟩, some ⟨"none", "none"⟩⟩
    let placed := ArchiveHost.sample.writeManifest "m" ⟨.manifest file, none⟩
    (∃ answer, (processArchiveValidate .signsSample placed .sample
      ⟨some "file://m", some "full_integrity"⟩ someOrder).2 = .ok answer ∧
        "digest_set" ∈ answer.checks ∧ "checkpoint" ∈ answer.checks) ∧
      ¬ file.CarriesDigests .signsSample placed someOrder () ⟨"", 0, []⟩ := by
  refine ⟨⟨_, (processArchiveValidate_placed_ok_iff sample_manifestPath).mpr
    ⟨sample_passes, rfl⟩, ?_, ?_⟩, ?_⟩
  · simp [validatedAnswer]
  · simp [validatedAnswer]
  · rintro ⟨document, built, -, same⟩
    obtain ⟨-, hash, -, digest, -, rfl⟩ := buildExternalManifestDocument_ok_iff.mp built
    have front := congrArg (fun digests => digests.nodes.toList.head?) (Option.some.inj same)
    simp [manifestDocument, nodesDigestForNodes] at front

end NodalMerge
