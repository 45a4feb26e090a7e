import NodalMerge.Archive.Adapter
import NodalMerge.Archive.ManifestBinding

namespace NodalMerge

open List

theorem trim_trim (text : String) : trim (trim text) = trim text := by
  generalize kept : (text.toList.dropWhile isWhitespace).rdropWhile isWhitespace = chars
  have back : chars.rdropWhile isWhitespace = chars := by
    rw [← kept]
    exact rdropWhile_idempotent ..
  have front : chars.dropWhile isWhitespace = chars := by
    have split : chars <+: text.toList.dropWhile isWhitespace := by
      rw [← kept]
      exact rdropWhile_prefix ..
    cases chars with
    | nil => rfl
    | cons first rest =>
      obtain ⟨dropped, split⟩ := split
      have inside : isWhitespace first = false := by
        have nonempty : text.toList.dropWhile isWhitespace ≠ [] := by simp [← split]
        simpa [← split] using head_dropWhile_not isWhitespace nonempty
      rw [dropWhile_cons_of_neg (by simp [inside])]
  rw [trim, trim, kept, String.toList_ofList, front, back]

section
variable {values : List Nat}

theorem getLast?_destutter (values : List Nat) :
    (values.destutter (· ≠ ·)).getLast? = values.getLast? := by
  cases values with
  | nil => rfl
  | cons first rest =>
    rw [destutter_cons']
    induction rest generalizing first with
    | nil => rfl
    | cons second rest ih =>
      rw [destutter'_cons]
      split
      · rw [List.getLast?_cons, ih, List.getLast?_cons, List.getLast?_cons, List.getLast?_cons]
      · rename_i same
        obtain rfl := not_not.mp same
        rw [ih]
        rfl

theorem isChain_lt_of_ne (distinct : values.IsChain (· ≠ ·)) (sorted : values.Pairwise (· ≤ ·)) :
    values.IsChain (· < ·) := by
  induction values with
  | nil => exact .nil
  | cons first rest ih =>
    cases rest with
    | nil => exact .singleton _
    | cons second rest =>
      rw [isChain_cons_cons] at distinct ⊢
      rw [pairwise_cons] at sorted
      exact ⟨lt_of_le_of_ne (sorted.1 second mem_cons_self) distinct.1,
        ih distinct.2 sorted.2⟩

theorem max?_of_sorted (sorted : values.Pairwise (· ≤ ·)) : values.max? = values.getLast? := by
  by_cases empty : values = []
  · subst empty
    rfl
  · rw [List.getLast?_eq_some_getLast empty, List.max?_eq_some_iff]
    exact ⟨getLast_mem empty, fun value member => sorted.rel_getLast member⟩

end

/-- The cutovers of a timeline rise strictly and end at the last one. -/
structure PolicyTimelineParityMetadata.Rising (timeline : PolicyTimelineParityMetadata) : Prop where
  nonempty : timeline.transitionCutovers ≠ []
  increasing : timeline.transitionCutovers.IsChain (· < ·)
  last : timeline.transitionCutovers.getLast? = some timeline.cutoverLamport

theorem policyTimelineMetadataForTimeline_rising (env : ArchiveEnv)
    (timeline : List PolicyTimelineEntry) :
    (policyTimelineMetadataForTimeline env timeline).Rising := by
  rw [policyTimelineMetadataForTimeline]
  have filled : (if timeline.isEmpty then [⟨0, .default⟩] else timeline) ≠ [] := by
    split
    · simp
    · rename_i some
      simpa using some
  generalize (if timeline.isEmpty then [⟨0, .default⟩] else timeline) = entries at filled
  generalize shown : (sortTimeline entries).map PolicyTimelineEntry.effectiveLamport = values
  have nonempty : values ≠ [] := by
    rw [← shown]
    intro empty
    rw [map_eq_nil_iff, sortTimeline] at empty
    have size := length_insertionSort
      (fun first second : PolicyTimelineEntry => first.effectiveLamport ≤ second.effectiveLamport)
      entries
    rw [empty] at size
    exact filled (eq_nil_of_length_eq_zero size.symm)
  have sorted : values.Pairwise (· ≤ ·) := by
    rw [← shown, pairwise_map]
    exact pairwise_insertionSort ..
  have cutover : (policyTimelineCutoverLamport (sortTimeline entries)).getD 0 =
      values.getLast nonempty := by
    rw [policyTimelineCutoverLamport, shown, max?_of_sorted sorted,
      List.getLast?_eq_some_getLast nonempty]
    rfl
  rw [cutover]
  by_cases zero : values.getLast nonempty = 0
  · constructor <;> simp [zero]
  · have kept : values.destutter (· ≠ ·) ≠ [] := by
      rw [ne_eq, destutter_eq_nil]
      exact nonempty
    constructor
    · simp [zero, kept]
    · simp only [zero, if_false, List.isEmpty_iff, kept]
      exact isChain_lt_of_ne (isChain_destutter ..)
        (sorted.sublist (destutter_sublist ..))
    · simp only [zero, if_false, List.isEmpty_iff, kept]
      rw [getLast?_destutter, List.getLast?_eq_some_getLast nonempty]

/-- The key travels as bytes, and what it signs verifies. -/
structure ArchiveEnv.SignsWith (env : ArchiveEnv) (key : env.signer.SigningKey) : Prop where
  opens : env.keyFromBytes (env.keyToBytes (env.signer.verifyingKey key)) =
    some (env.signer.verifyingKey key)
  verifies : ∀ message,
    env.signer.verify (env.signer.verifyingKey key) message (env.signer.sign key message) = true

section
theorem manifestDocument_verifies (signs : env.SignsWith signer) (rising : timeline.Rising) :
    verifyExternalManifestSignature env (manifestDocument env sourceRoom signer timeline nodes
      checkpointHash digest).file.toExternalArchiveManifest = .ok () := by
  refine verifyExternalManifestSignature_ok_iff.mpr ⟨_, _, _, _, rfl, decodeHexExact_hexLower _,
    decodeHexExact_hexLower _, signs.opens, ?_⟩
  have listed : joinCutovers timeline.transitionCutovers ≠ "" :=
    fun none => rising.nonempty (joinCutovers_eq_empty_iff.mp none)
  have text : externalManifestSignaturePayload (manifestDocument env sourceRoom signer timeline
      nodes checkpointHash digest).file.toExternalArchiveManifest =
        signaturePayload exportFormatVersion sourceRoom
          ⟨exportCompatMinSupported, exportCompatMaxSupported⟩ exportDigestPolicyStrictSha256V1
          timeline.hashHex timeline.cutoverLamport timeline.transitionCutovers := by
    exact if_neg listed
  rw [text]
  exact signs.verifies _

theorem manifestDocument_admitted (signs : env.SignsWith signer) (rising : timeline.Rising)
    (hashed : trim timeline.hashHex ≠ "") (named : trim sourceRoom ≠ "") :
    (manifestDocument env sourceRoom signer timeline nodes checkpointHash
      digest).file.toExternalArchiveManifest.Admitted env where
  format := show trim exportFormatVersion = exportFormatVersion by decide
  window := by
    have range : parseCompatibilityWindowRange (trim exportCompatMinSupported)
        (trim exportCompatMaxSupported) = some (1, 2) := by decide
    exact ⟨(1, 2), range, by decide, by decide⟩
  timelineHash := hashed
  digestPolicy :=
    show trim exportDigestPolicyStrictSha256V1 = exportDigestPolicyStrictSha256V1 by decide
  signed := manifestDocument_verifies signs rising
  sourceRoom := named
  cutovers := rising.nonempty
  increasing := rising.increasing
  last := rising.last

end

/-- What a successful export has done. -/
structure ArchiveExported.Written (env : ArchiveEnv) (host : ArchiveHost) (room : ArchiveRoom)
    (signer : env.signer.SigningKey) (order : HashOrder) (exported : ArchiveExported)
    (path : String) : Prop where
  trimmedRef : trim exported.archiveRef = exported.archiveRef
  trimmedRoom : trim exported.sourceRoom = exported.sourceRoom
  named : exported.sourceRoom ≠ ""
  path : host.manifestPath exported.archiveRef = some path
  built : buildExternalManifestDocument env host.table host.backend order exported.sourceRoom signer
    (policyTimelineMetadataForTimeline env room.policyTimeline) = .ok exported.manifest

theorem processArchiveExport_ok {after : ArchiveHost} {signer : env.signer.SigningKey}
    (made : processArchiveExport env host room message signer order write = (after, .ok exported)) :
    ∃ path revision, exported.Written env host room signer order path ∧
      after = host.writeManifest path ⟨.manifest exported.manifest.file, revision⟩ := by
  rw [processArchiveExport] at made
  split at made
  · cases made
  · rename_i sourceRoom archiveRef parsed
    split at made
    · cases made
    · rename_i manifest built
      split at made
      · cases made
      · rename_i path found
        split at made
        · cases made
        · rename_i revision written
          obtain ⟨rfl, same⟩ := Prod.mk.inj made
          cases same
          rw [parseArchiveExportRequest, require_bind_ok_iff] at parsed
          obtain ⟨named, parsed⟩ := parsed
          obtain ⟨reference, field, parsed⟩ := bind_eq_ok.mp parsed
          obtain ⟨rfl, rfl⟩ := Prod.mk.inj (Except.ok.inj parsed)
          obtain ⟨-, rfl⟩ := parseArchiveRefField_ok_iff.mp field
          refine ⟨path, revision, ⟨trim_trim _, trim_trim _, named, ?_, built⟩, rfl⟩
          exact exportPath_ok_iff.mp found

end NodalMerge
