import NodalMerge.Archive.Manifest

namespace NodalMerge

open List

section
variable {Item : Type}

theorem takeWhile_append_of_stop {front : List Item} (kept : ∀ item ∈ front, keep item = true)
    (stops : ∀ item ∈ back.head?, keep item = false) : (front ++ back).takeWhile keep = front := by
  rw [takeWhile_append_of_pos kept]
  cases back with
  | nil => simp
  | cons head rest => rw [takeWhile_cons_of_neg (by simp [stops head rfl]), append_nil]

end

theorem toList_repr (number : Nat) : number.repr.toList = Nat.toDigits 10 number := by
  rw [Nat.repr_eq_ofList_toDigits, String.toList_ofList]

/-- A decimal number is read back from a text it starts. -/
theorem repr_append_inj {number number' : Nat} {rest rest' : String}
    (stops : ∀ char ∈ rest.toList.head?, char.isDigit = false)
    (stops' : ∀ char ∈ rest'.toList.head?, char.isDigit = false)
    (same : number.repr ++ rest = number'.repr ++ rest') : number = number' ∧ rest = rest' := by
  have digit : ∀ number : Nat, ∀ char ∈ Nat.toDigits 10 number, char.isDigit = true :=
    fun _ _ => Nat.isDigit_of_mem_toDigits (by decide) (by decide)
  have chars := congrArg String.toList same
  rw [String.toList_append, String.toList_append, toList_repr, toList_repr] at chars
  have digits : Nat.toDigits 10 number = Nat.toDigits 10 number' := by
    rw [← takeWhile_append_of_stop (digit number) stops, chars,
      takeWhile_append_of_stop (digit number') stops']
  rw [digits] at chars
  refine ⟨?_, String.toList_inj.mp (append_cancel_left chars)⟩
  rw [← @Nat.ofDigitChars_ten_toDigits number, digits, Nat.ofDigitChars_ten_toDigits]

theorem joinCutovers_cons (cutover : Nat) (rest : List Nat) :
    joinCutovers (cutover :: rest) =
      cutover.repr ++ if rest = [] then "" else "," ++ joinCutovers rest := by
  cases rest with
  | nil => simp [joinCutovers]
  | cons second rest =>
    rw [if_neg (cons_ne_nil _ _), joinCutovers, map_cons, map_cons,
      String.intercalate_cons_cons, String.append_assoc]
    rfl

theorem joinCutovers_eq_empty_iff : joinCutovers cutovers = "" ↔ cutovers = [] := by
  cases cutovers with
  | nil => simp [joinCutovers]
  | cons cutover rest =>
    rw [joinCutovers_cons, String.append_eq_empty_iff]
    simp

theorem joinCutovers_injective : Function.Injective joinCutovers := by
  intro cutovers
  induction cutovers with
  | nil =>
    intro others same
    exact (joinCutovers_eq_empty_iff.mp same.symm).symm
  | cons cutover rest ih =>
    intro others same
    cases others with
    | nil => exact joinCutovers_eq_empty_iff.mp same
    | cons other others =>
      rw [joinCutovers_cons, joinCutovers_cons] at same
      have stops : ∀ rest : List Nat, ∀ char ∈
          (if rest = [] then "" else "," ++ joinCutovers rest).toList.head?,
          char.isDigit = false := by
        intro rest
        split <;> simp
      obtain ⟨rfl, tails⟩ := repr_append_inj (stops rest) (stops others) same
      by_cases ended : rest = [] <;> by_cases otherEnded : others = []
      · rw [ended, otherEnded]
      · simp [ended, otherEnded] at tails
      · simp [ended, otherEnded] at tails
      · rw [if_neg ended, if_neg otherEnded] at tails
        rw [ih ((String.append_right_inj _).mp tails)]

/-- The signed text from the cutover on. -/
def ExternalArchiveManifest.signedCutovers (manifest : ExternalArchiveManifest) : String :=
  manifest.policyTimelineCutoverLamport.repr ++
    if manifest.policyTimelineTransitionCutovers = [] then ""
    else "|policy_timeline_transition_cutovers=" ++
      joinCutovers manifest.policyTimelineTransitionCutovers

theorem externalManifestSignaturePayload_eq (manifest : ExternalArchiveManifest) :
    externalManifestSignaturePayload manifest =
      "format_version=" ++ (manifest.formatVersion ++ ("|source_room=" ++ (manifest.sourceRoom ++
        ("|min_supported=" ++ (manifest.compatibilityWindow.minSupported ++
          ("|max_supported=" ++ (manifest.compatibilityWindow.maxSupported ++
            ("|payload_digest_policy=" ++ (manifest.payloadDigestPolicy ++
              ("|policy_timeline_hash=" ++ (manifest.policyTimelineHash ++
                ("|policy_timeline_cutover_lamport=" ++ manifest.signedCutovers)))))))))))) := by
  have joined : externalManifestSignaturePayload manifest =
      payloadFields manifest.formatVersion manifest.sourceRoom manifest.compatibilityWindow
          manifest.payloadDigestPolicy manifest.policyTimelineHash
          manifest.policyTimelineCutoverLamport ++
        if manifest.policyTimelineTransitionCutovers = [] then ""
        else "|policy_timeline_transition_cutovers=" ++
          joinCutovers manifest.policyTimelineTransitionCutovers := by
    by_cases empty : manifest.policyTimelineTransitionCutovers = []
    · exact (if_pos (joinCutovers_eq_empty_iff.mpr empty)).trans
        ((congrArg _ (if_pos empty)).trans String.append_empty).symm
    · exact ((if_neg (joinCutovers_eq_empty_iff.not.mpr empty)).trans String.append_assoc).trans
        (congrArg _ (if_neg empty)).symm
  rw [joined]
  unfold payloadFields ExternalArchiveManifest.signedCutovers
  simp only [String.append_assoc]

/-- A field of known length is read back behind its label. -/
theorem labelled_inj {rest' : String} (size : field.length = field'.length)
    (same : label ++ (field ++ rest) = label ++ (field' ++ rest')) :
    field = field' ∧ rest = rest' := by
  have chars := congrArg String.toList ((String.append_right_inj label).mp same)
  rw [String.toList_append, String.toList_append] at chars
  obtain ⟨fields, rests⟩ := append_inj chars (by
    rw [String.length_toList, String.length_toList, size])
  exact ⟨String.toList_inj.mp fields, String.toList_inj.mp rests⟩

theorem signedCutovers_inj {one other : ExternalArchiveManifest}
    (same : one.signedCutovers = other.signedCutovers) :
    one.policyTimelineCutoverLamport = other.policyTimelineCutoverLamport ∧
      one.policyTimelineTransitionCutovers = other.policyTimelineTransitionCutovers := by
  have stops : ∀ cutovers : List Nat, ∀ char ∈ (if cutovers = [] then ""
      else "|policy_timeline_transition_cutovers=" ++ joinCutovers cutovers).toList.head?,
      char.isDigit = false := by
    intro cutovers
    split <;> simp
  obtain ⟨cutover, transitions⟩ := repr_append_inj (stops _) (stops _) same
  refine ⟨cutover, ?_⟩
  generalize one.policyTimelineTransitionCutovers = cutovers at transitions
  generalize other.policyTimelineTransitionCutovers = others at transitions
  by_cases empty : cutovers = [] <;> by_cases otherEmpty : others = []
  · rw [empty, otherEmpty]
  · simp [empty, otherEmpty] at transitions
  · simp [empty, otherEmpty] at transitions
  · rw [if_neg empty, if_neg otherEmpty] at transitions
    exact joinCutovers_injective ((String.append_right_inj _).mp transitions)

/-- Each key's signature verifies for one message at most. -/
def MessageSigner.Unambiguous (signer : MessageSigner) : Prop :=
  ∀ key signature message other, signer.verify key message signature = true →
    signer.verify key other signature = true → message = other

namespace ManifestFile

/-- The two manifests say the same. -/
structure Agrees (one other : ManifestFile) : Prop where
  formatVersion : one.formatVersion = other.formatVersion
  sourceRoom : one.sourceRoom = other.sourceRoom
  checkpoint : one.checkpoint = other.checkpoint
  payloadDigestSet : one.payloadDigestSet = other.payloadDigestSet
  compatibilityWindow : one.compatibilityWindow = other.compatibilityWindow
  payloadDigestPolicy : one.payloadDigestPolicy = other.payloadDigestPolicy
  policyTimelineHash : one.policyTimelineHash = other.policyTimelineHash
  cutoverLamport : one.policyTimelineCutoverLamport = other.policyTimelineCutoverLamport
  transitionCutovers :
    one.policyTimelineTransitionCutovers = other.policyTimelineTransitionCutovers

/-- The fields that the signed text leaves out are the same, and every free text
in it has the same length. -/
structure SameShape (one other : ManifestFile) : Prop where
  checkpoint : one.checkpoint = other.checkpoint
  payloadDigestSet : one.payloadDigestSet = other.payloadDigestSet
  formatVersion : one.formatVersion.length = other.formatVersion.length
  sourceRoom : one.sourceRoom.length = other.sourceRoom.length
  minSupported : one.compatibilityWindow.minSupported.length =
    other.compatibilityWindow.minSupported.length
  maxSupported : one.compatibilityWindow.maxSupported.length =
    other.compatibilityWindow.maxSupported.length
  payloadDigestPolicy : one.payloadDigestPolicy.length = other.payloadDigestPolicy.length
  policyTimelineHash : one.policyTimelineHash.length = other.policyTimelineHash.length

variable {one other : ManifestFile}

theorem Agrees.sameShape (agrees : one.Agrees other) : one.SameShape other where
  checkpoint := agrees.checkpoint
  payloadDigestSet := agrees.payloadDigestSet
  formatVersion := by rw [agrees.formatVersion]
  sourceRoom := by rw [agrees.sourceRoom]
  minSupported := by rw [agrees.compatibilityWindow]
  maxSupported := by rw [agrees.compatibilityWindow]
  payloadDigestPolicy := by rw [agrees.payloadDigestPolicy]
  policyTimelineHash := by rw [agrees.policyTimelineHash]

/-- With the lengths known, the signed text determines every field in it. -/
theorem SameShape.agrees (shape : one.SameShape other)
    (same : externalManifestSignaturePayload one.toExternalArchiveManifest =
      externalManifestSignaturePayload other.toExternalArchiveManifest) : one.Agrees other := by
  rw [externalManifestSignaturePayload_eq, externalManifestSignaturePayload_eq] at same
  obtain ⟨formatVersion, same⟩ := labelled_inj shape.formatVersion same
  obtain ⟨sourceRoom, same⟩ := labelled_inj shape.sourceRoom same
  obtain ⟨minSupported, same⟩ := labelled_inj shape.minSupported same
  obtain ⟨maxSupported, same⟩ := labelled_inj shape.maxSupported same
  obtain ⟨payloadDigestPolicy, same⟩ := labelled_inj shape.payloadDigestPolicy same
  obtain ⟨policyTimelineHash, same⟩ := labelled_inj shape.policyTimelineHash same
  obtain ⟨cutover, transitions⟩ := signedCutovers_inj ((String.append_right_inj _).mp same)
  refine ⟨formatVersion, sourceRoom, shape.checkpoint, shape.payloadDigestSet, ?_,
    payloadDigestPolicy, policyTimelineHash, cutover, transitions⟩
  generalize one.compatibilityWindow = window at minSupported maxSupported
  generalize other.compatibilityWindow = otherWindow at minSupported maxSupported
  cases window
  cases otherWindow
  rw [ArchiveCompatibilityWindow.mk.injEq]
  exact ⟨minSupported, maxSupported⟩

/-- A signature binds two manifests to each other exactly when they share what the
signed text leaves out and the length of every free text in it. -/
theorem signature_binds_iff (env : ArchiveEnv) (unambiguous : env.signer.Unambiguous)
    (one other : ManifestFile) (sameSignature : one.signature = other.signature)
    (verified : verifyExternalManifestSignature env one.toExternalArchiveManifest = .ok ())
    (otherVerified : verifyExternalManifestSignature env other.toExternalArchiveManifest = .ok ()) :
    one.Agrees other ↔ one.SameShape other := by
  refine ⟨Agrees.sameShape, fun shape => shape.agrees ?_⟩
  obtain ⟨sig, publicKey, signature, key, attached, decodedKey, decodedSignature, opened, passes⟩ :=
    verifyExternalManifestSignature_ok_iff.mp verified
  obtain ⟨otherSig, otherPublicKey, otherSignature, otherKey, otherAttached, otherDecodedKey,
    otherDecodedSignature, otherOpened, otherPasses⟩ :=
    verifyExternalManifestSignature_ok_iff.mp otherVerified
  obtain rfl : sig = otherSig :=
    Option.some.inj (attached.symm.trans (sameSignature.trans otherAttached))
  obtain rfl := Option.some.inj (decodedKey.symm.trans otherDecodedKey)
  obtain rfl := Option.some.inj (decodedSignature.symm.trans otherDecodedSignature)
  obtain rfl := Option.some.inj (opened.symm.trans otherOpened)
  exact utf8_injective (unambiguous key signature _ _ passes otherPasses)

/-- A manifest for the room of that name. -/
def sample (sourceRoom : String) : ManifestFile where
  formatVersion := "1"
  sourceRoom := sourceRoom
  compatibilityWindow := ⟨"1", "2"⟩
  payloadDigestPolicy := exportDigestPolicyStrictSha256V1
  policyTimelineHash := "t"
  policyTimelineCutoverLamport := 0
  policyTimelineTransitionCutovers := [0]
  signature := some .sample
  checkpoint := some ⟨["seq:1"], "c"⟩
  payloadDigestSet := some ⟨"sha256:n", "sha256:b"⟩

/-- The same manifest with another checkpoint. -/
def otherCheckpoint : ManifestFile :=
  { sample "r|min_supported=1" with checkpoint := some ⟨["seq:1"], "d"⟩ }

/-- Another room and another window around the same separator. -/
def otherBorder : ManifestFile :=
  { sample "r" with compatibilityWindow := ⟨"1|min_supported=1", "2"⟩ }

def sampleText : String :=
  externalManifestSignaturePayload (sample "r|min_supported=1").toExternalArchiveManifest

theorem sample_unambiguous (signed : String) : (ArchiveEnv.sample signed).signer.Unambiguous := by
  intro key signature message other verifies otherVerifies
  exact (of_decide_eq_true verifies).trans (of_decide_eq_true otherVerifies).symm

theorem sample_binds_itself :
    (sample "r|min_supported=1").Agrees (sample "r|min_supported=1") :=
  (signature_binds_iff (.sample sampleText) (sample_unambiguous _) _ _ rfl (verify_sample rfl rfl)
    (verify_sample rfl rfl)).mpr ⟨rfl, rfl, rfl, rfl, rfl, rfl, rfl, rfl⟩

/-- The signature of a manifest verifies for one with another checkpoint, and for
one with another room. -/
theorem signature_leaves_checkpoint_and_room_open :
    verifyExternalManifestSignature (.sample sampleText)
        (sample "r|min_supported=1").toExternalArchiveManifest = .ok () ∧
      (otherCheckpoint.signature = (sample "r|min_supported=1").signature ∧
        verifyExternalManifestSignature (.sample sampleText)
          otherCheckpoint.toExternalArchiveManifest = .ok () ∧
        otherCheckpoint.checkpoint ≠ (sample "r|min_supported=1").checkpoint) ∧
      (otherBorder.signature = (sample "r|min_supported=1").signature ∧
        verifyExternalManifestSignature (.sample sampleText)
          otherBorder.toExternalArchiveManifest = .ok () ∧
        otherBorder.sourceRoom ≠ (sample "r|min_supported=1").sourceRoom) := by
  refine ⟨verify_sample rfl rfl, ⟨rfl, verify_sample rfl rfl, ?_⟩,
    ⟨rfl, verify_sample rfl rfl, ?_⟩⟩
  · simp [otherCheckpoint, sample]
  · simp [otherBorder, sample]

end ManifestFile

end NodalMerge
