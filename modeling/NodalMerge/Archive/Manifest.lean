import Mathlib.Data.List.DropRight
import NodalMerge.Crdt.Compaction
import NodalMerge.Server.Session

/-! JSON is left out: a manifest is given by the fields that are read from it. -/

namespace NodalMerge

open List String

/-- `char::is_whitespace`. -/
def isWhitespace (char : Char) : Bool :=
  let code := char.toNat
  (9 ≤ code && code ≤ 13) || code == 0x20 || code == 0x85 || code == 0xA0 || code == 0x1680 ||
    (0x2000 ≤ code && code ≤ 0x200A) || code == 0x2028 || code == 0x2029 || code == 0x202F ||
    code == 0x205F || code == 0x3000

/-- `str::trim`. -/
def trim (text : String) : String :=
  String.ofList ((text.toList.dropWhile isWhitespace).rdropWhile isWhitespace)

/-- `hex_lower` and `Hash::to_hex`. -/
def hexLower (bytes : List U8) : String :=
  String.ofList (bytes.flatMap fun byte => [(byte.val / 16).digitChar, (byte.val % 16).digitChar])

def decodeHexExact (size : Nat) (input : String) : Option (Bytes size) := parseHex size (trim input)

/-- `str::parse::<u32>`: a sign may stand before the digits. -/
def parseU32 (text : String) : Option Nat :=
  let digits :=
    match text.toList with
    | '+' :: rest => rest
    | chars => chars
  if digits.isEmpty || !digits.all Char.isDigit then none
  else if Nat.ofDigitChars 10 digits 0 < 2 ^ 32 then some (Nat.ofDigitChars 10 digits 0)
  else none

def parseFormatVersion (version : String) : Option Nat := parseU32 (trim version)

inductive ArchiveReasonClass where
  | unsupportedFormat
  | manifestInvalid
  | digestMismatch
  | signatureInvalid
  | checkpointNotFound
  | policyTimelineMismatch
  deriving DecidableEq

structure ArchiveRejected where
  room : String
  archiveRef : String
  reasonClass : ArchiveReasonClass
  reasonMessage : String
  deriving DecidableEq

structure ArchiveCheckpoint where
  frontier : List String
  canonicalHash : String
  deriving DecidableEq

structure ArchivePayloadDigestSet where
  nodes : String
  blobs : String
  deriving DecidableEq

structure ArchiveCompatibilityWindow where
  minSupported : String
  maxSupported : String
  deriving DecidableEq

structure ArchiveSignature where
  publicKey : String
  signature : String
  deriving DecidableEq

/-- The fields that the adapter reads. -/
structure ExternalArchiveManifest where
  formatVersion : String
  sourceRoom : String
  compatibilityWindow : ArchiveCompatibilityWindow
  payloadDigestPolicy : String
  policyTimelineHash : String
  policyTimelineCutoverLamport : Nat
  policyTimelineTransitionCutovers : List Nat
  signature : Option ArchiveSignature
  deriving DecidableEq

/-- A manifest as it lies on disk. The exporter writes a checkpoint and a digest
set besides; the adapter passes over them, as over any field it does not know. -/
structure ManifestFile extends ExternalArchiveManifest where
  checkpoint : Option ArchiveCheckpoint
  payloadDigestSet : Option ArchivePayloadDigestSet
  deriving DecidableEq

/-- What a load keeps of a manifest. -/
structure ExternalManifestMetadata where
  sourceRoom : String
  policyTimelineHash : Option String
  policyTimelineCutoverLamport : Option Nat
  policyTimelineTransitionCutovers : Option (List Nat)
  deriving DecidableEq

def ExternalArchiveManifest.metadata (manifest : ExternalArchiveManifest) :
    ExternalManifestMetadata where
  sourceRoom := trim manifest.sourceRoom
  policyTimelineHash := some (trim manifest.policyTimelineHash)
  policyTimelineCutoverLamport := some manifest.policyTimelineCutoverLamport
  policyTimelineTransitionCutovers := some manifest.policyTimelineTransitionCutovers

def exportFormatVersion : String := "1"

def exportCompatMinSupported : String := "1"

def exportCompatMaxSupported : String := "2"

def exportDigestPolicyStrictSha256V1 : String := "strict_sha256_v1"

/-- What the archives take from outside: hashing, the encoding of node packs and
of policies, and signatures over byte strings with keys that travel as bytes. -/
structure ArchiveEnv where
  crypto : Crypto
  postcard : Postcard
  packNodes : List SyncNode → List U8
  signer : MessageSigner
  keyFromBytes : PublicKey → Option signer.VerifyingKey
  keyToBytes : signer.VerifyingKey → PublicKey

/-- The signed fields before the transition cutovers. -/
def payloadFields (formatVersion sourceRoom : String) (window : ArchiveCompatibilityWindow)
    (payloadDigestPolicy policyTimelineHash : String) (cutoverLamport : Nat) : String :=
  "format_version=" ++ formatVersion ++ "|source_room=" ++ sourceRoom ++
    "|min_supported=" ++ window.minSupported ++ "|max_supported=" ++ window.maxSupported ++
    "|payload_digest_policy=" ++ payloadDigestPolicy ++
    "|policy_timeline_hash=" ++ policyTimelineHash ++
    "|policy_timeline_cutover_lamport=" ++ cutoverLamport.repr

def joinCutovers (cutovers : List Nat) : String := ",".intercalate (cutovers.map Nat.repr)

/-- What the exporter signs. -/
def signaturePayload (formatVersion sourceRoom : String) (window : ArchiveCompatibilityWindow)
    (payloadDigestPolicy policyTimelineHash : String) (cutoverLamport : Nat)
    (transitionCutovers : List Nat) : String :=
  payloadFields formatVersion sourceRoom window payloadDigestPolicy policyTimelineHash
      cutoverLamport ++
    "|policy_timeline_transition_cutovers=" ++ joinCutovers transitionCutovers

/-- What the adapter verifies. -/
def externalManifestSignaturePayload (manifest : ExternalArchiveManifest) : String :=
  let fields := payloadFields manifest.formatVersion manifest.sourceRoom
    manifest.compatibilityWindow manifest.payloadDigestPolicy manifest.policyTimelineHash
    manifest.policyTimelineCutoverLamport
  let transitionCutovers := joinCutovers manifest.policyTimelineTransitionCutovers
  if transitionCutovers = "" then fields
  else fields ++ "|policy_timeline_transition_cutovers=" ++ transitionCutovers

section
variable (env : ArchiveEnv)

/-- A decoded key or signature has the length that was asked for, so the two
length errors of the source do not arise. -/
def verifyExternalManifestSignature (manifest : ExternalArchiveManifest) : Except String Unit :=
  match manifest.signature with
  | none => .error "external archive manifest signature is required"
  | some sig =>
    match decodeHexExact 32 sig.publicKey with
    | none => .error "external manifest public key hex is invalid"
    | some publicKey =>
      match decodeHexExact 64 sig.signature with
      | none => .error "external manifest signature hex is invalid"
      | some signature =>
        match env.keyFromBytes publicKey with
        | none => .error "external manifest public key decode failed"
        | some key =>
          if env.signer.verify key (utf8 (externalManifestSignaturePayload manifest)) signature
          then .ok ()
          else .error "external manifest signature verification failed"

def parseCompatibilityWindowRange (minSupported maxSupported : String) : Option (Nat × Nat) :=
  match parseFormatVersion minSupported, parseFormatVersion maxSupported with
  | some min, some max => if max < min then none else some (min, max)
  | _, _ => none

def rangesOverlap (one other : Nat × Nat) : Bool := one.1 ≤ other.2 && other.1 ≤ one.2

/-- The window of the runtime, which its constants spell out. -/
def runtimeWindow : Nat × Nat :=
  (parseCompatibilityWindowRange exportCompatMinSupported exportCompatMaxSupported).getD (0, 0)

def runtimeVersion : Nat := (parseFormatVersion exportFormatVersion).getD 0

/-- Go on if the condition holds, and fail otherwise. -/
def require {Error : Type} (condition : Prop) [Decidable condition] (error : Error) :
    Except Error Unit :=
  if condition then .ok () else .error error

/-- The checks of `load_external_manifest_source_room` on a manifest it has read. -/
def checkExternalManifest (room archiveRef : String) (manifest : ExternalArchiveManifest) :
    Except ArchiveRejected ExternalManifestMetadata := do
  let rejected := ArchiveRejected.mk room archiveRef
  require (trim manifest.formatVersion = exportFormatVersion)
    (rejected .unsupportedFormat "external archive manifest format_version is unsupported")
  let window ← (parseCompatibilityWindowRange (trim manifest.compatibilityWindow.minSupported)
      (trim manifest.compatibilityWindow.maxSupported)).elim
    (.error (rejected .manifestInvalid "external archive manifest compatibility_window is invalid"))
    .ok
  require (rangesOverlap window runtimeWindow = true ∧
      window.1 ≤ runtimeVersion ∧ runtimeVersion ≤ window.2)
    (rejected .unsupportedFormat
      "external archive manifest compatibility_window is unsupported by runtime")
  require (trim manifest.policyTimelineHash ≠ "")
    (rejected .manifestInvalid "external archive manifest policy_timeline_hash is required")
  require (trim manifest.payloadDigestPolicy = exportDigestPolicyStrictSha256V1)
    (rejected .policyTimelineMismatch
      "external archive manifest payload_digest_policy is unsupported")
  (verifyExternalManifestSignature env manifest).mapError (rejected .signatureInvalid)
  require (trim manifest.sourceRoom ≠ "")
    (rejected .manifestInvalid "external archive manifest source_room is required")
  require (manifest.policyTimelineTransitionCutovers ≠ [])
    (rejected .manifestInvalid
      "external archive manifest policy_timeline_transition_cutovers is required")
  require (manifest.policyTimelineTransitionCutovers.IsChain (· < ·))
    (rejected .manifestInvalid
      ("external archive manifest policy_timeline_transition_cutovers must be " ++
        "strictly increasing"))
  require (manifest.policyTimelineTransitionCutovers.getLast? =
      some manifest.policyTimelineCutoverLamport)
    (rejected .manifestInvalid
      ("external archive manifest policy_timeline_transition_cutovers must end at " ++
        "policy_timeline_cutover_lamport"))
  return manifest.metadata

end

section
variable {Error Value : Type} [Decidable condition]

theorem require_bind_ok_iff {next : Unit → Except Error Value} :
    (require condition error >>= next) = .ok result ↔ condition ∧ next () = .ok result := by
  rw [require]
  split
  · rename_i holds
    exact ⟨fun ran => ⟨holds, ran⟩, And.right⟩
  · rename_i fails
    exact ⟨nofun, fun ran => absurd ran.1 fails⟩

theorem elim_bind_ok_iff {Item : Type} {item : Option Item} {next : Item → Except Error Value} :
    (item.elim (.error error) .ok >>= next) = .ok result ↔
      ∃ value, item = some value ∧ next value = .ok result := by
  cases item with
  | none => exact ⟨nofun, nofun⟩
  | some value =>
    constructor
    · exact fun ran => ⟨value, rfl, ran⟩
    · rintro ⟨_, ⟨⟩, ran⟩
      exact ran

theorem mapError_bind_ok_iff {Other : Type} {checked : Except Other Unit} {adapt : Other → Error}
    {next : Unit → Except Error Value} :
    (checked.mapError adapt >>= next) = .ok result ↔ checked = .ok () ∧ next () = .ok result := by
  cases checked with
  | error other => exact ⟨nofun, nofun⟩
  | ok _ => exact ⟨fun ran => ⟨rfl, ran⟩, And.right⟩

end

/-- What the adapter asks of a manifest. -/
structure ExternalArchiveManifest.Admitted (env : ArchiveEnv) (manifest : ExternalArchiveManifest) :
    Prop where
  format : trim manifest.formatVersion = exportFormatVersion
  window : ∃ range, parseCompatibilityWindowRange (trim manifest.compatibilityWindow.minSupported)
    (trim manifest.compatibilityWindow.maxSupported) = some range ∧
      range.1 ≤ runtimeVersion ∧ runtimeVersion ≤ range.2
  timelineHash : trim manifest.policyTimelineHash ≠ ""
  digestPolicy : trim manifest.payloadDigestPolicy = exportDigestPolicyStrictSha256V1
  signed : verifyExternalManifestSignature env manifest = .ok ()
  sourceRoom : trim manifest.sourceRoom ≠ ""
  cutovers : manifest.policyTimelineTransitionCutovers ≠ []
  increasing : manifest.policyTimelineTransitionCutovers.IsChain (· < ·)
  last : manifest.policyTimelineTransitionCutovers.getLast? =
    some manifest.policyTimelineCutoverLamport

/-- A window with the version of the runtime overlaps the window of the runtime. -/
theorem rangesOverlap_of_mem {range : Nat × Nat} (low : range.1 ≤ runtimeVersion)
    (high : runtimeVersion ≤ range.2) : rangesOverlap range runtimeWindow = true := by
  rw [show runtimeVersion = 1 by decide] at low high
  simp only [rangesOverlap, show runtimeWindow = (1, 2) by decide, Bool.and_eq_true,
    decide_eq_true_eq]
  omega

theorem checkExternalManifest_ok_iff {env : ArchiveEnv} {room archiveRef : String}
    {manifest : ExternalArchiveManifest} {metadata : ExternalManifestMetadata} :
    checkExternalManifest env room archiveRef manifest = .ok metadata ↔
      manifest.Admitted env ∧ metadata = manifest.metadata := by
  simp only [checkExternalManifest, require_bind_ok_iff, elim_bind_ok_iff, mapError_bind_ok_iff]
  constructor
  · rintro ⟨format, range, window, supported, timelineHash, digestPolicy, signed, sourceRoom,
      cutovers, increasing, last, rest⟩
    refine ⟨⟨format, ⟨range, window, supported.2⟩, timelineHash, digestPolicy, signed, sourceRoom,
      cutovers, increasing, last⟩, ?_⟩
    exact (Except.ok.inj rest).symm
  · rintro ⟨passes, rfl⟩
    obtain ⟨range, window, low, high⟩ := passes.window
    exact ⟨passes.format, range, window, ⟨rangesOverlap_of_mem low high, low, high⟩,
      passes.timelineHash, passes.digestPolicy, passes.signed, passes.sourceRoom, passes.cutovers,
      passes.increasing, passes.last, rfl⟩

theorem verifyExternalManifestSignature_ok_iff :
    verifyExternalManifestSignature env manifest = .ok () ↔
      ∃ sig publicKey signature key, manifest.signature = some sig ∧
        decodeHexExact 32 sig.publicKey = some publicKey ∧
        decodeHexExact 64 sig.signature = some signature ∧
        env.keyFromBytes publicKey = some key ∧
        env.signer.verify key (utf8 (externalManifestSignaturePayload manifest)) signature =
          true := by
  rw [verifyExternalManifestSignature]
  constructor
  · intro verified
    split at verified
    · cases verified
    · rename_i sig attached
      split at verified
      · cases verified
      · rename_i publicKey decodedKey
        split at verified
        · cases verified
        · rename_i signature decodedSignature
          split at verified
          · cases verified
          · rename_i key opened
            split at verified
            · rename_i passes
              exact ⟨sig, publicKey, signature, key, attached, decodedKey, decodedSignature, opened,
                passes⟩
            · cases verified
  · rintro ⟨sig, publicKey, signature, key, attached, decodedKey, decodedSignature, opened, passes⟩
    simp only [attached, decodedKey, decodedSignature, opened, passes, if_true]

theorem trim_eq_self (clean : ∀ char ∈ text.toList, isWhitespace char = false) :
    trim text = text := by
  have front : text.toList.dropWhile isWhitespace = text.toList := by
    rw [dropWhile_eq_self_iff]
    intro nonempty
    simp [clean _ (getElem_mem nonempty)]
  have back : text.toList.rdropWhile isWhitespace = text.toList := by
    rw [rdropWhile_eq_self_iff]
    intro nonempty
    simp [clean _ (getLast_mem nonempty)]
  rw [trim, front, back, ofList_toList]

/-- A digit is one byte, reads back as its value and is no white space. -/
theorem digitChar_spec : ∀ nibble : Fin 16, ∃ byte,
    String.utf8EncodeChar nibble.val.digitChar = [byte] ∧ hexNibble byte = some nibble.val ∧
      isWhitespace nibble.val.digitChar = false := by
  intro nibble
  fin_cases nibble <;> exact ⟨_, rfl, rfl, rfl⟩

theorem hexPairs_hexLower (bytes : List U8) :
    (asBytes (hexLower bytes)).length = bytes.length * 2 ∧
      hexPairs (asBytes (hexLower bytes)) = some bytes := by
  induction bytes with
  | nil => exact ⟨rfl, rfl⟩
  | cons byte rest ih =>
    have small : byte.val / 16 < 16 := by omega
    obtain ⟨high, highByte, highValue, -⟩ := digitChar_spec ⟨byte.val / 16, small⟩
    obtain ⟨low, lowByte, lowValue, -⟩ := digitChar_spec ⟨byte.val % 16, Nat.mod_lt _ (by decide)⟩
    have head : asBytes (hexLower (byte :: rest)) = high :: low :: asBytes (hexLower rest) := by
      simp only [asBytes, hexLower, flatMap_cons, toList_ofList, flatMap_append,
        flatMap_nil, append_nil]
      rw [highByte, lowByte]
      rfl
    rw [head]
    refine ⟨by simp only [length_cons, ih.1]; omega, ?_⟩
    simp only [hexPairs, highValue, lowValue, ih.2, Option.bind_eq_bind, Option.bind_some]
    congr
    ext
    simp
    omega

theorem isWhitespace_of_mem_hexLower {bytes : List U8} (member : char ∈ (hexLower bytes).toList) :
    isWhitespace char = false := by
  rw [hexLower, toList_ofList, mem_flatMap] at member
  obtain ⟨byte, -, digit⟩ := member
  have clean : ∀ nibble : Fin 16, isWhitespace nibble.val.digitChar = false := by
    intro nibble
    obtain ⟨-, -, -, clean⟩ := digitChar_spec nibble
    exact clean
  rcases mem_pair.mp digit with rfl | rfl
  · exact clean ⟨byte.val / 16, by omega⟩
  · exact clean ⟨byte.val % 16, Nat.mod_lt _ (by decide)⟩

theorem trim_hexLower (bytes : List U8) : trim (hexLower bytes) = hexLower bytes :=
  trim_eq_self fun _ => isWhitespace_of_mem_hexLower

theorem decodeHexExact_hexLower (bytes : Bytes size) :
    decodeHexExact size (hexLower bytes.val) = some bytes := by
  obtain ⟨length, pairs⟩ := hexPairs_hexLower bytes.val
  have sized : (asBytes (hexLower bytes.val)).length = size * 2 := by rw [length, bytes.2]
  rw [decodeHexExact, trim_hexLower, parseHex, if_neg (not_not_intro sized), pairs]
  exact dif_pos bytes.2

/-- Every key decodes and one text is signed. -/
def ArchiveEnv.sample (signed : String) : ArchiveEnv where
  crypto := .sample
  postcard := .sample
  packNodes nodes := nodes.flatMap fun node => node.id.val
  signer := RoomToken.sampleSigner (utf8 signed)
  keyFromBytes _ := some ()
  keyToBytes _ := Bytes.zero 32

def ArchiveSignature.sample : ArchiveSignature where
  publicKey := hexLower (Bytes.zero 32).val
  signature := hexLower (Bytes.zero 64).val

theorem verify_sample (attached : manifest.signature = some .sample)
    (same : externalManifestSignaturePayload manifest = signed) :
    verifyExternalManifestSignature (.sample signed) manifest = .ok () := by
  refine verifyExternalManifestSignature_ok_iff.mpr ⟨.sample, _, _, (), attached,
    decodeHexExact_hexLower (Bytes.zero 32), decodeHexExact_hexLower (Bytes.zero 64), rfl, ?_⟩
  rw [same]
  exact decide_eq_true rfl

end NodalMerge
