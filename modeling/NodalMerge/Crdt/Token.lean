import NodalMerge.Crdt.Encoding

namespace NodalMerge

open List

/-- What the tokens take from `ed25519-dalek`: signatures over byte strings. -/
structure MessageSigner where
  SigningKey : Type
  VerifyingKey : Type
  verifyingKey : SigningKey → VerifyingKey
  sign : SigningKey → List U8 → Signature
  verify : VerifyingKey → List U8 → Signature → Bool

/-- The signature of the message verifies for that message and for no other. -/
def MessageSigner.ExactAt (signer : MessageSigner) (key : signer.SigningKey)
    (signed : List U8) : Prop :=
  ∀ message, signer.verify (signer.verifyingKey key) message (signer.sign key signed) = true ↔
    message = signed

inductive TokenError where
  | expired
  | badSignature
  | peerMismatch
  deriving DecidableEq

structure RoomToken where
  peerPubkey : PublicKey
  expirySecs : UInt64
  capabilities : List String
  signature : Signature

namespace RoomToken

def domain : List U8 := utf8 "nodalmerge-room-token-v1"

/-- The signed fields after the domain, the capabilities already joined. -/
def messageBody (roomId : String) (peerPubkey : PublicKey) (expirySecs : UInt64)
    (caps : String) : List U8 :=
  utf8 roomId ++ 0 :: (peerPubkey.val ++ (toLeBytes 8 expirySecs.toNat ++ 0 :: utf8 caps))

/-- `token_message`; the capabilities come sorted. -/
def tokenMessage (roomId : String) (peerPubkey : PublicKey) (expirySecs : UInt64)
    (sortedCaps : List String) : List U8 :=
  domain ++ 0 :: messageBody roomId peerPubkey expirySecs ("\n".intercalate sortedCaps)

def sortCaps (capabilities : List String) : List String := capabilities.insertionSort (· ≤ ·)

def sign (signer : MessageSigner) (roomId : String) (peerPubkey : PublicKey) (expirySecs : UInt64)
    (capabilities : List String) (signingKey : signer.SigningKey) : RoomToken :=
  let sortedCaps := sortCaps capabilities
  ⟨peerPubkey, expirySecs, sortedCaps,
    signer.sign signingKey (tokenMessage roomId peerPubkey expirySecs sortedCaps)⟩

def verify (signer : MessageSigner) (token : RoomToken) (roomId : String)
    (roomVerifyingKey : signer.VerifyingKey) (connectingPeer : PublicKey) (nowSecs : UInt64) :
    Except TokenError Unit :=
  if token.peerPubkey ≠ connectingPeer then .error .peerMismatch
  else if nowSecs ≥ token.expirySecs then .error .expired
  else if signer.verify roomVerifyingKey
      (tokenMessage roomId token.peerPubkey token.expirySecs (sortCaps token.capabilities))
      token.signature then .ok ()
  else .error .badSignature

theorem verify_ok_iff {token : RoomToken} {roomVerifyingKey : signer.VerifyingKey} :
    token.verify signer roomId roomVerifyingKey token.peerPubkey nowSecs = .ok () ↔
      nowSecs < token.expirySecs ∧ signer.verify roomVerifyingKey (tokenMessage roomId
        token.peerPubkey token.expirySecs (sortCaps token.capabilities)) token.signature = true := by
  rw [verify, if_neg (not_not_intro rfl)]
  by_cases late : nowSecs ≥ token.expirySecs
  · rw [if_pos late]
    exact ⟨nofun, fun ok => absurd ok.1 (UInt64.not_lt.mpr late)⟩
  · rw [if_neg late]
    have early := UInt64.not_le.mp late
    split
    · rename_i verifies
      exact ⟨fun _ => ⟨early, verifies⟩, fun _ => rfl⟩
    · rename_i fails
      exact ⟨nofun, fun ok => absurd ok.2 fails⟩

theorem messageBody_inj (cut : (utf8 room').length = (utf8 room).length)
    (same : messageBody room' peer' expiry' caps' = messageBody room peer expiry caps) :
    room' = room ∧ peer' = peer ∧ expiry' = expiry ∧ caps' = caps := by
  obtain ⟨roomSame, rest⟩ := append_inj same cut
  obtain ⟨peerSame, rest⟩ := append_inj (List.cons.inj rest).2 (peer'.2.trans peer.2.symm)
  obtain ⟨expirySame, rest⟩ := append_inj rest (by simp)
  refine ⟨utf8_injective roomSame, Subtype.ext peerSame, UInt64.toNat_inj.mp ?_,
    utf8_injective (List.cons.inj rest).2⟩
  exact toLeBytes_inj expiry'.toNat_lt expiry.toNat_lt expirySame

/-- The bytes read as a grant whose room name ends at `cut`: separators stand
around a 40-byte peer and expiry, text on both sides, and an expiry above 0. -/
structure ReadsAt (body : List U8) (cut : Nat) : Prop where
  room : ∃ text, utf8 text = body.take cut
  afterRoom : body[cut]? = some 0
  expiry : ∃ byte ∈ (body.drop (cut + 33)).take 8, byte ≠ 0
  afterExpiry : body[cut + 41]? = some 0
  caps : ∃ text, utf8 text = body.drop (cut + 42)

theorem messageBody_readsAt {room caps : String} {peer : PublicKey} {expiry : UInt64}
    (unexpired : expiry ≠ 0) : ReadsAt (messageBody room peer expiry caps) (utf8 room).length := by
  have peerSize := peer.2
  have upToPeer : messageBody room peer expiry caps =
      (utf8 room ++ 0 :: peer.val) ++ (toLeBytes 8 expiry.toNat ++ 0 :: utf8 caps) := by
    simp [messageBody]
  have upToExpiry : messageBody room peer expiry caps =
      (utf8 room ++ 0 :: (peer.val ++ toLeBytes 8 expiry.toNat)) ++ 0 :: utf8 caps := by
    simp [messageBody]
  have upToCaps : messageBody room peer expiry caps =
      (utf8 room ++ 0 :: (peer.val ++ (toLeBytes 8 expiry.toNat ++ [0]))) ++ utf8 caps := by
    simp [messageBody]
  refine ⟨⟨room, by simp [messageBody]⟩, by simp [messageBody], ?_, ?_, caps, ?_⟩
  · rw [upToPeer, drop_left' (by simp [peerSize]), take_left' (by simp)]
    by_contra zeros
    push Not at zeros
    exact unexpired (UInt64.toNat_inj.mp ((toLeBytes_eq_zero_iff expiry.toNat_lt).mp zeros))
  · rw [upToExpiry, List.getElem?_append_right (by simp [peerSize])]
    simp [peerSize]
  · rw [upToCaps, drop_left' (by simp [peerSize])]

theorem ReadsAt.exists_grant (reads : ReadsAt body cut) :
    ∃ room peer expiry caps, (utf8 room).length = cut ∧ expiry ≠ 0 ∧
      messageBody room peer expiry caps = body := by
  obtain ⟨⟨room, roomBytes⟩, afterRoom, nonzero, afterExpiry, caps, capsBytes⟩ := reads
  obtain ⟨cutInside, cutByte⟩ := List.getElem?_eq_some_iff.mp afterRoom
  obtain ⟨endInside, endByte⟩ := List.getElem?_eq_some_iff.mp afterExpiry
  have expirySize : ((body.drop (cut + 33)).take 8).length = 8 := by
    rw [length_take, length_drop]
    omega
  obtain ⟨expiry, fits, expiryBytes⟩ := toLeBytes_surjective expirySize
  let peer : PublicKey := ⟨(body.drop (cut + 1)).take 32, by
    rw [length_take, length_drop]
    omega⟩
  refine ⟨room, peer, UInt64.ofNat expiry, caps, ?_, ?_, ?_⟩
  · rw [roomBytes, length_take]
    omega
  · intro zero
    obtain ⟨byte, member, isNonzero⟩ := nonzero
    rw [← expiryBytes] at member
    have isZero : expiry = 0 := by
      rw [← UInt64.toNat_ofNat_of_lt' fits, zero]
      rfl
    exact isNonzero ((toLeBytes_eq_zero_iff fits).mpr isZero byte member)
  · have expiryNat : (UInt64.ofNat expiry).toNat = expiry := UInt64.toNat_ofNat_of_lt' fits
    have fromExpiryEnd : body.drop (cut + 41) = 0 :: utf8 caps := by
      rw [drop_eq_getElem_cons endInside, endByte, capsBytes]
    have fromExpiry : body.drop (cut + 33) = toLeBytes 8 expiry ++ 0 :: utf8 caps := by
      rw [expiryBytes, ← fromExpiryEnd]
      exact (take_append_drop 8 _).symm.trans (by rw [drop_drop])
    have fromPeer : body.drop (cut + 1) = peer.val ++ body.drop (cut + 33) := by
      exact (take_append_drop 32 _).symm.trans (by rw [drop_drop])
    have fromRoomEnd : body.drop cut = 0 :: body.drop (cut + 1) := by
      rw [drop_eq_getElem_cons cutInside, cutByte]
    rw [messageBody, expiryNat, ← fromExpiry, ← fromPeer, ← fromRoomEnd, roomBytes,
      take_append_drop]

/-- A capability is a prefix of the list joined from it on, hence not above it. -/
theorem le_intercalate (cap : String) (rest : List String) :
    cap ≤ "\n".intercalate (cap :: rest) := by
  cases rest with
  | nil => simp
  | cons second rest =>
    rw [String.intercalate_cons_cons, String.append_assoc, String.le_iff_toList_le,
      String.toList_append]
    exact not_lt.mp (List.not_lt.mpr le_append_left)

/-- One capability that no cut at a newline turns into a sorted pair. -/
def Unsplittable (caps : List String) : Prop :=
  ∃ cap, caps = [cap] ∧ cap ≠ "" ∧ ∀ front back, cap = front ++ "\n" ++ back → back < front

theorem perm_of_joined (nonempty : cap ≠ "")
    (unsplit : ∀ front back, cap = front ++ "\n" ++ back → back < front)
    (joined : "\n".intercalate (sortCaps caps) = cap) : caps.Perm [cap] := by
  refine (perm_insertionSort (· ≤ ·) caps).symm.trans ?_
  have ordered : (sortCaps caps).Pairwise (· ≤ ·) := pairwise_insertionSort _ _
  change (sortCaps caps).Perm [cap]
  generalize sortCaps caps = sorted at joined ordered
  match sorted with
  | [] => exact absurd joined.symm nonempty
  | [only] => rw [← joined, String.intercalate_singleton]
  | first :: second :: rest =>
    -- the first capability against the rest would be a sorted pair
    have above : first ≤ "\n".intercalate (second :: rest) :=
      (rel_of_pairwise_cons ordered mem_cons_self).trans (le_intercalate second rest)
    rw [String.intercalate_cons_cons] at joined
    exact absurd (unsplit _ _ joined.symm) (not_lt.mpr above)

/-- Only an unsplittable list is determined by its joined text. -/
theorem joined_determines_iff (caps : List String) :
    (∀ caps', "\n".intercalate (sortCaps caps') = "\n".intercalate (sortCaps caps) →
      caps'.Perm caps) ↔ Unsplittable caps := by
  constructor
  · intro determined
    have alone := determined ["\n".intercalate (sortCaps caps)] (by simp [sortCaps])
    obtain ⟨cap, rfl⟩ := length_eq_one_iff.mp alone.length_eq.symm
    refine ⟨cap, rfl, ?_, ?_⟩
    · rintro rfl
      exact absurd (determined [] (by simp [sortCaps])) (by simp)
    · intro front back split
      by_contra sorted
      have pair : sortCaps [front, back] = [front, back] := by
        simp [sortCaps, not_lt.mp sorted]
      have perm := determined [front, back] (by
        rw [pair, String.intercalate_cons_cons, String.intercalate_singleton, ← split]
        simp [sortCaps])
      exact absurd perm.length_eq (by simp)
  · rintro ⟨cap, rfl, nonempty, unsplit⟩ caps' joined
    exact perm_of_joined nonempty unsplit (by rw [joined]; simp [sortCaps])

/-- A token binds its grant exactly when its capabilities are unsplittable and
the signed bytes have no second reading. -/
theorem token_binds_grant_iff (signer : MessageSigner) (key : signer.SigningKey) (room : String)
    (peer : PublicKey) (expiry : UInt64) (caps : List String)
    (exactAt : signer.ExactAt key (tokenMessage room peer expiry (sortCaps caps))) :
    (∀ room' peer' expiry' caps' now,
        ({ sign signer room peer expiry caps key with
            peerPubkey := peer', expirySecs := expiry', capabilities := caps' } : RoomToken).verify
          signer room' (signer.verifyingKey key) peer' now = .ok () →
        room' = room ∧ peer' = peer ∧ expiry' = expiry ∧ caps'.Perm caps) ↔
      (expiry ≠ 0 → Unsplittable caps) ∧
        ∀ cut, ReadsAt (messageBody room peer expiry ("\n".intercalate (sortCaps caps))) cut →
          cut = (utf8 room).length := by
  have verifies (room' : String) (peer' : PublicKey) (expiry' : UInt64) (caps' : List String)
      (now : UInt64) :
      ({ sign signer room peer expiry caps key with
          peerPubkey := peer', expirySecs := expiry', capabilities := caps' } : RoomToken).verify
        signer room' (signer.verifyingKey key) peer' now = .ok () ↔
      now < expiry' ∧ messageBody room' peer' expiry' ("\n".intercalate (sortCaps caps')) =
        messageBody room peer expiry ("\n".intercalate (sortCaps caps)) := by
    refine verify_ok_iff.trans (and_congr_right fun _ => ?_)
    refine (exactAt _).trans ?_
    rw [tokenMessage, tokenMessage, append_cancel_left_eq, List.cons.injEq]
    exact and_iff_right rfl
  simp only [verifies]
  constructor
  · intro binds
    constructor
    · intro unexpired
      refine (joined_determines_iff caps).mp fun caps' joined => ?_
      exact (binds room peer expiry caps' 0
        ⟨UInt64.pos_iff_ne_zero.mpr unexpired, by rw [joined]⟩).2.2.2
    · intro cut reads
      obtain ⟨room', peer', expiry', caps', cutIs, unexpired, same⟩ := reads.exists_grant
      have alone : "\n".intercalate (sortCaps [caps']) = caps' := by simp [sortCaps]
      obtain ⟨rfl, -⟩ := binds room' peer' expiry' [caps'] 0
        ⟨UInt64.pos_iff_ne_zero.mpr unexpired, by rw [alone, same]⟩
      exact cutIs.symm
  · rintro ⟨unsplit, oneReading⟩ room' peer' expiry' caps' now ⟨early, same⟩
    have unexpired : expiry' ≠ 0 := by
      rintro rfl
      exact UInt64.not_lt_zero early
    have reads := same ▸ @messageBody_readsAt room' _ peer' expiry' unexpired
    obtain ⟨rfl, rfl, rfl, joined⟩ := messageBody_inj (oneReading _ reads) same
    exact ⟨rfl, rfl, rfl, (joined_determines_iff caps).mpr (unsplit unexpired) caps' joined⟩

/-- A signer that has signed a single message. -/
def sampleSigner (signed : List U8) : MessageSigner where
  SigningKey := Unit
  VerifyingKey := Unit
  verifyingKey := id
  sign _ _ := Bytes.zero 64
  verify _ message _ := message = signed

theorem sampleSigner_exactAt (signed : List U8) : (sampleSigner signed).ExactAt () signed := by
  intro message
  exact decide_eq_true_iff

/-- The token of a peer that may write only. -/
def writeOnly : List U8 := tokenMessage "r" (Bytes.zero 32) 100 (sortCaps ["w"])

theorem writeOnly_unsplittable : Unsplittable ["w"] := by
  refine ⟨"w", rfl, by decide, fun front back split => ?_⟩
  have newline : '\n' ∈ "w".toList := by simp [split]
  exact absurd newline (by decide)

theorem writeOnly_readsAt (cut : Nat)
    (reads : ReadsAt (messageBody "r" (Bytes.zero 32) 100 ("\n".intercalate (sortCaps ["w"]))) cut) :
    cut = (utf8 "r").length := by
  obtain ⟨-, atCut, -, atEnd, -⟩ := reads
  have inside : cut + 41 < 44 := (List.getElem?_eq_some_iff.mp atEnd).1
  have small : cut < 3 := by omega
  revert atCut atEnd
  interval_cases cut <;> decide

theorem writeOnly_keeps_capabilities :
    ({ sign (sampleSigner writeOnly) "r" (Bytes.zero 32) 100 ["w"] () with
      capabilities := [] } : RoomToken).verify (sampleSigner writeOnly) "r" () (Bytes.zero 32) 0 ≠
        .ok () := by
  intro accepted
  have binds := (token_binds_grant_iff (sampleSigner writeOnly) () "r" (Bytes.zero 32) 100 ["w"]
    (sampleSigner_exactAt writeOnly)).mpr ⟨fun _ => writeOnly_unsplittable, writeOnly_readsAt⟩
  exact absurd (binds "r" (Bytes.zero 32) 100 [] 0 accepted).2.2.2 (by simp)

/-- A token without any usable capability turned into one with full access. -/
theorem empty_capability_dropped :
    let signer := sampleSigner (tokenMessage "r" (Bytes.zero 32) 100 (sortCaps [""]))
    signer.ExactAt () (tokenMessage "r" (Bytes.zero 32) 100 (sortCaps [""])) ∧
      ({ sign signer "r" (Bytes.zero 32) 100 [""] () with capabilities := [] } : RoomToken).verify
        signer "r" () (Bytes.zero 32) 0 = .ok () ∧ ¬ ([] : List String).Perm [""] :=
  ⟨sampleSigner_exactAt _, by decide, by simp⟩

end RoomToken

end NodalMerge
