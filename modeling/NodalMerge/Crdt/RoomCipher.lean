import NodalMerge.Crdt.OpFormat
import NodalMerge.Crdt.Replay

namespace NodalMerge

/-- What the engine takes from HKDF-SHA256, AES-256-GCM and `postcard`.
Decryption inverts encryption, a ciphertext is no shorter than its plaintext,
and a serialized value is no longer than the op that holds it. -/
structure RoomCipher where
  hkdf : Bytes 32 → List U8 → (length : Nat) → Bytes length
  encrypt : Bytes 32 → Bytes 12 → List U8 → Option (List U8)
  decrypt : Bytes 32 → Bytes 12 → List U8 → Option (List U8)
  ops : Codec (List Op)
  decrypts : ∀ key nonce plain ciphertext, encrypt key nonce plain = some ciphertext →
    decrypt key nonce ciphertext = some plain
  covers : ∀ key nonce plain ciphertext, encrypt key nonce plain = some ciphertext →
    plain.length ≤ ciphertext.length
  holds : ∀ key value, value.length ≤ (ops.encode [.map (.set key value)]).length

/-- AES-GCM fails on no plaintext that fits into memory. -/
def RoomCipher.AlwaysEncrypts (cipher : RoomCipher) : Prop :=
  ∀ key nonce plain, (cipher.encrypt key nonce plain).isSome

/-- A small concrete instance, which hides nothing. -/
def RoomCipher.sample : RoomCipher where
  hkdf _ info length := .padTo length info
  encrypt _ _ plain := some plain
  decrypt _ _ ciphertext := some ciphertext
  ops := opsCodec
  decrypts _ _ _ _ produced := produced.symm
  covers _ _ _ _ produced := Nat.le_of_eq (congrArg List.length (Option.some.inj produced))
  holds := opsCodec_set_length

inductive CipherError where
  | encryptionFailed
  | decryptionFailed
  | serialization
  deriving DecidableEq

variable (cipher : RoomCipher)

def deriveRoomKey (roomSeed : Bytes 32) : Bytes 32 :=
  cipher.hkdf roomSeed (utf8 "nodalmerge-e2ee-v1") 32

def deriveNonce (roomKey : Bytes 32) (author : PublicKey) (lamport : Nat) : Bytes 12 :=
  cipher.hkdf roomKey (utf8 "nodalmerge-nonce-v1" ++ (author.val ++ toLeBytes 8 lamport)) 12

/-- The nonce followed by the ciphertext. -/
def encryptOps (roomKey : Bytes 32) (author : PublicKey) (lamport : Nat) (ops : List Op) :
    Except CipherError (List U8) :=
  let nonce := deriveNonce cipher roomKey author lamport
  match cipher.encrypt roomKey nonce (cipher.ops.encode ops) with
  | some ciphertext => .ok (nonce.val ++ ciphertext)
  | none => .error .encryptionFailed

/-- A payload shorter than a nonce is refused like a wrong key. -/
def decryptOps (roomKey : Bytes 32) (payload : List U8) : Except CipherError (List Op) :=
  match Bytes.ofList? 12 (payload.take 12) with
  | none => .error .decryptionFailed
  | some nonce =>
    match cipher.decrypt roomKey nonce (payload.drop 12) with
    | none => .error .decryptionFailed
    | some plain =>
      match cipher.ops.decode plain with
      | none => .error .serialization
      | some ops => .ok ops

/-- Exactly one op, and it sets the sentinel key. -/
def isEncryptedNode : List Op → Bool
  | [.map (.set key _)] => key = e2eeKey
  | _ => false

def extractEncryptedPayload : List Op → Option (List U8)
  | [.map (.set key value)] => if key = e2eeKey then some value else none
  | _ => none

def wrapEncryptedOps (roomKey : Bytes 32) (author : PublicKey) (lamport : Nat) (ops : List Op) :
    Except CipherError (List Op) :=
  (encryptOps cipher roomKey author lamport ops).map fun payload =>
    [.map (.set e2eeKey payload)]

variable {cipher}

theorem encryptOps_ok_iff : encryptOps cipher roomKey author lamport ops = .ok payload ↔
    ∃ ciphertext, cipher.encrypt roomKey (deriveNonce cipher roomKey author lamport)
        (cipher.ops.encode ops) = some ciphertext ∧
      (deriveNonce cipher roomKey author lamport).val ++ ciphertext = payload := by
  dsimp only [encryptOps]
  cases cipher.encrypt roomKey (deriveNonce cipher roomKey author lamport)
    (cipher.ops.encode ops) <;> simp

theorem decryptOps_encryptOps
    (encrypted : encryptOps cipher roomKey author lamport ops = .ok payload) :
    decryptOps cipher roomKey payload = .ok ops := by
  obtain ⟨ciphertext, produced, rfl⟩ := encryptOps_ok_iff.mp encrypted
  have size := (deriveNonce cipher roomKey author lamport).property
  have nonce : ((deriveNonce cipher roomKey author lamport).val ++ ciphertext).take 12 =
      (deriveNonce cipher roomKey author lamport).val := List.take_left' size
  have rest : ((deriveNonce cipher roomKey author lamport).val ++ ciphertext).drop 12 =
      ciphertext := List.drop_left' size
  rw [decryptOps, nonce, rest, Bytes.ofList?_val]
  simp only [cipher.decrypts _ _ _ _ produced, cipher.ops.roundTrip]

theorem wrapEncryptedOps_ok_iff : wrapEncryptedOps cipher roomKey author lamport ops = .ok wrapped ↔
    ∃ payload, encryptOps cipher roomKey author lamport ops = .ok payload ∧
      wrapped = [.map (.set e2eeKey payload)] := by
  unfold wrapEncryptedOps
  cases encryptOps cipher roomKey author lamport ops with
  | error error => simp [Except.map]
  | ok payload => simp [Except.map, eq_comm]

theorem exists_wrapEncryptedOps (encrypts : cipher.AlwaysEncrypts) (roomKey : Bytes 32)
    (author : PublicKey) (lamport : Nat) (ops : List Op) :
    ∃ wrapped, wrapEncryptedOps cipher roomKey author lamport ops = .ok wrapped := by
  obtain ⟨ciphertext, produced⟩ := Option.isSome_iff_exists.mp
    (encrypts roomKey (deriveNonce cipher roomKey author lamport) (cipher.ops.encode ops))
  exact ⟨_, wrapEncryptedOps_ok_iff.mpr ⟨_, encryptOps_ok_iff.mpr ⟨ciphertext, produced, rfl⟩, rfl⟩⟩

/-- The payload is longer than any value the ops set alone. -/
theorem wrapEncryptedOps_ne (produced : wrapEncryptedOps cipher roomKey author lamport ops =
    .ok wrapped) : wrapped ≠ ops := by
  obtain ⟨payload, encrypted, rfl⟩ := wrapEncryptedOps_ok_iff.mp produced
  rintro rfl
  obtain ⟨ciphertext, produced, same⟩ := encryptOps_ok_iff.mp encrypted
  have nonce := (deriveNonce cipher roomKey author lamport).property
  have size := congrArg List.length same
  have covers := cipher.covers _ _ _ _ produced
  have holds := cipher.holds e2eeKey payload
  rw [List.length_append, nonce] at size
  omega

end NodalMerge
