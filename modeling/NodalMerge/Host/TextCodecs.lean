import Mathlib.Data.FinEnum
import NodalMerge.Host.Value

namespace NodalMerge

open List

/-- `u8::from_str_radix` on two bytes with radix 16: a plus sign may stand before a digit. -/
def radixPair (hi lo : UInt8) : Option Nat :=
  if hi = 43 then hexNibble lo
  else (hexNibble hi).bind fun high => (hexNibble lo).map (high * 16 + ·)

/-- `str::is_char_boundary` in front of the given bytes. -/
def isCharBoundary : List UInt8 → Bool
  | [] => true
  | byte :: _ => byte < 128 || 192 ≤ byte

/-- The loop of `ItemId::from_hex`; the outer `none` is the panic on a slice that ends inside a
character. A slice starts where the one before it ends. -/
def itemBytes : List UInt8 → Option (Option (List U8))
  | hi :: lo :: rest =>
    if isCharBoundary rest then
      match radixPair hi lo with
      | none => some none
      | some byte => (itemBytes rest).map (Option.map (Fin.ofNat 256 byte :: ·))
    else none
  | _ => some (some [])

def ItemId.fromHex (text : String) : Option (Option ItemId) :=
  if (asBytes text).length ≠ 32 then some none
  else (itemBytes (asBytes text)).map (Option.map (.padTo 16))

def toAsciiLowercase (byte : UInt8) : UInt8 := if 65 ≤ byte ∧ byte ≤ 90 then byte + 32 else byte

def HexDigits (bytes : List UInt8) : Prop := ∀ byte ∈ bytes, (hexNibble byte).isSome

/-- The text is parsed without a panic, accepted exactly as 32 digits, and printed back in lower
case. -/
def ParsedExactly (text : String) : Prop :=
  ∃ answer, ItemId.fromHex text = some answer ∧
    (answer.isSome ↔ (asBytes text).length = 32 ∧ HexDigits (asBytes text)) ∧
    ∀ item, answer = some item → asBytes item.toHex = (asBytes text).map toAsciiLowercase

/-- Some pair of bytes is not read as a number, and the first one of these ends with a
character. -/
def StopsAtBoundary : List UInt8 → Prop
  | hi :: lo :: rest =>
    isCharBoundary rest = true ∧ (radixPair hi lo = none ∨ StopsAtBoundary rest)
  | _ => False

/-- A digit is ASCII and no sign, and is printed back in lower case. -/
theorem hexNibble_spec : ∀ byte, ∀ value ∈ hexNibble byte, byte < 128 ∧ byte ≠ 43 ∧
    String.utf8EncodeChar value.digitChar = [toAsciiLowercase byte] ∧ value < 16 := by
  decide +kernel

theorem itemBytes_of_hexPairs (read : hexPairs bytes = some out) :
    itemBytes bytes = some (some out) ∧ isCharBoundary bytes = true ∧
      asBytes (hexLower out) = bytes.map toAsciiLowercase := by
  induction bytes using hexPairs.induct generalizing out with
  | case1 =>
    cases read
    exact ⟨rfl, rfl, rfl⟩
  | case2 => cases read
  | case3 hi lo rest ih =>
    simp only [hexPairs, Option.bind_eq_bind, Option.bind_eq_some_iff] at read
    obtain ⟨high, first, low, second, out, later, ⟨⟩⟩ := read
    obtain ⟨ascii, unsigned, printed, small⟩ := hexNibble_spec hi high first
    obtain ⟨-, -, printed', small'⟩ := hexNibble_spec lo low second
    obtain ⟨read, boundary, lower⟩ := ih later
    refine ⟨?_, ?_, ?_⟩
    · simp [itemBytes, boundary, radixPair, unsigned, first, second, read]
    · simp [isCharBoundary, ascii]
    · have halves : (Fin.ofNat 256 (high * 16 + low)).val = high * 16 + low :=
        Nat.mod_eq_of_lt (by omega)
      have quotient : (high * 16 + low) / 16 = high := by omega
      have remainder : (high * 16 + low) % 16 = low := by omega
      rw [asBytes, hexLower, String.toList_ofList] at lower ⊢
      simp only [flatMap_cons, halves, quotient, remainder, printed, printed', lower, map_cons,
        cons_append, nil_append]

theorem itemBytes_digits (digits : HexDigits bytes) (even : 2 ∣ bytes.length) :
    ∃ out, itemBytes bytes = some (some out) ∧
      asBytes (hexLower out) = bytes.map toAsciiLowercase := by
  have read : ∃ out, hexPairs bytes = some out := by
    induction bytes using hexPairs.induct with
    | case1 => exact ⟨[], rfl⟩
    | case2 => simp at even
    | case3 hi lo rest ih =>
      simp only [HexDigits, forall_mem_cons] at digits
      obtain ⟨first, second, digits⟩ := digits
      obtain ⟨high, first⟩ := Option.isSome_iff_exists.mp first
      obtain ⟨low, second⟩ := Option.isSome_iff_exists.mp second
      obtain ⟨out, later⟩ := ih digits (by simpa using even)
      simp [hexPairs, first, second, later]
  obtain ⟨out, read⟩ := read
  obtain ⟨loop, -, lower⟩ := itemBytes_of_hexPairs read
  exact ⟨out, loop, lower⟩

theorem itemBytes_none_iff : itemBytes bytes = some none ↔ StopsAtBoundary bytes := by
  fun_induction itemBytes bytes with
  | case1 hi lo rest boundary unread => simp [StopsAtBoundary, boundary, unread]
  | case2 hi lo rest boundary byte read ih => simp [StopsAtBoundary, boundary, read, ih]
  | case3 hi lo rest inside => simp [StopsAtBoundary, inside]
  | case4 bytes short =>
    unfold StopsAtBoundary
    split
    · exact (short _ _ _ rfl).elim
    · simp

theorem toHex_eq (item : ItemId) : item.toHex = hexLower item.val := by
  have same : ∀ nibble : Fin 16, hexDigit nibble.val = nibble.val.digitChar := by decide
  rw [ItemId.toHex, hexLower]
  congr 1
  refine flatMap_congr fun byte _ => ?_
  rw [same ⟨byte.val / 16, by omega⟩, same ⟨byte.val % 16, by omega⟩]

/-- A text is parsed exactly if and only if it has another length, consists of digits, or has a
pair that is not read as a number and, the first such one, ends with a character; what is printed
is always parsed back. -/
theorem item_id_parsed_exactly_iff (text : String) (item : ItemId) :
    (ParsedExactly text ↔ (asBytes text).length ≠ 32 ∨ HexDigits (asBytes text) ∨
      StopsAtBoundary (asBytes text)) ∧
    ItemId.fromHex item.toHex = some (some item) := by
  constructor
  · unfold ParsedExactly ItemId.fromHex
    generalize asBytes text = bytes
    by_cases length : bytes.length = 32
    · rw [if_neg (not_not.mpr length)]
      have parsed (digits : HexDigits bytes) := itemBytes_digits digits (by rw [length]; decide)
      constructor
      · rintro ⟨answer, ran, accepted, -⟩
        right
        obtain ⟨read, loop, rfl⟩ := Option.map_eq_some_iff.mp ran
        cases read with
        | none => exact .inr (itemBytes_none_iff.mp loop)
        | some out => exact .inl (accepted.mp rfl).2
      · rintro (other | digits | stops)
        · exact (other length).elim
        · obtain ⟨out, loop, lower⟩ := parsed digits
          refine ⟨some (.padTo 16 out), by rw [loop]; rfl, by simp [length, digits], ?_⟩
          rintro _ ⟨⟩
          have size := congrArg List.length lower
          rw [(hexPairs_hexLower out).1, length_map, length] at size
          have kept : (Bytes.padTo 16 out).val = out := take_left' (by omega)
          rw [toHex_eq, kept, lower]
        · have loop := itemBytes_none_iff.mpr stops
          refine ⟨none, by rw [loop]; rfl, ?_, nofun⟩
          have other : ¬ HexDigits bytes := by
            intro digits
            obtain ⟨out, other, -⟩ := parsed digits
            cases loop.symm.trans other
          simp [other]
    · rw [if_pos length]
      exact ⟨fun _ => .inl length, fun _ => ⟨none, rfl, by simp [length], nofun⟩⟩
  · obtain ⟨length, pairs⟩ := hexPairs_hexLower item.val
    have size : (asBytes (hexLower item.val)).length = 32 := by rw [length, item.property]
    rw [ItemId.fromHex, toHex_eq, if_neg (not_not.mpr size), (itemBytes_of_hexPairs pairs).1]
    simp [Bytes.padTo, take_left' item.property]

def signedDigits : String := "+0+0+0+0+0+0+0+0+0+0+0+0+0+0+0+0"

/-- Digits with a sign are accepted. -/
theorem signed_digits_parsed : ¬ ParsedExactly signedDigits := by
  rintro ⟨answer, ran, accepted, -⟩
  have parsed : ItemId.fromHex signedDigits = some (some (.zero 16)) := by decide
  obtain rfl := Option.some.inj (ran.symm.trans parsed)
  cases (accepted.mp rfl).2 43 (by decide)

end NodalMerge

namespace NodalMerge.Host

open List Option

/-- The crates with a codec of their own. -/
inductive CodecCrate where
  | bridge
  | hostCore
  | server

/-- How a decoder ends without bytes. -/
inductive DecodeFailure where
  | err
  | panic
  deriving DecidableEq

/-- `ok_or(())`. -/
def orErr {α : Type} (value : Option α) : Except DecodeFailure α := value.elim (.error .err) .ok

theorem base64Groups_cons (b0 b1 : U8) (rest : List U8) :
    base64Groups (b0 :: b1 :: rest) =
      if b0 = 61 then some []
      else (decodeGroup b0 b1 (rest[0]?.getD 61) (rest[1]?.getD 61)).bind fun group =>
        (base64Groups (rest.drop 2)).map (group ++ ·) := by
  match rest with
  | [] => simp [base64Groups]
  | [b2] => simp [base64Groups]
  | b2 :: b3 :: rest =>
    simp only [base64Groups, getElem?_cons_zero, getElem?_cons_succ, getD_some, drop_succ_cons,
      drop_zero]
    split
    · rfl
    · cases decodeGroup b0 b1 b2 b3 with
      | none => rfl
      | some group => cases base64Groups rest <;> rfl

namespace CodecCrate

variable (crate : CodecCrate)

/-- The three encoders are the same. -/
def base64Encode : List U8 → String :=
  match crate with
  | _ => Host.base64Encode

/-- The bits of `usize`; the bridge is built for WebAssembly. -/
def wordBits : Nat :=
  match crate with
  | .bridge => 32
  | _ => 64

/-- No string and no allocation has more bytes. -/
def isizeMax : Nat := 2 ^ (crate.wordBits - 1) - 1

/-- An index that was added to. -/
def index (sum : Nat) : Except DecodeFailure Nat :=
  if sum < 2 ^ crate.wordBits then .ok sum else .error .panic

/-- The host core masks what the cast to a byte drops in the others. -/
def masked (modulus value : Nat) : Nat :=
  match crate with
  | .hostCore => value % modulus
  | _ => value

/-- The bytes of the group at an index, or nothing where it starts with `=`. -/
def decodeGroup (bytes : List U8) (i : Nat) : Except DecodeFailure (Option (List U8)) := do
  let b0 ← orErr bytes[i]?
  let b1 ← orErr bytes[← crate.index (i + 1)]?
  if b0 = 61 then return none
  let v0 ← orErr (sextet b0)
  let v1 ← orErr (sextet b1)
  let first := Fin.ofNat 256 (v0 * 4 + v1 / 16)
  let b2 := bytes[← crate.index (i + 2)]?.getD 61
  if b2 = 61 then return some [first]
  let v2 ← orErr (sextet b2)
  let second := Fin.ofNat 256 (crate.masked 16 v1 * 16 + v2 / 4)
  let b3 := bytes[← crate.index (i + 3)]?.getD 61
  if b3 = 61 then return some [first, second]
  let v3 ← orErr (sextet b3)
  return some [first, second, Fin.ofNat 256 (crate.masked 4 v2 * 64 + v3)]

/-- The loop, from an index on. -/
def decodeFrom (bytes : List U8) (i : Nat) : Except DecodeFailure (List U8) :=
  if i < bytes.length then do
    match ← crate.decodeGroup bytes i with
    | none => return []
    | some group =>
      let _ ← crate.index (i + 4)
      return group ++ (← decodeFrom bytes (i + 4))
  else return []
termination_by bytes.length - i

/-- The product wraps in an optimised build, and a capacity above the largest allocation is
a panic. -/
def base64Decode (text : String) : Except DecodeFailure (List U8) :=
  if crate.isizeMax < (utf8 text).length * 3 % 2 ^ crate.wordBits / 4 then .error .panic
  else crate.decodeFrom (utf8 text) 0

variable {crate} {bytes : List U8}

theorem masked_cast (rest : Nat) :
    (∀ value, Fin.ofNat 256 (crate.masked 16 value * 16 + rest) =
      Fin.ofNat 256 (value % 16 * 16 + rest)) ∧
    ∀ value, Fin.ofNat 256 (crate.masked 4 value * 64 + rest) =
      Fin.ofNat 256 (value % 4 * 64 + rest) := by
  cases crate <;> refine ⟨fun value => Fin.ext ?_, fun value => Fin.ext ?_⟩ <;>
    simp [masked] <;> omega

section
variable (fits : bytes.length + 3 < 2 ^ crate.wordBits)
include fits

theorem index_ok (more : i < bytes.length) (few : k ≤ 4) : crate.index (i + k) = .ok (i + k) :=
  if_pos (by omega)

/-- No sum of a group overflows, and the group is that of the bytes from the index on. -/
theorem decodeGroup_eq (more : i < bytes.length) :
    crate.decodeGroup bytes i =
      match bytes.drop i with
      | b0 :: b1 :: rest =>
        if b0 = 61 then .ok none
        else orErr ((Host.decodeGroup b0 b1 (rest[0]?.getD 61) (rest[1]?.getD 61)).map some)
      | _ => .error .err := by
  have read (k : Nat) : bytes[i + k]? = (bytes.drop i)[k]? := getElem?_drop.symm
  have sums (k : Nat) (few : k ≤ 4) := index_ok fits more few
  have here := read 0
  rw [Nat.add_zero] at here
  simp only [decodeGroup, Host.decodeGroup, sums 1 (by decide), sums 2 (by decide),
    sums 3 (by decide), here, read, masked_cast, bind, Except.bind]
  match bytes.drop i with
  | [] => rfl
  | [_] => rfl
  | b0 :: b1 :: rest =>
    simp only [getElem?_cons_zero, getElem?_cons_succ]
    generalize rest[0]?.getD 61 = b2, rest[1]?.getD 61 = b3
    rw [show orErr (some b0) = .ok b0 from rfl, show orErr (some b1) = .ok b1 from rfl]
    dsimp only
    split
    · rfl
    · cases sextet b0 with
      | none => rfl
      | some v0 =>
        cases sextet b1 with
        | none => rfl
        | some v1 =>
          by_cases short : b2 = 61
          · simp [short, orErr]
            rfl
          · cases sextet b2 with
            | none => simp [short, orErr]
            | some v2 =>
              by_cases full : b3 = 61
              · simp [short, full, orErr]
                rfl
              · cases sextet b3 <;> simp [short, full, orErr]
                rfl

/-- The loop reads the bytes from its index on. -/
theorem decodeFrom_eq (i : Nat) :
    crate.decodeFrom bytes i = orErr (base64Groups (bytes.drop i)) := by
  fun_induction decodeFrom crate bytes i with
  | case1 i more ih =>
    rw [decodeGroup_eq fits more, index_ok fits more le_rfl]
    rw [← drop_drop] at ih
    match left : bytes.drop i, ih with
    | [], _ => exact absurd more (not_lt.mpr (drop_eq_nil_iff.mp left))
    | [_], _ => rfl
    | b0 :: b1 :: rest, ih =>
      rw [base64Groups_cons]
      dsimp only
      split
      · rfl
      · change crate.decodeFrom bytes (i + 4) = orErr (base64Groups (rest.drop 2)) at ih
        rw [ih]
        cases Host.decodeGroup b0 b1 (rest[0]?.getD 61) (rest[1]?.getD 61) with
        | none => rfl
        | some group => cases base64Groups (rest.drop 2) <;> rfl
  | case2 i done =>
    rw [drop_eq_nil_of_le (not_lt.mp done)]
    rfl

end

end CodecCrate

/-- The byte of a letter. -/
def letterByte (bits : Nat) : U8 :=
  ((String.utf8EncodeChar (base64Letter bits)).map UInt8.toFin).headD 0

theorem letterByte_spec : ∀ bits : Fin 64,
    (String.utf8EncodeChar (base64Letter bits)).map UInt8.toFin = [letterByte bits] ∧
      sextet (letterByte bits) = some bits.val ∧ letterByte bits ≠ 61 := by
  decide +kernel

theorem base64Groups_letters (data : List U8) : base64Groups ((base64Letters data).flatMap
    fun letter => (String.utf8EncodeChar letter).map UInt8.toFin) = some data := by
  have pad : (String.utf8EncodeChar '=').map UInt8.toFin = [61] := rfl
  have byte {b : U8} {number : Nat} (same : number = b.val) : Fin.ofNat 256 number = b := by
    rw [same]
    exact Fin.cast_val_eq_self b
  fun_induction base64Letters data with
  | case1 => rfl
  | case2 b0 =>
    obtain ⟨byte0, read0, start⟩ := letterByte_spec ⟨b0.val / 4, by omega⟩
    obtain ⟨byte1, read1, -⟩ := letterByte_spec ⟨b0.val % 4 * 16, by omega⟩
    simp [-Fin.ofNat_eq_cast, byte0, byte1, pad, base64Groups, start, decodeGroup, read0, read1]
    exact byte (by omega)
  | case3 b0 b1 =>
    obtain ⟨byte0, read0, start⟩ := letterByte_spec ⟨b0.val / 4, by omega⟩
    obtain ⟨byte1, read1, -⟩ := letterByte_spec ⟨b0.val % 4 * 16 + b1.val / 16, by omega⟩
    obtain ⟨byte2, read2, full2⟩ := letterByte_spec ⟨b1.val % 16 * 4, by omega⟩
    simp [-Fin.ofNat_eq_cast, byte0, byte1, byte2, pad, base64Groups, start, decodeGroup, read0,
      read1, read2, full2]
    exact ⟨byte (by omega), byte (by omega)⟩
  | case4 b0 b1 b2 rest ih =>
    obtain ⟨byte0, read0, start⟩ := letterByte_spec ⟨b0.val / 4, by omega⟩
    obtain ⟨byte1, read1, -⟩ := letterByte_spec ⟨b0.val % 4 * 16 + b1.val / 16, by omega⟩
    obtain ⟨byte2, read2, full2⟩ := letterByte_spec ⟨b1.val % 16 * 4 + b2.val / 64, by omega⟩
    obtain ⟨byte3, read3, full3⟩ := letterByte_spec ⟨b2.val % 64, by omega⟩
    simp [-Fin.ofNat_eq_cast, byte0, byte1, byte2, byte3, base64Groups, start, decodeGroup, read0,
      read1, read2, read3, full2, full3, ih]
    exact ⟨byte (by omega), byte (by omega), byte (by omega)⟩

/-- A text that fits into memory is read to its end. -/
theorem CodecCrate.base64Decode_eq (crate : CodecCrate) (text : String)
    (small : (utf8 text).length ≤ crate.isizeMax) :
    crate.base64Decode text = orErr (Host.base64Decode text) := by
  have room : (utf8 text).length + 3 < 2 ^ crate.wordBits ∧
      (utf8 text).length * 3 % 2 ^ crate.wordBits / 4 ≤ crate.isizeMax := by
    cases crate <;> simp only [isizeMax, wordBits] at small ⊢ <;> omega
  rw [CodecCrate.base64Decode, if_neg (not_lt.mpr room.2), decodeFrom_eq room.1]
  rfl

/-- Each decoder undoes each encoder, and none panics, on strings of any length that memory
can hold. -/
theorem base64_codecs_inverse (encoder decoder : CodecCrate) :
    (∀ data, (utf8 (encoder.base64Encode data)).length ≤ decoder.isizeMax →
      decoder.base64Decode (encoder.base64Encode data) = .ok data) ∧
    ∀ text, (utf8 text).length ≤ decoder.isizeMax → decoder.base64Decode text ≠ .error .panic := by
  constructor
  · intro data small
    have undone : Host.base64Decode (encoder.base64Encode data) = some data := by
      rw [← base64Groups_letters data, Host.base64Decode, CodecCrate.base64Encode, base64Encode,
        utf8, asBytes, String.toList_ofList, map_flatMap]
    rw [decoder.base64Decode_eq _ small, undone]
    rfl
  · intro text small
    rw [decoder.base64Decode_eq text small]
    cases Host.base64Decode text <;> intro failed <;> cases failed

/-- A text with padding, and one that is cut short. -/
theorem padded_text_decoded :
    CodecCrate.bridge.base64Decode (CodecCrate.server.base64Encode [1, 2, 3, 4]) =
        .ok [1, 2, 3, 4] ∧
      CodecCrate.hostCore.base64Decode "A" ≠ .error .panic :=
  ⟨(base64_codecs_inverse .server .bridge).1 _ (by decide),
    (base64_codecs_inverse .server .hostCore).2 _ (by decide)⟩

end NodalMerge.Host
