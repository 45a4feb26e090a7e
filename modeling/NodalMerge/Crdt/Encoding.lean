import NodalMerge.Crdt.Policy

namespace NodalMerge

open List

/-- `str::as_bytes` over the byte type that hashes and keys use. -/
def utf8 (text : String) : List U8 := (asBytes text).map UInt8.toFin

theorem asBytes_toByteArray (text : String) : (asBytes text).toByteArray = text.toByteArray := by
  conv => rhs; rw [← String.ofList_toList (s := text), String.toByteArray_ofList]
  rfl

theorem asBytes_injective : Function.Injective asBytes := by
  intro first second same
  apply String.toByteArray_inj.mp
  rw [← asBytes_toByteArray, ← asBytes_toByteArray, same]

theorem utf8_injective : Function.Injective utf8 := by
  intro first second same
  refine asBytes_injective (map_injective_iff.mpr ?_ same)
  intro byte other equal
  exact UInt8.toFin_inj.mp equal

/-- `to_le_bytes` of an unsigned integer of the given number of bytes. -/
def toLeBytes : Nat → Nat → List U8
  | 0, _ => []
  | width + 1, value => Fin.ofNat 256 value :: toLeBytes width (value / 256)

@[simp] theorem toLeBytes_length (width value : Nat) : (toLeBytes width value).length = width := by
  induction width generalizing value with
  | zero => rfl
  | succ width ih => simp [toLeBytes, ih]

theorem toLeBytes_inj (firstFits : first < 256 ^ width) (secondFits : second < 256 ^ width)
    (same : toLeBytes width first = toLeBytes width second) : first = second := by
  induction width generalizing first second with
  | zero => omega
  | succ width ih =>
    obtain ⟨low, high⟩ := List.cons.inj same
    have lowSame : first % 256 = second % 256 := congrArg Fin.val low
    have highSame := ih (by omega) (by omega) high
    omega

/-- A byte string behind its length is read back from the front of any longer one. -/
theorem framed_inj (fits : one.length < 256 ^ width) (fits' : other.length < 256 ^ width)
    (same : toLeBytes width one.length ++ (one ++ rest) =
      toLeBytes width other.length ++ (other ++ rest')) : one = other ∧ rest = rest' := by
  obtain ⟨sizes, bodies⟩ := append_inj same (by simp)
  exact append_inj bodies (toLeBytes_inj fits fits' sizes)

theorem toLeBytes_surjective (size : bytes.length = width) :
    ∃ value, value < 256 ^ width ∧ toLeBytes width value = bytes := by
  induction width generalizing bytes with
  | zero => exact ⟨0, by simp, (eq_nil_of_length_eq_zero size).symm⟩
  | succ width ih =>
    obtain ⟨byte, rest, rfl⟩ := exists_cons_of_length_eq_add_one size
    obtain ⟨high, fits, encodes⟩ := ih (Nat.succ.inj size)
    refine ⟨byte.val + 256 * high, ?_, ?_⟩
    · have bound := byte.isLt
      omega
    · have lowByte : Fin.ofNat 256 (byte.val + 256 * high) = byte := by
        apply Fin.ext
        simp only [Fin.val_ofNat]
        omega
      have highBytes : (byte.val + 256 * high) / 256 = high := by
        omega
      rw [toLeBytes, lowByte, highBytes, encodes]

/-- Only zero encodes as zero bytes. -/
theorem toLeBytes_eq_zero_iff (fits : value < 256 ^ width) :
    (∀ byte ∈ toLeBytes width value, byte = 0) ↔ value = 0 := by
  have zeros : toLeBytes width 0 = List.replicate width 0 := by
    clear fits
    induction width with
    | zero => rfl
    | succ width ih => rw [toLeBytes, Nat.zero_div, ih, replicate_succ]; rfl
  constructor
  · intro all
    refine toLeBytes_inj fits (Nat.pos_of_neZero _) ?_
    rw [zeros]
    exact eq_replicate_iff.mpr ⟨toLeBytes_length _ _, all⟩
  · rintro rfl byte member
    rw [zeros] at member
    exact eq_of_mem_replicate member

/-- `from_le_bytes`. -/
def fromLeBytes (bytes : List U8) : Nat := bytes.foldr (fun byte high => byte.val + 256 * high) 0

/-- `<[u8; n]>::try_from` of a slice. -/
def Bytes.ofList? (n : Nat) (bytes : List U8) : Option (Bytes n) :=
  if size : bytes.length = n then some ⟨bytes, size⟩ else none

@[simp] theorem Bytes.ofList?_val {n : Nat} (bytes : Bytes n) :
    Bytes.ofList? n bytes.val = some bytes := dif_pos bytes.property

/-- A serialization that can be read back. -/
structure Codec (Value : Type) where
  encode : Value → List U8
  decode : List U8 → Option Value
  roundTrip : ∀ value, decode (encode value) = some value

end NodalMerge
