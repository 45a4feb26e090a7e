import Mathlib.Data.List.Basic
import Mathlib.Tactic

namespace Wire

abbrev Byte := Fin 256

structure Format (Value : Type) where
  write : Value → List Byte
  read : List Byte → Option (Value × List Byte)
  read_write : ∀ value rest, read (write value ++ rest) = some (value, rest)

namespace Format

variable {Value Other : Type}

def unit : Format Unit := ⟨fun _ => [], fun bytes => some ((), bytes), fun _ _ => rfl⟩

def readByte : List Byte → Option (Byte × List Byte)
  | [] => none
  | byte :: rest => some (byte, rest)

def byte : Format Byte := ⟨fun byte => [byte], readByte, fun _ _ => rfl⟩

def pair (first : Format Value) (second : Format Other) : Format (Value × Other) where
  write value := first.write value.1 ++ second.write value.2
  read bytes := do
    let (left, rest) ← first.read bytes
    let (right, rest) ← second.read rest
    return ((left, right), rest)
  read_write value rest := by
    rw [List.append_assoc]
    simp [first.read_write, second.read_write]

/-- The format of a type whose values can be turned into those of another. -/
def through (format : Format Other) (pack : Value → Other) (unpack : Other → Option Value)
    (unpack_pack : ∀ value, unpack (pack value) = some value) : Format Value where
  write value := format.write (pack value)
  read bytes := do
    let (packed, rest) ← format.read bytes
    let value ← unpack packed
    return (value, rest)
  read_write value rest := by simp [format.read_write, unpack_pack]

/-- The lowest eight bits of a number. -/
def octet (number : Nat) : Byte := ⟨number % 256, Nat.mod_lt number (Nat.zero_lt_succ 255)⟩

/-- Seven bits a byte, least significant first; the top bit says that more follow. -/
def writeVarint (number : Nat) : List Byte :=
  if number < 128 then [octet number]
  else octet (number % 128 + 128) :: writeVarint (number / 128)

def readVarint : List Byte → Option (Nat × List Byte)
  | [] => none
  | byte :: rest =>
    if byte.val < 128 then some (byte.val, rest)
    else (readVarint rest).map fun (high, rest) => (byte.val - 128 + 128 * high, rest)

theorem readVarint_writeVarint (number : Nat) (rest : List Byte) :
    readVarint (writeVarint number ++ rest) = some (number, rest) := by
  induction number using Nat.strong_induction_on with
  | _ number ih =>
    rw [writeVarint]
    split
    · rename_i small
      have low : number % 256 = number := Nat.mod_eq_of_lt (by omega)
      simp [readVarint, octet, low, small]
    · rename_i large
      have low : (number % 128 + 128) % 256 = number % 128 + 128 := Nat.mod_eq_of_lt (by omega)
      have whole : number % 128 + 128 * (number / 128) = number := Nat.mod_add_div number 128
      simp [readVarint, octet, low, ih (number / 128) (by omega), whole]

def varint : Format Nat := ⟨writeVarint, readVarint, readVarint_writeVarint⟩

def readMany (format : Format Value) : Nat → List Byte → Option (List Value × List Byte)
  | 0, bytes => some ([], bytes)
  | count + 1, bytes => do
    let (value, rest) ← format.read bytes
    let (values, rest) ← readMany format count rest
    return (value :: values, rest)

theorem readMany_flatMap (format : Format Value) (values : List Value) (rest : List Byte) :
    readMany format values.length (values.flatMap format.write ++ rest) = some (values, rest) := by
  induction values with
  | nil => rfl
  | cons value values ih =>
    simp [readMany, format.read_write, ih]

/-- The values of a list one after another, without their number. -/
def fixed (format : Format Value) (count : Nat) :
    Format { values : List Value // values.length = count } where
  write values := values.val.flatMap format.write
  read bytes := do
    let (values, rest) ← readMany format count bytes
    if size : values.length = count then return (⟨values, size⟩, rest) else none
  read_write values rest := by
    obtain ⟨values, rfl⟩ := values
    simp [readMany_flatMap]

def list (format : Format Value) : Format (List Value) where
  write values := writeVarint values.length ++ values.flatMap format.write
  read bytes := do
    let (count, rest) ← readVarint bytes
    readMany format count rest
  read_write values rest := by
    rw [List.append_assoc]
    simp [readVarint_writeVarint, readMany_flatMap]

end Format

/-- The alternatives of a union, numbered from zero. -/
structure Variants (Value : Type) where
  tag : Value → Nat
  write : Value → List Byte
  read : Nat → List Byte → Option (Value × List Byte)
  read_write : ∀ value rest, read (tag value) (write value ++ rest) = some (value, rest)

namespace Variants

variable {Value Other : Type}

def last (format : Format Value) : Variants Value where
  tag _ := 0
  write := format.write
  read
    | 0, bytes => format.read bytes
    | _ + 1, _ => none
  read_write := format.read_write

def cons (format : Format Value) (others : Variants Other) : Variants (Value ⊕ Other) where
  tag
    | .inl _ => 0
    | .inr other => others.tag other + 1
  write
    | .inl value => format.write value
    | .inr other => others.write other
  read
    | 0, bytes => (format.read bytes).map fun (value, rest) => (.inl value, rest)
    | tag + 1, bytes => (others.read tag bytes).map fun (other, rest) => (.inr other, rest)
  read_write
    | .inl value, rest => by simp [format.read_write]
    | .inr other, rest => by simp [others.read_write]

/-- The number of the alternative and then its fields. -/
def format (variants : Variants Value) : Format Value where
  write value := Format.writeVarint (variants.tag value) ++ variants.write value
  read bytes := do
    let (tag, rest) ← Format.readVarint bytes
    variants.read tag rest
  read_write value rest := by
    rw [List.append_assoc]
    simp [Format.readVarint_writeVarint, variants.read_write]

end Variants

namespace Format

/-- `none` is the first alternative. -/
def option {Value : Type} (format : Format Value) : Format (Option Value) :=
  through (Variants.cons unit (.last format)).format
    (fun | none => .inl () | some value => .inr value)
    (fun | .inl _ => some none | .inr value => some (some value))
    (fun | none => rfl | some _ => rfl)

end Format

end Wire
