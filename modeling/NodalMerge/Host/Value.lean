import NodalMerge.Archive.Manifest

namespace NodalMerge.Host

open List Option

/-- `serde_json::Number`; a float is given by the text it prints as. -/
inductive Number where
  | posInt (n : Nat)
  | negInt (n : Int)
  | float (text : String)

def Number.text : Number → String
  | .posInt n => toString n
  | .negInt n => toString n
  | .float text => text

/-- `serde_json::Value`. The fields of an object come in the order of their keys. -/
inductive Value where
  | null
  | bool (flag : Bool)
  | number (n : Number)
  | string (text : String)
  | array (items : List Value)
  | object (fields : List (String × Value))

def backslash : Char := Char.ofNat 92

/-- How a character stands in a JSON string. -/
def escape (char : Char) : List Char :=
  match char.toNat with
  | 34 | 92 => [backslash, char]
  | 8 => [backslash, 'b']
  | 9 => [backslash, 't']
  | 10 => [backslash, 'n']
  | 12 => [backslash, 'f']
  | 13 => [backslash, 'r']
  | code =>
    if code < 32 then
      [backslash, 'u', '0', '0', (code / 16).digitChar, (code % 16).digitChar]
    else [char]

def quote (text : String) : String :=
  String.ofList (Char.ofNat 34 :: (text.toList.flatMap escape ++ [Char.ofNat 34]))

namespace Value

mutual

/-- `Value::to_string`. -/
def text : Value → String
  | null => "null"
  | bool flag => toString flag
  | number n => n.text
  | string raw => quote raw
  | array items => "[" ++ ",".intercalate (itemTexts items) ++ "]"
  | object fields => "\x7b" ++ ",".intercalate (fieldTexts fields) ++ "\x7d"

def itemTexts : List Value → List String
  | [] => []
  | item :: rest => item.text :: itemTexts rest

def fieldTexts : List (String × Value) → List String
  | [] => []
  | (key, value) :: rest => (quote key ++ ":" ++ value.text) :: fieldTexts rest

end

def get (key : String) : Value → Option Value
  | object fields => fields.lookup key
  | _ => none

/-- `value[key]`. -/
def index (key : String) (value : Value) : Value := (value.get key).getD null

def asStr : Value → Option String
  | string raw => some raw
  | _ => none

def asU64 : Value → Option Nat
  | number (.posInt n) => some n
  | _ => none

def asArray : Value → Option (List Value)
  | array items => some items
  | _ => none

/-- A string as it is, anything else as its JSON text. -/
def plainText : Value → String
  | string raw => raw
  | other => other.text

end Value

/-- `str::eq_ignore_ascii_case`. -/
def eqIgnoreAsciiCase (one other : String) : Bool :=
  one.toList.map Char.toLower = other.toList.map Char.toLower

/-- `str::strip_prefix`. -/
def stripPrefix (start text : String) : Option String :=
  if start.toList.isPrefixOf text.toList then
    some (String.ofList (text.toList.drop start.toList.length))
  else none

def startsWith (start text : String) : Bool := start.toList.isPrefixOf text.toList

/-- `str::contains`. -/
def containsText (part text : String) : Bool :=
  text.toList.tails.any fun rest => part.toList.isPrefixOf rest

/-- `str::parse::<u64>`, and `parse::<usize>` on a 64-bit machine. -/
def parseU64 (text : String) : Option Nat :=
  let digits :=
    match text.toList with
    | '+' :: rest => rest
    | chars => chars
  if digits.isEmpty || !digits.all Char.isDigit then none
  else if Nat.ofDigitChars 10 digits 0 ≤ u64Max then some (Nat.ofDigitChars 10 digits 0)
  else none

theorem parseU64_le (parsed : parseU64 text = some number) : number ≤ u64Max := by
  simp only [parseU64, ite_none_left_eq_some, ite_none_right_eq_some,
    Option.some.injEq] at parsed
  obtain ⟨-, fits, rfl⟩ := parsed
  exact fits

/-- The characters that take up the first bytes; `none` when the cut falls inside one
or behind the end. -/
def takeBytes : Nat → List Char → Option (List Char)
  | 0, _ => some []
  | _ + 1, [] => none
  | count + 1, char :: rest =>
    if char.utf8Size ≤ count + 1 then
      (takeBytes (count + 1 - char.utf8Size) rest).map (char :: ·)
    else none

/-- `&text[..count]`; `none` is the panic off a character boundary. -/
def sliceTo (text : String) (count : Nat) : Option String :=
  (takeBytes count text.toList).map String.ofList

/-- The bytes that some characters take up. -/
def byteLength (chars : List Char) : Nat := (chars.map Char.utf8Size).sum

theorem utf8_length (text : String) : (utf8 text).length = byteLength text.toList := by
  rw [utf8, length_map, asBytes, length_flatMap, byteLength]
  congr 2
  exact funext fun char => String.length_utf8EncodeChar char

theorem isSome_takeBytes {count : Nat} :
    (takeBytes count chars).isSome ↔ ∃ front, front <+: chars ∧ byteLength front = count := by
  induction chars generalizing count with
  | nil =>
    cases count with
    | zero => simp [takeBytes, byteLength]
    | succ count => simp [takeBytes, byteLength]
  | cons char rest ih =>
    cases count with
    | zero =>
      exact ⟨fun _ => ⟨[], nil_prefix, rfl⟩, fun _ => rfl⟩
    | succ count =>
      rw [takeBytes]
      constructor
      · intro taken
        split at taken
        · rename_i fits
          obtain ⟨front, starts, size⟩ := ih.mp (isSome_map.symm.trans taken)
          refine ⟨char :: front, cons_prefix_cons.mpr ⟨rfl, starts⟩, ?_⟩
          rw [byteLength] at size ⊢
          rw [map_cons, sum_cons, size]
          omega
        · cases taken
      · intro ⟨front, starts, size⟩
        obtain rfl | ⟨tail, rfl, tailStarts⟩ := prefix_cons_iff.mp starts
        · cases size
        · rw [byteLength, map_cons, sum_cons] at size
          rw [if_pos (by omega), isSome_map]
          exact ih.mpr ⟨tail, tailStarts, by rw [byteLength]; omega⟩

section
/-- `&items[first..last]`; `none` is the panic on a bad range. -/
def sliceRange (items : List α) (first last : Nat) : Option (List α) :=
  if first ≤ last ∧ last ≤ items.length then some ((items.take last).drop first) else none

/-- `Vec::insert`; `none` is the panic behind the end. -/
def vecInsert (items : List α) (index : Nat) (item : α) : Option (List α) :=
  if index ≤ items.length then some (items.insertIdx index item) else none

/-- `Vec::remove`; `none` is the panic behind the end. -/
def vecRemove (items : List α) (index : Nat) : Option (α × List α) :=
  (items[index]?).map fun item => (item, items.eraseIdx index)

/-- `*counter += 1` on a `u64`; `none` is the overflow. -/
def increment (counter : Nat) : Option Nat :=
  if counter < u64Max then some (counter + 1) else none

/-- `one + other` on `usize`; `none` is the overflow. -/
def checkedAdd (one other : Nat) : Option Nat :=
  if one + other ≤ u64Max then some (one + other) else none

end

/-- The six bits of a letter of the alphabet. -/
def sextet (byte : U8) : Option Nat :=
  let code := byte.val
  if 65 ≤ code ∧ code ≤ 90 then some (code - 65)
  else if 97 ≤ code ∧ code ≤ 122 then some (code - 97 + 26)
  else if 48 ≤ code ∧ code ≤ 57 then some (code - 48 + 52)
  else if code = 43 then some 62
  else if code = 47 then some 63
  else none

/-- The bytes of one group of four letters; 61 is `=`. -/
def decodeGroup (b0 b1 b2 b3 : U8) : Option (List U8) := do
  let v0 ← sextet b0
  let v1 ← sextet b1
  let first := Fin.ofNat 256 (v0 * 4 + v1 / 16)
  if b2 = 61 then return [first]
  let v2 ← sextet b2
  let second := Fin.ofNat 256 (v1 % 16 * 16 + v2 / 4)
  if b3 = 61 then return [first, second]
  let v3 ← sextet b3
  return [first, second, Fin.ofNat 256 (v2 % 4 * 64 + v3)]

/-- A group that starts with `=` ends the text; the last group may be cut short. -/
def base64Groups : List U8 → Option (List U8)
  | [] => some []
  | [_] => none
  | [b0, b1] => if b0 = 61 then some [] else decodeGroup b0 b1 61 61
  | [b0, b1, b2] => if b0 = 61 then some [] else decodeGroup b0 b1 b2 61
  | b0 :: b1 :: b2 :: b3 :: rest =>
    if b0 = 61 then some []
    else do
      let bytes ← decodeGroup b0 b1 b2 b3
      let later ← base64Groups rest
      return bytes ++ later

def base64Decode (text : String) : Option (List U8) := base64Groups (utf8 text)

def base64Letter (bits : Nat) : Char :=
  if bits < 26 then Char.ofNat (65 + bits)
  else if bits < 52 then Char.ofNat (97 + (bits - 26))
  else if bits < 62 then Char.ofNat (48 + (bits - 52))
  else if bits = 62 then '+'
  else '/'

def base64Letters : List U8 → List Char
  | [] => []
  | [b0] => [base64Letter (b0.val / 4), base64Letter (b0.val % 4 * 16), '=', '=']
  | [b0, b1] =>
    [base64Letter (b0.val / 4), base64Letter (b0.val % 4 * 16 + b1.val / 16),
      base64Letter (b1.val % 16 * 4), '=']
  | b0 :: b1 :: b2 :: rest =>
    base64Letter (b0.val / 4) :: base64Letter (b0.val % 4 * 16 + b1.val / 16) ::
      base64Letter (b1.val % 16 * 4 + b2.val / 64) :: base64Letter (b2.val % 64) ::
      base64Letters rest

def base64Encode (data : List U8) : String := String.ofList (base64Letters data)

/-- The canonical rows of a room. -/
abbrev Rows := HashMap String Value

/-- The entries of a map in the order of the keys. -/
def sortedEntries {Key Entry : Type} [LinearOrder Key] (map : HashMap Key Entry) :
    List (Key × Entry) :=
  (inOrder map.keys).filterMap fun key => (map.lookup key).map fun entry => (key, entry)

/-- The bytes of a value in hashes and in promoted nodes. -/
def valueBytes (value : Value) : List U8 := utf8 value.plainText

def Hash.toHex (hash : Hash) : String := hexLower hash.val

/-- The 64-digit digest of a label. -/
def deterministicHex64 (crypto : Crypto) (input : String) : String :=
  Hash.toHex (crypto.blake3 (utf8 input))

def contentCanonicalHash (crypto : Crypto) (rows : Rows) : String :=
  Hash.toHex (canonicalHash crypto ((sortedEntries rows).map fun row => (row.1, valueBytes row.2)))

def emptyRowsCanonicalHash (crypto : Crypto) : String := contentCanonicalHash crypto ∅

theorem mem_sortedEntries {Key Entry : Type} [LinearOrder Key] {map : HashMap Key Entry}
    {key : Key} {entry : Entry} :
    (key, entry) ∈ sortedEntries map ↔ map.lookup key = some entry := by
  simp only [sortedEntries, inOrder_eq_sort, mem_filterMap, Option.map_eq_some_iff, Finset.mem_sort,
    Prod.mk.injEq]
  constructor
  · rintro ⟨_, -, _, found, rfl, rfl⟩
    exact found
  · intro found
    exact ⟨key, Finmap.mem_keys.mpr (Finmap.mem_of_lookup_eq_some found), entry, found, rfl, rfl⟩

/-- The bytes that are hashed for a map determine it. -/
theorem canonicalBytes_determine_map (one other : HashMap String (List U8))
    (short : ∀ entry ∈ sortedEntries one, ShortEntry entry)
    (short' : ∀ entry ∈ sortedEntries other, ShortEntry entry)
    (same : canonicalBytes (sortedEntries one) = canonicalBytes (sortedEntries other)) :
    one = other := by
  refine Finmap.ext_lookup fun key => Option.ext fun entry => ?_
  rw [← mem_sortedEntries, eq_of_canonicalBytes_eq short short' same, mem_sortedEntries]

theorem canonicalBytes_determine_overwritten :
    ((∅ : HashMap String (List U8)).insert "a" [1]).insert "a" [2] = Finmap.singleton "a" [2] := by
  have short : ∀ entry ∈ [("a", [(2 : U8)])], ShortEntry entry := by decide
  have one : sortedEntries (((∅ : HashMap String (List U8)).insert "a" [1]).insert "a" [2]) =
      [("a", [2])] := by decide
  have other : sortedEntries (Finmap.singleton "a" [2] : HashMap String (List U8)) =
      [("a", [2])] := by decide
  exact canonicalBytes_determine_map _ _ (one ▸ short) (other ▸ short) (by rw [one, other])

end NodalMerge.Host
