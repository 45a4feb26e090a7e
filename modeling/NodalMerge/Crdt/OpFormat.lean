import NodalMerge.Crdt.Encoding
import NodalMerge.Library.Wire

/-! The `postcard` format of a list of ops. Integers are not bounded here. -/

namespace NodalMerge

open List Wire

/-- `String::from_utf8`. -/
def fromUtf8 (bytes : List U8) : Option String :=
  String.fromUTF8? (bytes.map UInt8.ofFin).toByteArray

theorem fromUtf8_utf8 (text : String) : fromUtf8 (utf8 text) = some text := by
  have bytes : ((utf8 text).map UInt8.ofFin).toByteArray = text.toByteArray := by
    rw [utf8, map_map, ← asBytes_toByteArray]
    congr 1
    exact map_id'' (fun _ => rfl) _
  rw [fromUtf8, bytes]
  exact dif_pos text.isValidUTF8

def bytesFormat : Format (List U8) := .list .byte

def stringFormat : Format String := .through bytesFormat utf8 fromUtf8 fromUtf8_utf8

/-- A `char` is written as a text of its own. -/
def charFormat : Format Char :=
  .through stringFormat String.singleton (fun text => text.toList.head?) (fun _ => by simp)

def opIdFormat : Format OpId :=
  .through (.pair .varint (.fixed .byte 32)) (fun id => (id.lamport, id.author))
    (fun (lamport, author) => some ⟨lamport, author⟩) (fun _ => rfl)

def mapOpFormat : Format MapOp :=
  .through (Variants.cons (.pair stringFormat bytesFormat)
      (.cons stringFormat (.last (.pair stringFormat (.fixed .byte 32))))).format
    (fun
      | .set key value => .inl (key, value)
      | .delete key => .inr (.inl key)
      | .setBlob key blobHash => .inr (.inr (key, blobHash)))
    (fun
      | .inl (key, value) => some (.set key value)
      | .inr (.inl key) => some (.delete key)
      | .inr (.inr (key, blobHash)) => some (.setBlob key blobHash))
    (fun op => by cases op <;> rfl)

def listOpFormat : Format ListOp :=
  .through (Variants.cons (.pair stringFormat (.pair (.fixed .byte 16) stringFormat))
      (.cons (.pair stringFormat (.fixed .byte 16))
        (.last (.pair stringFormat (.pair (.fixed .byte 16) stringFormat))))).format
    (fun
      | .insert listKey itemId position => .inl (listKey, itemId, position)
      | .delete listKey itemId => .inr (.inl (listKey, itemId))
      | .move listKey itemId position => .inr (.inr (listKey, itemId, position)))
    (fun
      | .inl (listKey, itemId, position) => some (.insert listKey itemId position)
      | .inr (.inl (listKey, itemId)) => some (.delete listKey itemId)
      | .inr (.inr (listKey, itemId, position)) => some (.move listKey itemId position))
    (fun op => by cases op <;> rfl)

def anchorFormat : Format TextRangeAnchor :=
  .through (Variants.cons .unit (.cons .unit (.cons opIdFormat (.last .varint)))).format
    (fun
      | .atStart => .inl ()
      | .atEnd => .inr (.inl ())
      | .after id => .inr (.inr (.inl id))
      | .offset index => .inr (.inr (.inr index)))
    (fun
      | .inl () => some .atStart
      | .inr (.inl ()) => some .atEnd
      | .inr (.inr (.inl id)) => some (.after id)
      | .inr (.inr (.inr index)) => some (.offset index))
    (fun anchor => by cases anchor <;> rfl)

def textOpFormat : Format TextOp :=
  .through (Variants.cons (.pair stringFormat (.pair (.option opIdFormat) charFormat))
      (.cons (.pair stringFormat opIdFormat)
        (.cons (.pair stringFormat (.pair anchorFormat stringFormat))
          (.last (.pair stringFormat (.pair anchorFormat .varint)))))).format
    (fun
      | .insert key after ch => .inl (key, after, ch)
      | .delete key target => .inr (.inl (key, target))
      | .insertRange key anchor text => .inr (.inr (.inl (key, anchor, text)))
      | .deleteRange key anchor lenChars => .inr (.inr (.inr (key, anchor, lenChars))))
    (fun
      | .inl (key, after, ch) => some (.insert key after ch)
      | .inr (.inl (key, target)) => some (.delete key target)
      | .inr (.inr (.inl (key, anchor, text))) => some (.insertRange key anchor text)
      | .inr (.inr (.inr (key, anchor, lenChars))) => some (.deleteRange key anchor lenChars))
    (fun op => by cases op <;> rfl)

def opFormat : Format Op :=
  .through (Variants.cons mapOpFormat (.cons listOpFormat (.last textOpFormat))).format
    (fun
      | .map op => .inl op
      | .list op => .inr (.inl op)
      | .text op => .inr (.inr op))
    (fun
      | .inl op => some (.map op)
      | .inr (.inl op) => some (.list op)
      | .inr (.inr op) => some (.text op))
    (fun op => by cases op <;> rfl)

/-- `postcard::to_allocvec` and `postcard::from_bytes`, which ignores bytes
after the value. -/
def Codec.ofFormat {Value : Type} (format : Format Value) : Codec Value where
  encode := format.write
  decode bytes := (format.read bytes).map Prod.fst
  roundTrip value := by
    have read := format.read_write value []
    rw [append_nil] at read
    rw [read]
    rfl

def opsCodec : Codec (List Op) := .ofFormat (.list opFormat)

example : opsCodec.encode [.map (.set "k" [7, 8])] = [1, 0, 0, 1, 107, 2, 7, 8] := by decide +kernel

/-- The value of a map op is written out in full. -/
theorem opsCodec_set_length (key : String) (value : List U8) :
    value.length ≤ (opsCodec.encode [.map (.set key value)]).length := by
  have inside : opsCodec.encode [.map (.set key value)] =
      Format.writeVarint 1 ++ (Format.writeVarint 0 ++ (Format.writeVarint 0 ++
        (stringFormat.write key ++ bytesFormat.write value))) :=
    congrArg (Format.writeVarint 1 ++ ·) (flatMap_singleton opFormat.write _)
  have bytes : bytesFormat.write value = Format.writeVarint value.length ++ value :=
    congrArg (Format.writeVarint value.length ++ ·) (flatMap_singleton' value)
  rw [inside, bytes]
  simp only [length_append]
  omega

end NodalMerge
