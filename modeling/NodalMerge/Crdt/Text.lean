import NodalMerge.Crdt.Op
import NodalMerge.Library.InsertAfter

/-! The source keeps the items in chunks with two Fenwick indexes; here they are one list,
tombstones included. Counters and dirty ranges are left out. -/

namespace NodalMerge

inductive TextProjectionMode where
  | disabled
  | enabled
  | parityCheck
  deriving DecidableEq

/-- One character of the flattened sequence, tombstones included. -/
structure Item where
  id : OpId
  ch : Char
  deleted : Bool
  deriving DecidableEq

structure TextProjection where
  items : List Item
  /-- Deletes that arrived before their target insert. -/
  pendingDeletes : Finset OpId
  /-- Inserts that arrived before their `after` anchor: parent to children. -/
  orphans : HashMap OpId (List (OpId × Char))
  orphanIds : Finset OpId

namespace TextProjection

def empty : TextProjection := ⟨[], ∅, ∅, ∅⟩

instance : Inhabited TextProjection := ⟨empty⟩

variable (projection : TextProjection)

def knows (id : OpId) : Bool :=
  projection.items.any (fun item => item.id = id)

def visible : List Item :=
  projection.items.filter (fun item => !item.deleted)

def visibleCharLen : Nat := projection.visible.length

def idAtVisibleOffset (offset : Nat) : Option OpId :=
  projection.visible[offset]?.map Item.id

/-- `None` when the id is unknown or tombstoned. -/
def visibleOffsetOfId (id : OpId) : Option Nat :=
  match projection.items.find? (fun item => item.id = id) with
  | none => none
  | some item =>
    if item.deleted then none
    else some (((projection.items.takeWhile (fun other => other.id ≠ id)).filter
      (fun other => !other.deleted)).length)

/-- Scan forward from behind the parent over the items with a larger id. A
pending delete makes the new item a tombstone at birth. -/
def integrate (id : OpId) (parent : Option OpId) (ch : Char) : TextProjection :=
  let item := ⟨id, ch, decide (id ∈ projection.pendingDeletes)⟩
  { projection with
    items := InsertAfter.insertAfter Item.id item parent projection.items
    pendingDeletes := projection.pendingDeletes.erase id }

/-- Integrate the buffered children of one parent in arrival order. -/
def adopt (parent : OpId) (children : List (OpId × Char)) : TextProjection :=
  children.foldl (fun current child =>
    { current with orphanIds := current.orphanIds.erase child.1 }.integrate
      child.1 (some parent) child.2) projection

theorem adopt_orphans (parent : OpId) (children : List (OpId × Char)) :
    (projection.adopt parent children).orphans = projection.orphans := by
  induction children generalizing projection with
  | nil => rfl
  | cons child rest ih => exact ih _

/-- The stack loop of `drain_orphans_of`: an adopted child is pushed and may
itself have buffered children. -/
def drain (projection : TextProjection) : List OpId → TextProjection
  | [] => projection
  | parent :: stack =>
    match _found : projection.orphans.lookup parent with
    | none => drain projection stack
    | some children =>
      let released := { projection with orphans := projection.orphans.erase parent }
      drain (released.adopt parent children) ((children.map Prod.fst).reverse ++ stack)
termination_by stack => (projection.orphans.keys.card, stack.length)
decreasing_by
  · exact Prod.Lex.right _ (Nat.lt_succ_self _)
  · apply Prod.Lex.left
    rw [adopt_orphans, Finmap.keys_erase]
    apply Finset.card_erase_lt_of_mem
    rw [Finmap.mem_keys, ← Finmap.lookup_isSome, _found]
    rfl

def drainOrphansOf (parent : OpId) : TextProjection :=
  if projection.orphans.keys = ∅ then projection else projection.drain [parent]

def deleteKnown (id : OpId) : TextProjection :=
  if projection.knows id then
    { projection with items := projection.items.map fun item =>
        if item.id = id then { item with deleted := true } else item }
  else { projection with pendingDeletes := insert id projection.pendingDeletes }

def applyInsert (id : OpId) (after : Option OpId) (ch : Char) : TextProjection :=
  if projection.knows id || decide (id ∈ projection.orphanIds) then projection
  else
    match after with
    | none => (projection.integrate id none ch).drainOrphansOf id
    | some parent =>
      if projection.knows parent then (projection.integrate id (some parent) ch).drainOrphansOf id
      else
        -- The anchor is not applied yet: buffer until the parent arrives.
        { projection with
          orphans := projection.orphans.insert parent
            ((projection.orphans.lookup parent).getD [] ++ [(id, ch)])
          orphanIds := insert id projection.orphanIds }

/-- An unknown or still-orphaned target is tombstoned at birth. -/
def applyDelete (target : OpId) : TextProjection :=
  if projection.knows target then projection.deleteKnown target
  else { projection with pendingDeletes := insert target projection.pendingDeletes }

/-- Anchor to visible index. A tombstoned or unknown id means the end. -/
def resolveAnchorIndex : TextRangeAnchor → Nat
  | .atStart => 0
  | .atEnd => projection.visibleCharLen
  | .offset index => min index projection.visibleCharLen
  | .after id =>
    match projection.visibleOffsetOfId id with
    | some offset => offset + 1
    | none => projection.visibleCharLen

/-- Id of the visible character the anchor points after (`none` is the start). -/
def resolveAnchorAfterVisible (anchor : TextRangeAnchor) : Option OpId :=
  let index := projection.resolveAnchorIndex anchor
  if index = 0 then none else projection.idAtVisibleOffset (index - 1)

/-- Identity of the character at `offset` in a range of transaction `base`. -/
def rangeCharId (base : OpId) (offset : Nat) : OpId :=
  ⟨saturatingAdd base.lamport offset, base.author⟩

/-- The character loop of `apply_range_insert`, from `offset` on. -/
def insertChars (projection : TextProjection) (base : OpId) (offset : Nat)
    (insertAfter : Option OpId) : List Char → TextProjection
  | [] => projection
  | ch :: rest =>
    (projection.applyInsert (rangeCharId base offset) insertAfter ch).insertChars base (offset + 1)
      (some (rangeCharId base offset)) rest

def applyRangeInsert (base : OpId) (anchor : TextRangeAnchor) (text : String) : TextProjection :=
  projection.insertChars base 0 (projection.resolveAnchorAfterVisible anchor) text.toList

/-- Tombstone the visible character at `start`, `count` times over. -/
def deleteAt (projection : TextProjection) (start : Nat) : Nat → TextProjection
  | 0 => projection
  | count + 1 =>
    match projection.idAtVisibleOffset start with
    | none => projection
    | some id => (projection.deleteKnown id).deleteAt start count

def applyRangeDelete (anchor : TextRangeAnchor) (lenChars : Nat) : TextProjection :=
  let start := projection.resolveAnchorIndex anchor
  projection.deleteAt start (min lenChars (projection.visibleCharLen - start))

/-- One text op of a transaction, when it is on `key`. -/
def applyOp (tx : Transaction) (key : String) (projection : TextProjection) :
    Op → TextProjection
  | .text (.insert opKey after ch) =>
    if opKey = key then projection.applyInsert tx.opId after ch else projection
  | .text (.delete opKey target) =>
    if opKey = key then projection.applyDelete target else projection
  | .text (.insertRange opKey anchor text) =>
    if opKey = key then projection.applyRangeInsert tx.opId anchor text else projection
  | .text (.deleteRange opKey anchor lenChars) =>
    if opKey = key then projection.applyRangeDelete anchor lenChars else projection
  | _ => projection

def applyNode (node : SyncNode) (key : String) : TextProjection :=
  node.transaction.ops.foldl (applyOp node.transaction key) projection

def fromNodes (nodes : List SyncNode) (key : String) : TextProjection :=
  nodes.foldl (fun projection node => projection.applyNode node key) empty

inductive UpdateOp where
  | insert (id : OpId) (after : Option OpId) (ch : Char)
  | delete (target : OpId)

def applyUpdatesCoalesced (updates : List UpdateOp) : TextProjection :=
  updates.foldl (fun current update =>
    match update with
    | .insert id after ch => current.applyInsert id after ch
    | .delete target => current.applyDelete target) projection

def resolveSeq : List (OpId × Char) :=
  projection.visible.map fun item => (item.id, item.ch)

def resolveString : String :=
  String.ofList (projection.visible.map Item.ch)

end TextProjection

end NodalMerge
