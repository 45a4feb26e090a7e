import Mathlib.Data.Finmap
import Mathlib.Data.Finset.Sort
import Mathlib.Data.List.Lex
import Mathlib.Data.Prod.Lex
import Mathlib.Data.String.Basic
import Mathlib.Order.Fin.Basic
import Mathlib.Tactic

/-! Lamport and wall clocks are natural numbers here, and every place where the source
saturates or may overflow says so. -/

namespace NodalMerge

abbrev U8 := Fin 256

instance U8.neZero : NeZero 256 := ⟨by decide⟩

/-- A fixed-size array `[u8; n]`, ordered lexicographically as in the source. -/
abbrev Bytes (n : Nat) := { bytes : List U8 // bytes.length = n }

def Bytes.zero (n : Nat) : Bytes n := ⟨List.replicate n 0, by simp⟩

/-- Cut to size or fill up with zeros. -/
def Bytes.padTo (n : Nat) (bytes : List U8) : Bytes n :=
  ⟨(bytes ++ List.replicate n 0).take n, by simp⟩

def u64Max : Nat := 2 ^ 64 - 1

/-- `u64::saturating_add`. -/
def saturatingAdd (a b : Nat) : Nat := min (a + b) u64Max

/-- A `HashMap`: two maps with the same lookups are equal. -/
abbrev HashMap (Key Value : Type) := Finmap (fun _ : Key => Value)

theorem lookup_insert_ite {Key Value : Type} [DecidableEq Key] (map : HashMap Key Value)
    (key other : Key) (value : Value) :
    (map.insert other value).lookup key = if key = other then some value else map.lookup key := by
  by_cases same : key = other
  · subst same
    simp
  · simp [same, Finmap.lookup_insert_of_ne]

/-- The items in ascending order, inserted one by one so that it can be evaluated. -/
def inOrder {Item : Type} [LinearOrder Item] (items : Finset Item) : List Item :=
  Quot.liftOn items.val (List.insertionSort (· ≤ ·)) fun one other perm =>
    (((List.perm_insertionSort _ one).trans perm).trans
      (List.perm_insertionSort _ other).symm).eq_of_pairwise' (List.pairwise_insertionSort _ _)
      (List.pairwise_insertionSort _ _)

section
variable {Item : Type} [LinearOrder Item]

theorem inOrder_eq_sort (items : Finset Item) : inOrder items = items.sort := by
  obtain ⟨⟨list⟩, nodup⟩ := items
  exact ((List.perm_insertionSort _ list).trans (List.mergeSort_perm list _).symm).eq_of_pairwise'
    (List.pairwise_insertionSort _ _) (Multiset.pairwise_sort _ _)

theorem inOrder_nodup (items : Finset Item) : (inOrder items).Nodup := by
  rw [inOrder_eq_sort]
  exact items.sort_nodup _

theorem inOrder_toFinset [DecidableEq Item] (items : Finset Item) :
    (inOrder items).toFinset = items := by
  ext item
  rw [List.mem_toFinset, inOrder_eq_sort, Finset.mem_sort]

end

/-- Keys in the order of a `BTreeMap`. -/
def sortedKeys (keys : Finset String) : List String := inOrder keys

theorem mem_sortedKeys : key ∈ sortedKeys keys ↔ key ∈ keys := by
  rw [sortedKeys, inOrder_eq_sort, Finset.mem_sort]

theorem sortedKeys_pairwise (keys : Finset String) : (sortedKeys keys).Pairwise (· < ·) := by
  rw [sortedKeys, inOrder_eq_sort]
  exact (Finset.sortedLT_sort keys).pairwise

/-- The order in which a `HashSet` happens to be iterated. -/
structure Enumeration {α : Type} [DecidableEq α] (elements : Finset α) where
  toList : List α
  nodup : toList.Nodup
  covers : toList.toFinset = elements

abbrev Hash := Bytes 32
abbrev NodeId := Hash
abbrev PublicKey := Bytes 32
abbrev Signature := Bytes 64
abbrev ItemId := Bytes 16

/-- `(lamport, author)` compared lexicographically: the last-writer-wins order. -/
abbrev Priority := Nat ×ₗ PublicKey

def Priority.zero : Priority := toLex (0, Bytes.zero 32)

/-- Stable identity of a character of the text sequence. -/
structure OpId where
  lamport : Nat
  author : PublicKey
  deriving DecidableEq

def OpId.priority (id : OpId) : Priority := toLex (id.lamport, id.author)

theorem OpId.priority_injective : Function.Injective OpId.priority := by
  intro first second same
  cases first
  cases second
  simpa [OpId.priority] using same

instance : LinearOrder OpId := LinearOrder.lift' OpId.priority OpId.priority_injective

/-- A fractional index position; `String` order is the byte order of UTF-8. -/
abbrev FracIdx := String

inductive MapOp where
  | set (key : String) (value : List U8)
  | delete (key : String)
  | setBlob (key : String) (blobHash : Hash)
  deriving DecidableEq

def MapOp.key : MapOp → String
  | .set key _ => key
  | .delete key => key
  | .setBlob key _ => key

inductive ListOp where
  | insert (listKey : String) (itemId : ItemId) (position : FracIdx)
  | delete (listKey : String) (itemId : ItemId)
  | move (listKey : String) (itemId : ItemId) (position : FracIdx)
  deriving DecidableEq

def ListOp.key : ListOp → String
  | .insert listKey _ _ => listKey
  | .delete listKey _ => listKey
  | .move listKey _ _ => listKey

def ListOp.itemId : ListOp → ItemId
  | .insert _ itemId _ => itemId
  | .delete _ itemId => itemId
  | .move _ itemId _ => itemId

inductive TextRangeAnchor where
  | atStart
  | atEnd
  | after (id : OpId)
  | offset (index : Nat)
  deriving DecidableEq

inductive TextOp where
  | insert (key : String) (after : Option OpId) (ch : Char)
  | delete (key : String) (target : OpId)
  | insertRange (key : String) (anchor : TextRangeAnchor) (text : String)
  | deleteRange (key : String) (anchor : TextRangeAnchor) (lenChars : Nat)
  deriving DecidableEq

def TextOp.key : TextOp → String
  | .insert key _ _ => key
  | .delete key _ => key
  | .insertRange key _ _ => key
  | .deleteRange key _ _ => key

inductive TextRangeOp where
  | insert (key : String) (anchor : TextRangeAnchor) (text : String)
  | delete (key : String) (anchor : TextRangeAnchor) (lenChars : Nat)
  deriving DecidableEq

inductive Op where
  | map (op : MapOp)
  | list (op : ListOp)
  | text (op : TextOp)
  deriving DecidableEq

def Op.key : Op → String
  | .map op => op.key
  | .list op => op.key
  | .text op => op.key

structure Transaction where
  author : PublicKey
  lamport : Nat
  wallMs : Nat
  ops : List Op
  parents : List Hash
  deriving DecidableEq

def Transaction.priority (tx : Transaction) : Priority := toLex (tx.lamport, tx.author)

def Transaction.opId (tx : Transaction) : OpId := ⟨tx.lamport, tx.author⟩

structure SyncNode where
  id : NodeId
  transaction : Transaction
  signature : Signature
  deriving DecidableEq

def SyncNode.parents (node : SyncNode) : List Hash := node.transaction.parents

def SyncNode.lamport (node : SyncNode) : Nat := node.transaction.lamport

def Signature.isZero (signature : Signature) : Bool := signature = Bytes.zero 64

inductive SyncError where
  | hashMismatch (expected actual : Hash)
  | missingParent (parent : Hash)
  | duplicateNode (id : Hash)
  | invalidSignature (id : Hash)
  | policyViolation (author : PublicKey) (key : String)
  | lamportCeiling (id : Hash) (lamport ceiling : Nat)
  | wallClockSkew (id : Hash) (wallMs nowMs : Nat)
  deriving DecidableEq

/-- The primitives the engine takes from `blake3`, `postcard` and
`ed25519-dalek`. `txHash` is the digest of a serialized transaction, `decodes`
says whether 32 bytes are a verifying key, and `verifyBatch` is the all-at-once
check over `(message, signature, key)` triples. -/
structure Crypto where
  SigningKey : Type
  verifyingKey : SigningKey → PublicKey
  sign : SigningKey → Hash → Signature
  decodes : PublicKey → Bool
  verify : PublicKey → Hash → Signature → Bool
  verifyBatch : List (Hash × Signature × PublicKey) → Bool
  txHash : Transaction → Hash
  blake3 : List U8 → Hash

namespace Crypto

variable (crypto : Crypto)

/-- Signing and then verifying succeeds. -/
def SignVerifies : Prop :=
  ∀ key message, crypto.decodes (crypto.verifyingKey key) = true ∧
    crypto.verify (crypto.verifyingKey key) message (crypto.sign key message) = true

/-- Of the given nodes the batch check accepts no chunk with one that does not verify on
its own. It is asked of the nodes at hand only: crafted signatures can pass a batch. -/
def BatchSound (nodes : List SyncNode) : Prop :=
  ∀ chunk ⊆ nodes, crypto.verifyBatch (chunk.map fun node =>
      (node.id, node.signature, node.transaction.author)) = true →
    ∀ node ∈ chunk, crypto.verify node.transaction.author node.id node.signature = true

theorem BatchSound.mono {crypto : Crypto} (sound : crypto.BatchSound nodes)
    (fewer : others ⊆ nodes) : crypto.BatchSound others :=
  fun chunk inside => sound chunk (List.Subset.trans inside fewer)

/-- No two of the given transactions share a digest. -/
def CollisionFree (transactions : Set Transaction) : Prop :=
  Set.InjOn crypto.txHash transactions

theorem collisionFree_of_nodes {nodes : List SyncNode} (apart : ∀ one ∈ nodes, ∀ other ∈ nodes,
      crypto.txHash one.transaction = crypto.txHash other.transaction →
        one.transaction = other.transaction) :
    crypto.CollisionFree { tx | ∃ node ∈ nodes, node.transaction = tx } := by
  rintro _ ⟨one, inOne, rfl⟩ _ ⟨other, inOther, rfl⟩ same
  exact apart one inOne other inOther same

/-- A digest that tells transactions apart by clock, author and sizes. -/
def sampleDigest (tx : Transaction) : Hash :=
  .padTo 32 [1, Fin.ofNat 256 tx.lamport, Fin.ofNat 256 (tx.lamport / 256),
    Fin.ofNat 256 (tx.lamport / 65536), tx.author.val.headD 0, Fin.ofNat 256 tx.ops.length,
    Fin.ofNat 256 tx.parents.length]

/-- A small concrete instance: keys are seeds, and a signature spells out its
seed and its message. -/
def sample : Crypto where
  SigningKey := U8
  verifyingKey seed := .padTo 32 [seed]
  sign seed message := .padTo 64 (1 :: seed :: message.val)
  decodes _ := true
  verify key message signature :=
    signature = Bytes.padTo 64 (1 :: key.val.headD 0 :: message.val)
  verifyBatch triples := triples.all fun triple =>
    triple.2.1 = Bytes.padTo 64 (1 :: triple.2.2.val.headD 0 :: triple.1.val)
  txHash := sampleDigest
  blake3 := .padTo 32

def sampleKey (seed : U8) : sample.SigningKey := seed

theorem sample_signVerifies : sample.SignVerifies := by
  intro seed message
  exact ⟨rfl, decide_eq_true rfl⟩

theorem sample_batchSound (nodes : List SyncNode) : sample.BatchSound nodes := by
  intro chunk _ passed node member
  exact List.all_eq_true.mp passed _ (List.mem_map_of_mem member)

end Crypto

/-- `SyncNode::new`: an unsigned node. -/
def SyncNode.new (crypto : Crypto) (transaction : Transaction) : SyncNode :=
  ⟨crypto.txHash transaction, transaction, Bytes.zero 64⟩

def SyncNode.newSigned (crypto : Crypto) (transaction : Transaction)
    (signingKey : crypto.SigningKey) : SyncNode :=
  let id := crypto.txHash transaction
  ⟨id, transaction, crypto.sign signingKey id⟩

/-- The signature over the node's id checks out under its author's key. -/
def SyncNode.signatureVerifies (crypto : Crypto) (node : SyncNode) : Bool :=
  crypto.decodes node.transaction.author &&
    crypto.verify node.transaction.author node.id node.signature

/-- `SyncNode::verify_signature`: unsigned (zero) nodes pass. -/
def SyncNode.verifySignature (crypto : Crypto) (node : SyncNode) : Except SyncError Unit :=
  if node.signature.isZero then .ok ()
  else if node.signatureVerifies crypto then .ok ()
  else .error (.invalidSignature node.id)

end NodalMerge
