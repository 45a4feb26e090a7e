import NodalMerge.Host.Sessions
import NodalMerge.Library.StackWalk

/-! `none` stands for a panic, and for a walk over a text that does not end. -/

namespace NodalMerge.Host

open Function

def scopedMapKey (ns key : String) : String := if ns = "" then key else ns ++ "/" ++ key

def stripNamespaceFromScopedKey (ns scopedKey : String) : Option String :=
  if ns = "" then some scopedKey else stripPrefix (ns ++ "/") scopedKey

/-- The checks that the commands on one key begin with. -/
def checkKey (rooms : Finset String) (room key : String) : Except HostCoreError Unit :=
  if room ∉ rooms then .error .roomNotFound
  else if key = "" then .error .invalidCommand
  else .ok ()

/-- Replace what a table has under a room and a key. -/
def setAt {Entry : Type} (table : String → String → Entry) (room key : String) (entry : Entry) :
    String → String → Entry :=
  update table room (update (table room) key entry)

structure TextCharState where
  id : String
  afterId : Option String
  ch : Char
  tombstoned : Bool

/-- `room_texts` and `room_text_next_id`. -/
structure Texts where
  docs : String → String → List TextCharState
  nextId : String → Nat

/-- The ids after one anchor, the highest first. -/
def siblings (chars : List TextCharState) (anchor : Option String) : List String :=
  ((chars.filter fun st => st.afterId = anchor).map TextCharState.id).insertionSort (· ≥ ·)

/-- What is shown for an id that leaves the stack. -/
def shownEntry (chars : List TextCharState) (id : String) : List TextEntry :=
  match chars.reverse.find? fun st => st.id = id with
  | some st => if st.tombstoned then [] else [⟨st.id, st.ch.toString⟩]
  | none => []

/-- The loop over the stack of ids, for as many turns as there are characters. -/
def textEntriesInRgaOrder (chars : List TextCharState) : Option (List TextEntry) :=
  StackWalk.walk (fun id => siblings chars (some id)) (shownEntry chars) chars.length
    (siblings chars none)

def textStringFromEntries (entries : List TextEntry) : String :=
  String.ofList (entries.flatMap fun entry => entry.ch.toList.take 1)

/-- Mark the first character with the id. -/
def tombstone (targetId : String) : List TextCharState → List TextCharState
  | [] => []
  | st :: rest =>
    if st.id = targetId then { st with tombstoned := true } :: rest
    else st :: tombstone targetId rest

namespace Texts

def empty : Texts := ⟨fun _ _ => [], fun _ => 0⟩

variable (texts : Texts) (rooms : Finset String) (room ns key : String)

def doc : List TextCharState := texts.docs room (scopedMapKey ns key)

def anchorExists (afterId : Option String) : Bool :=
  afterId.all fun anchor => (texts.doc room ns key).any fun item => item.id = anchor

def textInsert (afterId : Option String) (ch : String) : Option (Texts × CommandResult) :=
  match checkKey rooms room key with
  | .error error => some (texts, .error error)
  | .ok () =>
    match ch.toList with
    | [insertChar] =>
      if texts.anchorExists room ns key afterId then
        (increment (texts.nextId room)).map fun next =>
          let id := "text-" ++ toString next
          ({ docs := setAt texts.docs room (scopedMapKey ns key)
                (texts.doc room ns key ++ [⟨id, afterId, insertChar, false⟩])
             nextId := update texts.nextId room next },
            .ok [.textValueInserted room ns key id insertChar.toString])
      else some (texts, .error .invalidCommand)
    | _ => some (texts, .error .invalidCommand)

def textDelete (targetId : String) : Texts × CommandResult :=
  match checkKey rooms room key with
  | .error error => (texts, .error error)
  | .ok () =>
    if targetId = "" then (texts, .error .invalidCommand)
    else
      let doc := texts.doc room ns key
      ({ texts with docs := setAt texts.docs room (scopedMapKey ns key) (tombstone targetId doc) },
        .ok [.textValueDeleted room ns key targetId (doc.any fun st => st.id = targetId)])

/-- `TextGet` and `TextGetCanonical`, whose bodies are the same. -/
def textGet : Option CommandResult :=
  match checkKey rooms room key with
  | .error error => some (.error error)
  | .ok () =>
    (textEntriesInRgaOrder (texts.doc room ns key)).map fun entries =>
      .ok [.textValueRead room ns key (textStringFromEntries entries) entries]

end Texts

structure ListItemState where
  id : String
  value : Value

/-- `room_lists` and `room_list_next_id`. -/
structure Lists where
  lists : String → String → List ListItemState
  nextId : String → Nat

namespace Lists

def empty : Lists := ⟨fun _ _ => [], fun _ => 0⟩

variable (table : Lists) (rooms : Finset String) (room ns key : String)

def list : List ListItemState := table.lists room (scopedMapKey ns key)

def setList (items : List ListItemState) : Lists :=
  { table with lists := setAt table.lists room (scopedMapKey ns key) items }

def listPush (value : Value) : Option (Lists × CommandResult) :=
  match checkKey rooms room key with
  | .error error => some (table, .error error)
  | .ok () =>
    (increment (table.nextId room)).map fun next =>
      let id := "list-" ++ toString next
      let items := table.list room ns key
      ({ table.setList room ns key (items ++ [⟨id, value⟩]) with
          nextId := update table.nextId room next },
        .ok [.listValuePushed room ns key id items.length value])

def listInsert (index : Nat) (value : Value) : Option (Lists × CommandResult) :=
  match checkKey rooms room key with
  | .error error => some (table, .error error)
  | .ok () =>
    let items := table.list room ns key
    if items.length < index then some (table, .error .invalidCommand)
    else do
      let next ← increment (table.nextId room)
      let id := "list-" ++ toString next
      let inserted ← vecInsert items index ⟨id, value⟩
      return ({ table.setList room ns key inserted with
          nextId := update table.nextId room next },
        .ok [.listValueInserted room ns key id index value])

def listDelete (index : Nat) : Option (Lists × CommandResult) :=
  match checkKey rooms room key with
  | .error error => some (table, .error error)
  | .ok () =>
    let items := table.list room ns key
    if index < items.length then
      (vecRemove items index).map fun removed =>
        (table.setList room ns key removed.2,
          .ok [.listValueDeleted room ns key index true (some removed.1.value)])
    else some (table, .ok [.listValueDeleted room ns key index false none])

def listMove (fromIndex toIndex : Nat) : Option (Lists × CommandResult) :=
  match checkKey rooms room key with
  | .error error => some (table, .error error)
  | .ok () =>
    let items := table.list room ns key
    if fromIndex < items.length ∧ toIndex < items.length then
      if fromIndex = toIndex then
        (items[fromIndex]?).map fun item =>
          (table, .ok [.listValueMoved room ns key fromIndex toIndex true (some item.id)])
      else do
        let (moved, rest) ← vecRemove items fromIndex
        let inserted ← vecInsert rest toIndex moved
        return (table.setList room ns key inserted,
          .ok [.listValueMoved room ns key fromIndex toIndex true (some moved.id)])
    else some (table, .ok [.listValueMoved room ns key fromIndex toIndex false none])

def listUpdate (index : Nat) (value : Value) : Lists × CommandResult :=
  match checkKey rooms room key with
  | .error error => (table, .error error)
  | .ok () =>
    let items := table.list room ns key
    match items[index]? with
    | some item =>
      (table.setList room ns key (items.set index { item with value }),
        .ok [.listValueUpdated room ns key index true (some item.id) (some value)])
    | none => (table, .ok [.listValueUpdated room ns key index false none none])

def listGet : CommandResult := do
  checkKey rooms room key
  return [.listValueRead room ns key ((table.list room ns key).map fun item =>
    ⟨item.id, item.value⟩)]

end Lists

/-- `room_blobs`. -/
abbrev Blobs := String → String → Option String

namespace Blobs

variable (blobs : Blobs) (rooms : Finset String) (room ns : String)

def find (hash : String) : Option String := blobs room (scopedMapKey ns hash)

def blobSet (hash dataB64 : String) : Blobs × CommandResult :=
  if room ∉ rooms then (blobs, .error .roomNotFound)
  else if hash = "" ∨ dataB64 = "" then (blobs, .error .invalidCommand)
  else (setAt blobs room (scopedMapKey ns hash) (some dataB64),
    .ok [.blobValueStored room ns hash (blobs.find room ns hash).isNone])

def blobGet (hash : String) : CommandResult := do
  checkKey rooms room hash
  let dataB64 := blobs.find room ns hash
  return [.blobValueRead room ns hash dataB64.isSome dataB64]

/-- The blobs of the hashes that are stored. -/
def stored (hashes : List String) : List BlobEntry :=
  hashes.filterMap fun hash => (blobs.find room ns hash).map fun dataB64 => ⟨hash, dataB64⟩

def blobGetMany (hashes : List String) : CommandResult := do
  if room ∉ rooms then throw .roomNotFound
  let asked := hashes.filter fun hash => hash ≠ ""
  return [.blobValuesRead room ns (blobs.stored room ns asked)
    (asked.filter fun hash => (blobs.find room ns hash).isNone)]

/-- `none` is the `expect` on a granted upload without a URL. -/
def requestUpload (env : HostEnv) (hash : String) (sizeBytes : Nat) (contentType : Option String) :
    Option CommandResult :=
  if room ∉ rooms then some (.error .roomNotFound)
  else if hash = "" ∨ sizeBytes = 0 then some (.error .invalidCommand)
  else
    let putUrl := env.resolvePutUrl room ns hash sizeBytes contentType
    if putUrl.isSome then
      putUrl.map fun granted =>
        .ok [.uploadGranted room ns hash granted.url granted.expiresAtUnix]
    else some (.ok [.uploadDenied room ns hash "use-ws"])

def blobRequest (env : HostEnv) (hashes : List String) : CommandResult := do
  if room ∉ rooms then throw .roomNotFound
  let requested := hashes.filter fun hash => hash ≠ ""
  if requested.isEmpty then throw .invalidCommand
  let redirects : List BlobRedirectEntry := requested.filterMap fun hash =>
    if (blobs.find room ns hash).isSome then
      (env.resolveGetUrl room ns hash).map fun granted =>
        ⟨hash, granted.url, granted.expiresAtUnix⟩
    else none
  if redirects.isEmpty then
    return [.blobPackPrepared room ns (blobs.stored room ns requested) requested]
  return [.blobRedirectPrepared room ns redirects]

end Blobs

end NodalMerge.Host
