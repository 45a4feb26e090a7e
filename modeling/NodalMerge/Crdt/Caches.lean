import NodalMerge.Crdt.Op

namespace NodalMerge

/-- Current winner for one map key; a `none` value is a winning delete. -/
structure MapWinner where
  lamport : Nat
  author : PublicKey
  value : Option (List U8)
  isBlob : Bool
  deriving DecidableEq

def MapWinner.priority (winner : MapWinner) : Priority := toLex (winner.lamport, winner.author)

inductive ConflictKind where
  | mapOverwrite
  | listMoveLost
  | listDeleteWon
  deriving DecidableEq

inductive ConflictOp where
  | set (value : List U8)
  | delete
  | setBlob (blobHash : Bytes 32)
  | listMove (itemId : ItemId)
  | listInsert (itemId : ItemId)
  | listDelete (itemId : ItemId)
  deriving DecidableEq

structure ConflictEvent where
  kind : ConflictKind
  key : String
  winnerAuthor : PublicKey
  winnerLamport : Nat
  winnerOp : ConflictOp
  loserAuthor : PublicKey
  loserLamport : Nat
  loserOp : ConflictOp
  deriving DecidableEq

def MapWinner.conflictOp (winner : MapWinner) : ConflictOp :=
  match winner.value, winner.isBlob with
  | none, _ => .delete
  | some value, true =>
    if sized : value.length = 32 then .setBlob ⟨value, sized⟩ else .setBlob (Bytes.zero 32)
  | some value, false => .set value

structure ListItemCache where
  position : Option FracIdx
  posPriority : Priority
  sawInsert : Bool
  deleted : Bool
  deriving DecidableEq

def ListItemCache.default : ListItemCache := ⟨none, Priority.zero, false, false⟩

def ListItemCache.isVisible (item : ListItemCache) : Bool :=
  item.sawInsert && !item.deleted && item.position.isSome

/-- The position of a visible item. -/
def ListItemCache.visiblePosition (item : ListItemCache) : Option FracIdx :=
  if item.isVisible then item.position else none

structure ListCacheState where
  items : HashMap ItemId ListItemCache
  /-- Visible items ordered by position, then item id. -/
  visible : Finset (FracIdx ×ₗ ItemId)

def ListCacheState.default : ListCacheState := ⟨∅, ∅⟩

/-- Bookkeeping of one `(list_key, item)` for the conflict stream. -/
structure ListConflictState where
  posWinner : Option (Priority × ConflictOp)
  deleteWinner : Option Priority
  posOps : List (Priority × ConflictOp)

def ListConflictState.default : ListConflictState := ⟨none, none, []⟩

def listConflictPosOpsCap : Nat := 64

def pendingConflictsCap : Nat := 16384

structure StateCaches where
  mapAll : HashMap String MapWinner
  mapCanonical : HashMap String MapWinner
  lists : HashMap String ListCacheState
  blobHashes : Finset Hash
  conflictStreamEnabled : Bool
  pendingConflicts : List ConflictEvent
  listConflictState : HashMap (String × ItemId) ListConflictState

def StateCaches.empty : StateCaches := ⟨∅, ∅, ∅, ∅, false, [], ∅⟩

def lwwUpdate (cache : HashMap String MapWinner) (key : String) (candidate : MapWinner) :
    HashMap String MapWinner :=
  match cache.lookup key with
  | some current =>
    if current.priority < candidate.priority then cache.insert key candidate else cache
  | none => cache.insert key candidate

/-- Past the cap the oldest events are dropped. -/
def pushPendingConflict (pending : List ConflictEvent) (event : ConflictEvent) :
    List ConflictEvent :=
  (if pendingConflictsCap ≤ pending.length
    then pending.drop (pending.length + 1 - pendingConflictsCap) else pending) ++ [event]

def hexDigit (nibble : Nat) : Char :=
  if nibble < 10 then Char.ofNat (48 + nibble) else Char.ofNat (87 + nibble)

/-- `ItemId::to_hex`. -/
def ItemId.toHex (item : ItemId) : String :=
  String.ofList (item.val.flatMap fun byte => [hexDigit (byte.val / 16), hexDigit (byte.val % 16)])

/-- The value a map op writes under its transaction's priority. -/
def MapOp.candidate (tx : Transaction) : MapOp → MapWinner
  | .set _ value => ⟨tx.lamport, tx.author, some value, false⟩
  | .delete _ => ⟨tx.lamport, tx.author, none, false⟩
  | .setBlob _ blobHash => ⟨tx.lamport, tx.author, some blobHash.val, true⟩

def MapOp.blobHash? : MapOp → Option Hash
  | .setBlob _ blobHash => some blobHash
  | _ => none

/-- The overwrite event between the candidate and the current winner. -/
def mapConflict (key : String) (candidate current : MapWinner) : ConflictEvent :=
  if current.priority < candidate.priority then
    ⟨.mapOverwrite, key, candidate.author, candidate.lamport, candidate.conflictOp,
      current.author, current.lamport, current.conflictOp⟩
  else
    ⟨.mapOverwrite, key, current.author, current.lamport, current.conflictOp,
      candidate.author, candidate.lamport, candidate.conflictOp⟩

/-- One list op on one item: `Insert` and `Move` set the position when their
priority is strictly higher, `Delete` is absorbing. -/
def ListItemCache.applyOp (item : ListItemCache) (op : ListOp) (prio : Priority) : ListItemCache :=
  match op with
  | .insert _ _ position =>
    if item.posPriority < prio then ⟨some position, prio, true, item.deleted⟩
    else { item with sawInsert := true }
  | .move _ _ position =>
    if item.posPriority < prio then { item with position := some position, posPriority := prio }
    else item
  | .delete _ _ => { item with deleted := true }

/-- Keep the ordered set of visible items in step with one changed item. -/
def moveVisible (visible : Finset (FracIdx ×ₗ ItemId)) (itemId : ItemId)
    (was now : Option FracIdx) : Finset (FracIdx ×ₗ ItemId) :=
  if was = now then visible
  else
    let removed := match was with
      | some position => visible.erase (toLex (position, itemId))
      | none => visible
    match now with
      | some position => insert (toLex (position, itemId)) removed
      | none => removed

def ListCacheState.update (cache : ListCacheState) (op : ListOp) (prio : Priority) :
    ListCacheState :=
  let entry := (cache.items.lookup op.itemId).getD ListItemCache.default
  let changed := entry.applyOp op prio
  ⟨cache.items.insert op.itemId changed,
    moveVisible cache.visible op.itemId entry.visiblePosition changed.visiblePosition⟩

def updateListCache (lists : HashMap String ListCacheState) (op : ListOp) (prio : Priority) :
    HashMap String ListCacheState :=
  lists.insert op.key (((lists.lookup op.key).getD ListCacheState.default).update op prio)

/-- Event for a position op that meets an earlier delete or position op of
another author. -/
def listPositionConflict (state : ListConflictState) (key : String) (itemId : ItemId)
    (prio : Priority) (op : ConflictOp) : Option ConflictEvent :=
  match state.deleteWinner with
  | some winner =>
    if (ofLex winner).2 ≠ (ofLex prio).2 then
      some ⟨.listDeleteWon, key, (ofLex winner).2, (ofLex winner).1, .listDelete itemId,
        (ofLex prio).2, (ofLex prio).1, op⟩
    else none
  | none =>
    match state.posWinner with
    | some (winner, winnerOp) =>
      if (ofLex winner).2 ≠ (ofLex prio).2 then
        if winner < prio then
          some ⟨.listMoveLost, key, (ofLex prio).2, (ofLex prio).1, op,
            (ofLex winner).2, (ofLex winner).1, winnerOp⟩
        else
          some ⟨.listMoveLost, key, (ofLex winner).2, (ofLex winner).1, winnerOp,
            (ofLex prio).2, (ofLex prio).1, op⟩
      else none
    | none => none

/-- The position op is remembered for a later delete, up to the cap. -/
def ListConflictState.recordPosition (state : ListConflictState) (prio : Priority)
    (op : ConflictOp) : ListConflictState :=
  { state with
    posOps := if state.posOps.length < listConflictPosOpsCap
      then state.posOps ++ [(prio, op)] else state.posOps
    posWinner := match state.posWinner with
      | some (winner, winnerOp) => if winner < prio then some (prio, op) else some (winner, winnerOp)
      | none => some (prio, op) }

/-- The first delete absorbs every remembered position op of other authors. -/
def listDeleteConflicts (state : ListConflictState) (key : String) (itemId : ItemId)
    (prio : Priority) : List ConflictEvent :=
  if state.deleteWinner.isNone then
    (state.posOps.filter fun posOp => (ofLex posOp.1).2 ≠ (ofLex prio).2).map fun posOp =>
      ⟨.listDeleteWon, key, (ofLex prio).2, (ofLex prio).1, .listDelete itemId,
        (ofLex posOp.1).2, (ofLex posOp.1).1, posOp.2⟩
  else []

def ListConflictState.recordDelete (state : ListConflictState) (prio : Priority) :
    ListConflictState :=
  { state with
    deleteWinner := match state.deleteWinner with
      | some winner => if winner < prio then some prio else some winner
      | none => some prio }

namespace StateCaches

def updateListConflictState (caches : StateCaches) (op : ListOp) (prio : Priority) : StateCaches :=
  if caches.conflictStreamEnabled then
    let slot := (op.key, op.itemId)
    let state := (caches.listConflictState.lookup slot).getD ListConflictState.default
    let eventKey := op.key ++ "#" ++ ItemId.toHex op.itemId
    let position (conflictOp : ConflictOp) : StateCaches :=
      { caches with
        listConflictState :=
          caches.listConflictState.insert slot (state.recordPosition prio conflictOp)
        pendingConflicts := match listPositionConflict state eventKey op.itemId prio conflictOp with
          | some event => pushPendingConflict caches.pendingConflicts event
          | none => caches.pendingConflicts }
    match op with
    | .insert _ itemId _ => position (.listInsert itemId)
    | .move _ itemId _ => position (.listMove itemId)
    | .delete _ itemId =>
      { caches with
        listConflictState := caches.listConflictState.insert slot (state.recordDelete prio)
        pendingConflicts := (listDeleteConflicts state eventKey itemId prio).foldl
          pushPendingConflict caches.pendingConflicts }
  else caches

/-- The conflict-stream part of a map op: the current winner is another author's. -/
def recordMapConflict (caches : StateCaches) (key : String) (candidate : MapWinner) :
    List ConflictEvent :=
  if caches.conflictStreamEnabled then
    match caches.mapAll.lookup key with
    | some current =>
      if current.author ≠ candidate.author then
        pushPendingConflict caches.pendingConflicts (mapConflict key candidate current)
      else caches.pendingConflicts
    | none => caches.pendingConflicts
  else caches.pendingConflicts

def applyMapOp (caches : StateCaches) (tx : Transaction) (canonical : Bool) (op : MapOp) :
    StateCaches :=
  let candidate := op.candidate tx
  { caches with
    blobHashes := match op.blobHash? with
      | some blobHash => insert blobHash caches.blobHashes
      | none => caches.blobHashes
    pendingConflicts := caches.recordMapConflict op.key candidate
    mapAll := lwwUpdate caches.mapAll op.key candidate
    mapCanonical :=
      if canonical then lwwUpdate caches.mapCanonical op.key candidate else caches.mapCanonical }

def applyListOp (caches : StateCaches) (tx : Transaction) (op : ListOp) : StateCaches :=
  { caches.updateListConflictState op tx.priority with
    lists := updateListCache caches.lists op tx.priority }

def applyOp (tx : Transaction) (canonical : Bool) (caches : StateCaches) : Op → StateCaches
  | .map op => caches.applyMapOp tx canonical op
  | .list op => caches.applyListOp tx op
  | .text _ => caches

/-- Fold one admitted node into the views. A node with the zero priority never
wins anywhere and is skipped as a whole; `canonical` is false only for locally
authored nodes. -/
def updateStateCaches (caches : StateCaches) (node : SyncNode) (canonical : Bool) : StateCaches :=
  if node.transaction.priority = Priority.zero then caches
  else node.transaction.ops.foldl (applyOp node.transaction canonical) caches

end StateCaches

end NodalMerge
