import NodalMerge.Server.Lineage

/-! Every `await` on a room lock or on the promotion store ends a step. -/

namespace NodalMerge

open Function Machine StateGraph

inductive PromotionLifecycle where
  | proposed
  | validated
  | applied
  deriving DecidableEq

inductive PromotionReasonClass where
  | childCheckpointMismatch
  | policyDenied
  | invalidLineage
  | staleParent
  | applyConflict
  | notFound
  | notValidated
  deriving DecidableEq

structure PromotionRejected where
  reasonClass : PromotionReasonClass
  reasonMessage : String
  deriving DecidableEq

structure PromotionProposed where
  proposalId : String
  parentRoomId : String
  childRoomId : String
  childCheckpointHash : String
  payloadRef : String
  proposalDigest : String

structure PromotionValidated where
  proposalId : String
  validationDigest : String

structure PromotionApplied where
  proposalId : String
  parentRoomId : String
  parentNewCanonicalHash : String
  auditKey : String

structure PromotionRecord where
  parentRoomId : String
  childRoomId : String
  childCheckpointHash : String
  payloadRef : String
  parentCanonicalHashAtPropose : String
  parentCanonicalHashAtValidate : Option String
  lifecycle : PromotionLifecycle
  proposalDigest : String
  validationDigest : Option String
  parentNewCanonicalHash : Option String
  auditKey : Option String

/-- The text fields of a message. -/
abbrev PromotionMessage := String → Option String

def requireStr (message : PromotionMessage) (field : String) :
    Except PromotionRejected String :=
  match (message field).filter fun text => !text.isEmpty with
  | some text => .ok text
  | none => .error ⟨.invalidLineage, field ++ " is required"⟩

def isAsciiHexdigit (char : Char) : Bool :=
  char.isDigit || ('a' ≤ char && char ≤ 'f') || ('A' ≤ char && char ≤ 'F')

def parseCheckpointHash (message : PromotionMessage) (field : String) :
    Except PromotionRejected String := do
  let hash ← requireStr message field
  if (utf8 hash).length ≠ 64 ∨ !hash.toList.all isAsciiHexdigit then
    throw ⟨.invalidLineage, field ++ " must be 64-char hex"⟩
  return hash.toLower

/-- What a message that proposes a promotion asks for. -/
structure Proposal where
  parentRoomId : String
  childRoomId : String
  childCheckpointHash : String
  payloadRef : String
  idempotencyKey : Option String

def parseProposal (message : PromotionMessage) : Except PromotionRejected Proposal := do
  let parentRoomId ← requireStr message "parent_room_id"
  let childRoomId ← requireStr message "child_room_id"
  let childCheckpointHash ← parseCheckpointHash message "child_checkpoint_hash"
  let payloadRef ← requireStr message "payload_ref"
  let idempotencyKey := (message "idempotency_key").filter fun text => !text.isEmpty
  return ⟨parentRoomId, childRoomId, childCheckpointHash, payloadRef, idempotencyKey⟩

inductive PromotionAnswer where
  | proposed (answer : PromotionProposed)
  | validated (answer : PromotionValidated)
  | applied (answer : PromotionApplied)

/-- What a request waits for. -/
inductive PromotionPhase where
  | idle
  /-- Proposing: the store on the idempotency key, the lineage of the child, the
  graph of the child, the graph of the parent, the store twice. -/
  | recalling (proposal : Proposal) (key : String)
  | tracing (proposal : Proposal)
  | comparing (proposal : Proposal)
  | reading (proposal : Proposal)
  | rechecking (proposalId : String) (record : PromotionRecord)
  | inserting (proposalId : String) (record : PromotionRecord)
  /-- Validating: the store, the lineage, the two graphs, the store. -/
  | validating (proposalId : String)
  | retracing (proposalId : String) (record : PromotionRecord)
  | recomparing (proposalId : String) (record : PromotionRecord)
  | rereading (proposalId : String) (record : PromotionRecord)
  | marking (proposalId : String) (record : PromotionRecord) (digest : String)
  /-- Applying: the store, the graph of the parent three times, the store. -/
  | applying (proposalId : String)
  | checking (proposalId : String) (record : PromotionRecord)
  | committing (proposalId : String) (record : PromotionRecord)
  | measuring (proposalId : String) (record : PromotionRecord)
  | recording (proposalId : String) (record : PromotionRecord) (parentNewCanonicalHash : String)
  | answered (answer : Except PromotionRejected PromotionAnswer)
  | panicked

/-- The rooms, the promotion store and the requests. The lineage of a room is the one
that the room or the lineage store has. -/
structure Promotions where
  graphs : String → StateGraph
  lineages : String → Option RoomLineage
  store : String → Option PromotionRecord
  requests : Nat → PromotionPhase

inductive PromotionRequest where
  | propose (message : PromotionMessage)
  | validate (message : PromotionMessage)
  | apply (message : PromotionMessage)

inductive PromotionAction where
  | send (request : Nat) (message : PromotionRequest)
  /-- The request takes its next step; a commit names its parents in this order. -/
  | advance (request : Nat) (parents : List NodeId)
  | importNodes (roomId : String) (nowMs : Nat) (nodes : List SyncNode)
  | setPolicy (roomId : String) (policy : Policy)
  | relink (roomId : String) (lineage : Option RoomLineage)

/-- What the requests take from outside: `iterate` is the order in which the node map
of a room yields its nodes, `auditPayload` the JSON text of an audit entry. -/
structure PromotionEnv where
  crypto : Crypto
  serverKey : crypto.SigningKey
  iterate : List SyncNode → List SyncNode
  auditPayload : String → PromotionRecord → List U8

def LineageReasonClass.asStr : LineageReasonClass → String
  | .parentCheckpointMismatch => "reject.lineage_parent_checkpoint_mismatch"
  | .policyUnknown => "reject.lineage_policy_unknown"
  | .parentNotFound => "reject.lineage_parent_not_found"
  | .childAlreadyExists => "reject.lineage_child_already_exists"
  | .roomNotFound => "reject.room_not_found"
  | .invalidCheckpoint => "reject.lineage_invalid_checkpoint"

def lineageToPromotion (error : LineageRejected) : PromotionRejected :=
  ⟨.invalidLineage, error.reasonClass.asStr ++ ": " ++ error.reasonMessage⟩

def auditKeyOf (proposalId : String) : String := "_topology/promotion/" ++ proposalId

section
variable (env : PromotionEnv)

def snapshotRoomCanonicalHash (graph : StateGraph) : Except LineageRejected String :=
  let nodes := env.iterate graph.nodes.data
  if nodes.isEmpty then
    .error ⟨.invalidCheckpoint, "room has no nodes — cannot snapshot canonical hash"⟩
  else
    match replay env.crypto nodes none with
    | .error error => .error ⟨.invalidCheckpoint, "replay failed: " ++ error.text⟩
    | .ok replayed => .ok (hexLower (canonicalHash env.crypto replayed.map).val)

def commitAuditNode (graph : StateGraph) (proposalId : String) (record : PromotionRecord)
    (parents : Enumeration graph.leaves) : Option (StateGraph × Except SyncError NodeId) :=
  graph.applyLocal env.crypto env.serverKey 0
    [.map (.set (auditKeyOf proposalId) (env.auditPayload proposalId record))] parents

/-- `Hash::of` a text, in hex. -/
def textDigest (text : String) : String := hexLower (env.crypto.blake3 (utf8 text)).val

def proposalDigest (proposal : Proposal) : String :=
  textDigest env (proposal.parentRoomId ++ "|" ++ proposal.childRoomId ++ "|" ++
    proposal.childCheckpointHash ++ "|" ++ proposal.payloadRef ++ "|" ++
    proposal.idempotencyKey.getD "")

def validationDigest (proposalId : String) (record : PromotionRecord) (parentHash : String) :
    String :=
  textDigest env ("validate|" ++ proposalId ++ "|" ++ record.proposalDigest ++ "|" ++ parentHash)

/-- The record of a new proposal. -/
def newRecord (proposal : Proposal) (parentHash : String) : PromotionRecord where
  parentRoomId := proposal.parentRoomId
  childRoomId := proposal.childRoomId
  childCheckpointHash := proposal.childCheckpointHash
  payloadRef := proposal.payloadRef
  parentCanonicalHashAtPropose := parentHash
  parentCanonicalHashAtValidate := none
  lifecycle := .proposed
  proposalDigest := proposalDigest env proposal
  validationDigest := none
  parentNewCanonicalHash := none
  auditKey := none

namespace PromotionRecord

/-- The answer to a proposal that this record stands for. -/
def asProposed (record : PromotionRecord) (proposalId : String) : PromotionAnswer :=
  .proposed ⟨proposalId, record.parentRoomId, record.childRoomId, record.childCheckpointHash,
    record.payloadRef, record.proposalDigest⟩

/-- The hash that the parent must still have when the promotion is applied. -/
def expectedParent (record : PromotionRecord) : String :=
  record.parentCanonicalHashAtValidate.getD record.parentCanonicalHashAtPropose

def asValidated (record : PromotionRecord) (parentHash digest : String) : PromotionRecord :=
  { record with
    lifecycle := .validated
    parentCanonicalHashAtValidate := some parentHash
    validationDigest := some digest }

def asApplied (record : PromotionRecord) (proposalId parentHash : String) : PromotionRecord :=
  { record with
    lifecycle := .applied
    parentNewCanonicalHash := some parentHash
    auditKey := some (auditKeyOf proposalId) }

end PromotionRecord

/-- The first phase of a request. -/
def openRequest : PromotionRequest → PromotionPhase
  | .propose message =>
    match parseProposal message with
    | .error rejected => .answered (.error rejected)
    | .ok proposal =>
      match proposal.idempotencyKey with
      | some key => .recalling proposal key
      | none => .tracing proposal
  | .validate message =>
    match requireStr message "proposal_id" with
    | .error rejected => .answered (.error rejected)
    | .ok proposalId => .validating proposalId
  | .apply message =>
    match requireStr message "proposal_id" with
    | .error rejected => .answered (.error rejected)
    | .ok proposalId => .applying proposalId

namespace Promotions

def loadChildLineage (state : Promotions) (childRoomId parentRoomId : String) :
    Except PromotionRejected RoomLineage :=
  match state.lineages childRoomId with
  | none => .error ⟨.invalidLineage, "child room has no lineage metadata"⟩
  | some lineage =>
    if lineage.parentRoomId ≠ parentRoomId then
      .error ⟨.invalidLineage, "child lineage parent_room_id does not match parent_room_id"⟩
    else .ok lineage

def snapshot (state : Promotions) (roomId : String) : Except PromotionRejected String :=
  (snapshotRoomCanonicalHash env (state.graphs roomId)).mapError lineageToPromotion

def setStore (state : Promotions) (proposalId : String) (record : PromotionRecord) : Promotions :=
  { state with store := update state.store proposalId (some record) }

def setGraph (state : Promotions) (roomId : String) (graph : StateGraph) : Promotions :=
  { state with graphs := update state.graphs roomId graph }

def setRequest (state : Promotions) (request : Nat) (phase : PromotionPhase) : Promotions :=
  { state with requests := update state.requests request phase }

/-- The answer when a check fails, and the next phase when it passes. -/
def guarded {α : Type} (checked : Except PromotionRejected α) (next : α → PromotionPhase) :
    PromotionPhase :=
  match checked with
  | .error rejected => .answered (.error rejected)
  | .ok value => next value

/-- One step of a request. -/
def advance (state : Promotions) (parents : List NodeId) :
    PromotionPhase → Option (Promotions × PromotionPhase)
  | .idle => none
  | .recalling proposal key =>
    match state.store key with
    | none => some (state, .tracing proposal)
    | some record =>
      if record.parentRoomId = proposal.parentRoomId ∧ record.childRoomId = proposal.childRoomId ∧
          record.payloadRef = proposal.payloadRef then
        some (state, .answered (.ok (record.asProposed key)))
      else some (state, .answered (.error
        ⟨.applyConflict, "idempotency_key already used with different inputs"⟩))
  | .tracing proposal =>
    some (state, guarded (state.loadChildLineage proposal.childRoomId proposal.parentRoomId)
      fun lineage =>
        if lineage.promotionPolicyId ≠ "promotion-based" then
          .answered (.error ⟨.policyDenied, "promotion_policy_id is not promotion-based"⟩)
        else .comparing proposal)
  | .comparing proposal =>
    some (state, guarded (state.snapshot env proposal.childRoomId) fun childHash =>
      if childHash ≠ proposal.childCheckpointHash then
        .answered (.error ⟨.childCheckpointMismatch,
          "child canonical_hash does not match child_checkpoint_hash"⟩)
      else .reading proposal)
  | .reading proposal =>
    some (state, guarded (state.snapshot env proposal.parentRoomId) fun parentHash =>
      let record := newRecord env proposal parentHash
      .rechecking (proposal.idempotencyKey.getD record.proposalDigest) record)
  | .rechecking proposalId record =>
    match state.store proposalId with
    | none => some (state, .inserting proposalId record)
    | some existing =>
      if existing.lifecycle ≠ .proposed ∨ existing.parentRoomId ≠ record.parentRoomId then
        some (state, .answered (.error
          ⟨.applyConflict, "proposal_id already used with different inputs"⟩))
      else some (state, .answered (.ok
        ({ record with proposalDigest := existing.proposalDigest }.asProposed proposalId)))
  | .inserting proposalId record =>
    some (state.setStore proposalId record, .answered (.ok (record.asProposed proposalId)))
  | .validating proposalId =>
    match state.store proposalId with
    | none => some (state, .answered (.error ⟨.notFound, "proposal not found"⟩))
    | some record =>
      if record.lifecycle = .applied then
        some (state, .answered (.ok (.validated
          ⟨proposalId, record.validationDigest.getD record.proposalDigest⟩)))
      else some (state, .retracing proposalId record)
  | .retracing proposalId record =>
    some (state, guarded (state.loadChildLineage record.childRoomId record.parentRoomId)
      fun _ => .recomparing proposalId record)
  | .recomparing proposalId record =>
    some (state, guarded (state.snapshot env record.childRoomId) fun childHash =>
      if childHash ≠ record.childCheckpointHash then
        .answered (.error ⟨.childCheckpointMismatch, "child checkpoint changed since proposal"⟩)
      else .rereading proposalId record)
  | .rereading proposalId record =>
    some (state, guarded (state.snapshot env record.parentRoomId) fun parentHash =>
      if parentHash ≠ record.parentCanonicalHashAtPropose then
        .answered (.error ⟨.staleParent, "parent canonical hash moved since proposal"⟩)
      else
        let digest := validationDigest env proposalId record parentHash
        .marking proposalId (record.asValidated parentHash digest) digest)
  | .marking proposalId record digest =>
    some (state.setStore proposalId record, .answered (.ok (.validated ⟨proposalId, digest⟩)))
  | .applying proposalId =>
    match state.store proposalId with
    | none => some (state, .answered (.error ⟨.notFound, "proposal not found"⟩))
    | some record =>
      match record.lifecycle with
      | .applied => some (state, .answered (.ok (.applied ⟨proposalId, record.parentRoomId,
          record.parentNewCanonicalHash.getD record.parentCanonicalHashAtPropose,
          record.auditKey.getD (auditKeyOf proposalId)⟩)))
      | .validated => some (state, .checking proposalId record)
      | .proposed => some (state, .answered (.error
          ⟨.notValidated, "proposal must be validated before apply"⟩))
  | .checking proposalId record =>
    some (state, guarded (state.snapshot env record.parentRoomId) fun parentHash =>
      if parentHash ≠ record.expectedParent then
        .answered (.error ⟨.staleParent, "parent canonical hash moved since validation"⟩)
      else .committing proposalId record)
  | .committing proposalId record =>
    let graph := state.graphs record.parentRoomId
    (Enumeration.ofList? graph.leaves parents).map fun order =>
      match commitAuditNode env graph proposalId record order with
      | none => (state, .panicked)
      | some (committed, .error error) => (state.setGraph record.parentRoomId committed,
          .answered (.error ⟨.applyConflict,
            "failed to commit promotion audit node: " ++ error.text⟩))
      | some (committed, .ok _) =>
        (state.setGraph record.parentRoomId committed, .measuring proposalId record)
  | .measuring proposalId record =>
    some (state, guarded (state.snapshot env record.parentRoomId) (.recording proposalId record))
  | .recording proposalId record parentHash =>
    some (state.setStore proposalId (record.asApplied proposalId parentHash),
      .answered (.ok (.applied
        ⟨proposalId, record.parentRoomId, parentHash, auditKeyOf proposalId⟩)))
  | .answered _ => none
  | .panicked => none

def perform (state : Promotions) : PromotionAction → Option Promotions
  | .send request message =>
    match state.requests request with
    | .idle => some (state.setRequest request (openRequest message))
    | _ => none
  | .advance request parents =>
    (state.advance env parents (state.requests request)).map fun advanced =>
      advanced.1.setRequest request advanced.2
  | .importNodes roomId nowMs nodes =>
    some (state.setGraph roomId
      (NodalMerge.importNodes env.crypto nowMs (state.graphs roomId) nodes).graph)
  | .setPolicy roomId policy =>
    some (state.setGraph roomId ((state.graphs roomId).setPolicy policy))
  | .relink roomId lineage =>
    some { state with lineages := update state.lineages roomId lineage }

/-- An audit node that is committed: the hash of the parent before it and the one that
the validation recorded. -/
structure Audit where
  proposalId : String
  before : Except LineageRejected String
  recorded : Option String

/-- The audit node that an action commits. -/
def audits (state : Promotions) : PromotionAction → List Audit
  | .advance request parents =>
    match state.requests request with
    | .committing proposalId record =>
      match state.advance env parents (.committing proposalId record) with
      | some (_, .measuring ..) => [⟨proposalId,
          snapshotRoomCanonicalHash env (state.graphs record.parentRoomId),
          (state.store proposalId).bind PromotionRecord.parentCanonicalHashAtValidate⟩]
      | _ => []
    | _ => []
  | _ => []

end Promotions

end

end NodalMerge
