import NodalMerge.Library.Ancestry
import NodalMerge.Archive.Adapter

namespace NodalMerge

open AList Ancestry Function List Machine Option StateGraph

structure ParentCheckpoint where
  frontier : List String
  canonicalHash : String
  policyTimelineHash : Option String
  deriving DecidableEq

structure RoomLineage where
  parentRoomId : String
  parentCheckpoint : ParentCheckpoint
  childPurpose : String
  createdBy : String
  createdAtHlc : Nat
  promotionPolicyId : String
  deriving DecidableEq

inductive LineageReasonClass where
  | parentCheckpointMismatch
  | policyUnknown
  | parentNotFound
  | childAlreadyExists
  | roomNotFound
  | invalidCheckpoint
  deriving DecidableEq

structure LineageRejected where
  reasonClass : LineageReasonClass
  reasonMessage : String
  deriving DecidableEq

structure ChildRoomCreated where
  childRoomId : String
  lineage : RoomLineage

structure ChildRoomSummary where
  childRoomId : String
  childPurpose : String
  promotionPolicyId : String
  createdBy : String

structure ChildrenListed where
  parentRoomId : String
  children : List ChildRoomSummary

/-- How far the task has come that `get_or_create` starts for a new room. -/
inductive FamilyHydration where
  | loading
  | reading
  | publishing (lineage : RoomLineage)
  | indexing (lineage : RoomLineage)
  | done

structure FamilyRoom where
  graph : StateGraph
  policyTimeline : List PolicyTimelineEntry
  lineage : Option RoomLineage
  hydration : FamilyHydration

/-- `Room::new`, with the task that hydrates it. -/
def FamilyRoom.new : FamilyRoom := ⟨.empty, [⟨0, .default⟩], none, .loading⟩

/-- The hydration task holds the room. -/
def FamilyRoom.hydrated (room : FamilyRoom) : Bool :=
  match room.hydration with
  | .done => true
  | _ => false

/-- A registry over durable tables of nodes and lineages. -/
structure Family where
  rooms : AList fun _ : String => FamilyRoom
  lineageStore : AList fun _ : String => RoomLineage
  childrenIndex : String → List String
  childrenIndexCap : Option Nat
  table : List NodeRow

/-- What `create_child_room` is called with. -/
structure CreateChild where
  parentRoomId : String
  childRoomId : String
  expectedCheckpoint : ParentCheckpoint
  childPurpose : String
  createdBy : String
  promotionPolicyId : String

inductive FamilyAction where
  | createChildRoom (request : CreateChild)
  | getOrCreate (roomId : String)
  | listChildren (parentRoomId : String)
  /-- The hydration task of the room goes one step further. -/
  | hydrate (roomId : String)
  /-- Rooms that somebody holds, or that have not been idle for long, stay. -/
  | sweepIdle (busy : String → Bool)
  | importNodes (roomId : String) (nowMs : Nat) (nodes : List SyncNode)
  | setPolicy (roomId : String) (policy : Policy)
  | restart

/-- What the registry takes from outside: `iterate` is the order in which the node
map of a room yields its nodes. -/
structure FamilyEnv where
  crypto : Crypto
  postcard : Postcard
  iterate : List SyncNode → List SyncNode

section
variable (env : FamilyEnv)

def snapshotParentCheckpoint (room : FamilyRoom) : Except LineageRejected ParentCheckpoint :=
  let nodes := env.iterate room.graph.nodes.data
  if nodes.isEmpty then
    .error ⟨.invalidCheckpoint, "parent room has no nodes — cannot snapshot checkpoint"⟩
  else
    match replay env.crypto nodes none with
    | .error error => .error ⟨.invalidCheckpoint, "parent replay failed: " ++ error.text⟩
    | .ok replayed => .ok {
        frontier := room.graph.frontier.heads.map fun id => hexLower id.val
        canonicalHash := hexLower (canonicalHash env.crypto replayed.map).val
        policyTimelineHash :=
          some (hexLower (policyTimelineHash env.crypto env.postcard room.policyTimeline).val) }

namespace Family

/-- A process that has just started on its tables. -/
def start (lineageStore : AList fun _ : String => RoomLineage) (cap : Option Nat)
    (table : List NodeRow) : Family :=
  ⟨∅, lineageStore, fun _ => [], cap, table⟩

variable (state : Family)

def put (roomId : String) (room : FamilyRoom) : Family :=
  { state with rooms := state.rooms.insert roomId room }

def getOrCreate (roomId : String) : FamilyRoom :=
  (state.rooms.lookup roomId).getD .new

/-- The entry of the index when the child is named under the parent. -/
def named (parentRoomId childRoomId : String) : List String :=
  let children := state.childrenIndex parentRoomId
  if childRoomId ∈ children then children else children ++ [childRoomId]

def setIndex (parentRoomId : String) (children : List String) : Family :=
  { state with childrenIndex := update state.childrenIndex parentRoomId children }

/-- The oldest entries go when there are more than the cap allows. -/
def capped (cap : Option Nat) (children : List String) : List String :=
  match cap with
  | some cap => if cap < children.length then children.drop (children.length - cap) else children
  | none => children

/-- The checks of `create_child_room`, with the lineage they lead to. -/
def childLineage (request : CreateChild) : Except LineageRejected RoomLineage :=
  match state.rooms.lookup request.parentRoomId with
  | none => .error ⟨.parentNotFound, "parent room not found: " ++ request.parentRoomId⟩
  | some parent =>
    match state.rooms.lookup request.childRoomId with
    | some _ => .error ⟨.childAlreadyExists, "child room already exists: " ++ request.childRoomId⟩
    | none =>
      match snapshotParentCheckpoint env parent with
      | .error rejected => .error rejected
      | .ok actual =>
        if actual.canonicalHash ≠ request.expectedCheckpoint.canonicalHash then
          .error ⟨.parentCheckpointMismatch,
            "parent canonical_hash does not match declared parent_checkpoint"⟩
        else if request.expectedCheckpoint.policyTimelineHash.isSome ∧
            actual.policyTimelineHash.isSome ∧
            request.expectedCheckpoint.policyTimelineHash ≠ actual.policyTimelineHash then
          .error ⟨.parentCheckpointMismatch,
            "parent policy_timeline_hash does not match current parent timeline"⟩
        else .ok {
          parentRoomId := request.parentRoomId
          parentCheckpoint := request.expectedCheckpoint
          childPurpose := request.childPurpose
          createdBy := request.createdBy
          createdAtHlc := parent.graph.lamport
          promotionPolicyId := request.promotionPolicyId }

/-- The room takes the lineage, and the store and the index are told. -/
def adopt (parentRoomId childRoomId : String) (child : FamilyRoom) (lineage : RoomLineage) :
    Family :=
  let stored := { state.put childRoomId { child with lineage := some lineage } with
    lineageStore := state.lineageStore.insert childRoomId lineage }
  stored.setIndex parentRoomId
    (capped state.childrenIndexCap (state.named parentRoomId childRoomId))

def createChildRoom (request : CreateChild) : Family × Except LineageRejected ChildRoomCreated :=
  match state.childLineage env request with
  | .error rejected => (state, .error rejected)
  | .ok lineage =>
    let child := state.getOrCreate request.childRoomId
    if child.lineage.isSome then
      (state.put request.childRoomId child,
        .error ⟨.childAlreadyExists, "child room already has lineage metadata"⟩)
    else (state.adopt request.parentRoomId request.childRoomId child lineage,
      .ok ⟨request.childRoomId, lineage⟩)

/-- The rooms whose stored lineage names the parent, in the order of their ids. -/
def storedChildren (parentRoomId : String) : List String :=
  (state.lineageStore.keys.filter fun roomId =>
    (state.lineageStore.lookup roomId).elim false fun lineage =>
      lineage.parentRoomId = parentRoomId).insertionSort (· ≤ ·)

/-- One child of a listing: its lineage is taken from the room or from the store. -/
def listChild (listed : Family × List ChildRoomSummary) (childId : String) :
    Family × List ChildRoomSummary :=
  let room := listed.1.getOrCreate childId
  let lineage := room.lineage.or (listed.1.lineageStore.lookup childId)
  let state := listed.1.put childId { room with lineage }
  match lineage with
  | none => (state, listed.2)
  | some lineage => (state, listed.2 ++
      [⟨childId, lineage.childPurpose, lineage.promotionPolicyId, lineage.createdBy⟩])

/-- The first occurrence of each id. -/
def deduped (ids : List String) : List String :=
  ids.foldl (fun kept id => if id ∈ kept then kept else kept ++ [id]) []

/-- The ids that a listing goes through, and the index it leaves. -/
def childIds (parentRoomId : String) : Family × List String :=
  match state.childrenIndex parentRoomId with
  | [] =>
    match deduped (state.storedChildren parentRoomId) with
    | [] => (state, [])
    | found => (state.setIndex parentRoomId (capped state.childrenIndexCap found), found)
  | known => (state, known)

def listChildren (parentRoomId : String) : Family × Except LineageRejected ChildrenListed :=
  match state.rooms.lookup parentRoomId with
  | none => (state, .error ⟨.parentNotFound, "parent room not found: " ++ parentRoomId⟩)
  | some _ =>
    let ids := state.childIds parentRoomId
    let listed := ids.2.foldl listChild (ids.1, [])
    (listed.1, .ok ⟨parentRoomId, listed.2⟩)

/-- One step of the task that hydrates a room. -/
def hydrate (roomId : String) (room : FamilyRoom) : Option Family :=
  match room.hydration with
  | .loading => some (state.put roomId { room with
      graph := (NodalMerge.hydrate env.crypto room.graph (loadRoomNodes state.table roomId)).1
      hydration := .reading })
  | .reading => some (state.put roomId { room with
      hydration := (state.lineageStore.lookup roomId).elim .done .publishing })
  | .publishing lineage =>
    some (state.put roomId { room with lineage := some lineage, hydration := .indexing lineage })
  | .indexing lineage =>
    some ((state.put roomId { room with hydration := .done }).setIndex lineage.parentRoomId
      (state.named lineage.parentRoomId roomId))
  | .done => none

def sweepIdle (busy : String → Bool) : Family :=
  let idle := state.rooms.keys.filter fun roomId =>
    !busy roomId && (state.rooms.lookup roomId).elim false FamilyRoom.hydrated
  { state with rooms := idle.foldl (fun rooms roomId => rooms.erase roomId) state.rooms }

/-- One operation; `none` when it does not apply. -/
def perform : FamilyAction → Option Family
  | .createChildRoom request => some (state.createChildRoom env request).1
  | .getOrCreate roomId => some (state.put roomId (state.getOrCreate roomId))
  | .listChildren parentRoomId => some (state.listChildren parentRoomId).1
  | .hydrate roomId => (state.rooms.lookup roomId).bind (state.hydrate env roomId)
  | .sweepIdle busy => some (state.sweepIdle busy)
  | .importNodes roomId nowMs nodes =>
    (state.rooms.lookup roomId).map fun room =>
      let imported := importedNodes env.crypto nowMs room.graph nodes
      { state.put roomId
          { room with graph := (NodalMerge.importNodes env.crypto nowMs room.graph nodes).graph } with
        table := imported.foldl (fun table node => persistRow table roomId node) state.table }
  | .setPolicy roomId policy =>
    (state.rooms.lookup roomId).map fun room =>
      state.put roomId { room with
        graph := room.graph.setPolicy policy
        policyTimeline := room.policyTimeline ++ [⟨nextCutover room.policyTimeline, policy⟩] }
  | .restart => some (start state.lineageStore state.childrenIndexCap state.table)

/-- The entry that an operation writes to the lineage store. -/
def written : FamilyAction → Option (String × RoomLineage)
  | .createChildRoom request =>
    (state.childLineage env request).toOption.map fun lineage => (request.childRoomId, lineage)
  | _ => none

end Family

end

namespace Family

variable {state next : Family}

/-- The child of a call that passes its checks is not resident. -/
theorem lookup_of_childLineage (passed : state.childLineage env request = .ok lineage) :
    state.rooms.lookup request.childRoomId = none ∧
      lineage.parentRoomId = request.parentRoomId := by
  unfold childLineage at passed
  split at passed
  · cases passed
  · split at passed
    · cases passed
    · rename_i absent
      refine ⟨absent, ?_⟩
      split at passed
      · cases passed
      · split at passed
        · cases passed
        · split at passed
          · cases passed
          · cases passed
            rfl

theorem createChildRoom_ok (passed : state.childLineage env request = .ok lineage) :
    state.createChildRoom env request =
      (state.adopt request.parentRoomId request.childRoomId .new lineage,
        .ok ⟨request.childRoomId, lineage⟩) := by
  have fresh : state.getOrCreate request.childRoomId = .new := by
    rw [getOrCreate, (lookup_of_childLineage passed).1]
    rfl
  rw [createChildRoom, passed, fresh]
  rfl

theorem listChild_lineageStore (listed : Family × List ChildRoomSummary) (childId : String) :
    (listChild listed childId).1.lineageStore = listed.1.lineageStore := by
  rw [listChild]
  split <;> rfl

theorem childIds_lineageStore (state : Family) (parentRoomId : String) :
    (state.childIds parentRoomId).1.lineageStore = state.lineageStore := by
  rw [childIds]
  split
  · split <;> rfl
  · rfl

/-- A listing enters its index and then puts the rooms of the children. -/
theorem listChildren_keeps {Inv : Family → Prop} {parentRoomId : String} (start : Inv state)
    (index : Inv (state.childIds parentRoomId).1)
    (put : ∀ {family : Family} (roomId : String) (lineage : Option RoomLineage), Inv family →
      Inv (family.put roomId { family.getOrCreate roomId with lineage })) :
    Inv (state.listChildren parentRoomId).1 := by
  rw [listChildren]
  split
  · exact start
  · refine foldlRecOn _ listChild (motive := fun listed => Inv listed.1)
      (b := ((state.childIds parentRoomId).1, [])) index fun listed inv childId _ => ?_
    rw [listChild]
    split
    · exact put childId _ inv
    · exact put childId _ inv

theorem hydrate_lineageStore (stepped : state.hydrate env roomId room = some next) :
    next.lineageStore = state.lineageStore := by
  unfold hydrate at stepped
  split at stepped
  case h_5 => cases stepped
  all_goals
    cases stepped
    rfl

theorem perform_lineageStore (stepped : state.perform env action = some next) :
    next.lineageStore = (state.written env action).elim state.lineageStore fun entry =>
      state.lineageStore.insert entry.1 entry.2 := by
  cases action with
  | createChildRoom request =>
    cases stepped
    rw [written]
    cases passed : state.childLineage env request with
    | error rejected =>
      rw [createChildRoom, passed]
      rfl
    | ok lineage =>
      rw [createChildRoom_ok passed]
      rfl
  | listChildren parentRoomId =>
    cases stepped
    exact @listChildren_keeps _ (fun next => next.lineageStore = state.lineageStore) _ rfl
      (childIds_lineageStore ..) fun _ _ => id
  | hydrate roomId =>
    obtain ⟨room, -, stepped⟩ := bind_eq_some_iff.mp stepped
    exact hydrate_lineageStore stepped
  | importNodes roomId nowMs nodes =>
    obtain ⟨room, -, rfl⟩ := map_eq_some_iff.mp stepped
    rfl
  | setPolicy roomId policy =>
    obtain ⟨room, -, rfl⟩ := map_eq_some_iff.mp stepped
    rfl
  | getOrCreate roomId =>
    cases stepped
    rfl
  | sweepIdle busy =>
    cases stepped
    rfl
  | restart =>
    cases stepped
    rfl

/-- The parent that the stored lineage of a room names. -/
def parentOf (state : Family) (roomId : String) : Option String :=
  (state.lineageStore.lookup roomId).map RoomLineage.parentRoomId

/-- A lineage that is stored stays, and there is no cycle. -/
structure Keeps (before after : Family) : Prop where
  writeOnce : ∀ roomId lineage, before.lineageStore.lookup roomId = some lineage →
    after.lineageStore.lookup roomId = some lineage
  acyclic : Acyclic after.parentOf

/-- A call that passes its checks names a child that has no lineage yet, or this very
one, and that the parent does not stem from. -/
def NewLink (env : FamilyEnv) (state : Family) (action : FamilyAction) : Prop :=
  ∀ entry ∈ state.written env action,
    (∀ lineage, state.lineageStore.lookup entry.1 = some lineage → lineage = entry.2) ∧
      ¬ StemsFrom state.parentOf entry.2.parentRoomId entry.1

theorem parentOf_insert {entry : String × RoomLineage}
    (stored : next.lineageStore = state.lineageStore.insert entry.1 entry.2) :
    next.parentOf = update state.parentOf entry.1 (some entry.2.parentRoomId) := by
  funext roomId
  rw [parentOf, stored]
  by_cases same : roomId = entry.1
  · rw [same, lookup_insert, update_self]
    rfl
  · rw [lookup_insert_ne same, update_of_ne same]
    rfl

/-- One operation. -/
theorem keeps_iff_newLink (acyclic : Acyclic state.parentOf)
    (stepped : state.perform env action = some next) :
    Keeps state next ↔ NewLink env state action := by
  have stored := perform_lineageStore stepped
  unfold NewLink
  cases writes : state.written env action with
  | none =>
    rw [writes] at stored
    have same : next.parentOf = state.parentOf := by
      funext roomId
      rw [parentOf, stored]
      rfl
    refine ⟨nofun, fun _ => ⟨fun roomId lineage found => ?_, ?_⟩⟩
    · rw [stored]
      exact found
    · rw [same]
      exact acyclic
  | some entry =>
    rw [writes] at stored
    change next.lineageStore = state.lineageStore.insert entry.1 entry.2 at stored
    have links := parentOf_insert stored
    have cycles (free : ∀ lineage, state.lineageStore.lookup entry.1 = some lineage →
        lineage = entry.2) :
        Acyclic next.parentOf ↔ ¬ StemsFrom state.parentOf entry.2.parentRoomId entry.1 := by
      rw [links]
      refine acyclic_update_iff acyclic fun other linked => ?_
      obtain ⟨lineage, found, rfl⟩ := map_eq_some_iff.mp linked
      rw [free lineage found]
    constructor
    · intro keeps other isEntry
      cases isEntry
      have free (lineage : RoomLineage)
          (found : state.lineageStore.lookup entry.1 = some lineage) : lineage = entry.2 := by
        have kept := keeps.writeOnce entry.1 lineage found
        rw [stored, lookup_insert] at kept
        exact (Option.some.inj kept).symm
      exact ⟨free, (cycles free).mp keeps.acyclic⟩
    · intro new
      obtain ⟨free, apart⟩ := new entry rfl
      refine ⟨fun roomId lineage found => ?_, (cycles free).mpr apart⟩
      rw [stored]
      by_cases same : roomId = entry.1
      · subst same
        rw [lookup_insert, free lineage found]
      · rw [lookup_insert_ne same, found]

theorem Keeps.refl (acyclic : Acyclic state.parentOf) : Keeps state state :=
  ⟨fun _ _ => id, acyclic⟩

theorem Keeps.trans {after : Family} (first : Keeps state next) (second : Keeps next after) :
    Keeps state after :=
  ⟨fun roomId lineage found => second.writeOnce _ _ (first.writeOnce roomId lineage found),
    second.acyclic⟩

end Family

/-- Along every run of the registry a stored lineage stays as it is and the lineages
have no cycle exactly when every call of `create_child_room` that passes its checks
names a child without another stored lineage that the parent does not stem from. -/
theorem lineage_fixed_iff (env : FamilyEnv) (lineages : AList fun _ : String => RoomLineage)
    (cap : Option Nat) (table : List NodeRow)
    (acyclic : Acyclic (Family.start lineages cap table).parentOf) (actions : List FamilyAction)
    (final : Family) (ran : exec (Family.perform env) (.start lineages cap table) actions =
      some final) :
    Throughout (Family.perform env) Family.Keeps (.start lineages cap table) actions ↔
      Along (Family.perform env) (Family.NewLink env) (.start lineages cap table) actions :=
  throughout_iff_along (fun _ => .refl) Family.Keeps.trans Family.Keeps.acyclic
    Family.keeps_iff_newLink acyclic ran

def FamilyEnv.sample : FamilyEnv := ⟨.sample, .sample, id⟩

def familyTable : List NodeRow := [⟨"p", sampleNode⟩, ⟨"c", sampleNode⟩]

/-- The graph of either room when its rows are loaded. -/
def loadedGraph : StateGraph := (hydrate Crypto.sample .empty [sampleNode]).1

def loadedRoom (lineage : Option RoomLineage) (hydration : FamilyHydration) : FamilyRoom :=
  ⟨loadedGraph, [⟨0, .default⟩], lineage, hydration⟩

/-- The checkpoint that the rooms are at. -/
def sampleCheckpoint : ParentCheckpoint :=
  (snapshotParentCheckpoint .sample (loadedRoom none .done)).toOption.getD ⟨[], "", none⟩

/-- A call with the given checkpoint. -/
def CreateChild.sample (parentRoomId childRoomId childPurpose : String)
    (checkpoint : ParentCheckpoint) : CreateChild :=
  ⟨parentRoomId, childRoomId, checkpoint, childPurpose, "unknown", "reference-only"⟩

/-- The lineage that a call on one of the two rooms writes. -/
def RoomLineage.sample (parentRoomId childPurpose : String) (checkpoint : ParentCheckpoint) :
    RoomLineage :=
  ⟨parentRoomId, checkpoint, childPurpose, "unknown", loadedGraph.lamport, "reference-only"⟩

/-- The parent is loaded and a child is created under it. -/
def firstChild (checkpoint : ParentCheckpoint) : List FamilyAction :=
  [.getOrCreate "p", .hydrate "p", .createChildRoom (.sample "p" "c" "draft" checkpoint)]

/-- The registry when the parent is loaded. -/
def withParent : Family := (Family.start ∅ none familyTable).put "p" (loadedRoom none .reading)

/-- The registry after the first child. -/
def withChild (checkpoint : ParentCheckpoint) : Family :=
  withParent.adopt "p" "c" .new (.sample "p" "draft" checkpoint)

theorem exec_withParent : exec (Family.perform .sample) (.start ∅ none familyTable)
    [.getOrCreate "p", .hydrate "p"] = some withParent := rfl

/-- A registry without lineages. -/
theorem acyclic_empty : Acyclic (Family.start ∅ none familyTable).parentOf := by
  intro roomId cycle
  obtain ⟨_, edge, -⟩ := Relation.TransGen.head'_iff.mp cycle
  cases edge

theorem exec_firstChild : ∃ final, exec (Family.perform .sample) (.start ∅ none familyTable)
    (firstChild sampleCheckpoint) = some final ∧ final.parentOf "c" = some "p" := by
  have checked : ((exec (Family.perform .sample) (.start ∅ none familyTable)
      (firstChild sampleCheckpoint)).any fun final => final.parentOf "c" = some "p") = true := by
    decide +kernel
  obtain ⟨final, ran, linked⟩ := (any_eq_true _ _).mp checked
  exact ⟨final, ran, of_decide_eq_true linked⟩

theorem first_child_is_fixed :
    ∃ checkpoint final, exec (Family.perform .sample) (.start ∅ none familyTable)
        (firstChild checkpoint) = some final ∧
      Throughout (Family.perform .sample) Family.Keeps (.start ∅ none familyTable)
        (firstChild checkpoint) ∧
      final.parentOf "c" = some "p" := by
  obtain ⟨final, ran, linked⟩ := exec_firstChild
  refine ⟨sampleCheckpoint, final, ran, (lineage_fixed_iff .sample ∅ none familyTable
    acyclic_empty _ _ ran).mpr ?_, linked⟩
  refine (along_concat_iff exec_withParent).mpr ⟨?_, ?_⟩
  · exact ⟨nofun, fun _ _ => ⟨nofun, fun _ _ => trivial⟩⟩
  · intro entry writes
    have named : (withParent.written .sample
        (.createChildRoom (.sample "p" "c" "draft" sampleCheckpoint))).map
        (fun entry => (entry.1, entry.2.parentRoomId)) = some ("c", "p") := by decide +kernel
    rw [writes] at named
    simp only [map_some, Option.some.injEq, Prod.mk.injEq] at named
    refine ⟨fun lineage found => (by cases found), fun stems => ?_⟩
    rw [named.1, named.2] at stems
    obtain same | ⟨_, edge, -⟩ := Relation.ReflTransGen.cases_head stems
    · exact absurd (show "p" = "c" from same) (by decide)
    · cases edge

/-- When the child is evicted, a second call under another purpose replaces its
lineage; when the parent is evicted, it becomes a child of its own child. -/
theorem evicted_rooms_are_linked_again :
    ∃ checkpoint,
      (∃ actions final, exec (Family.perform .sample) (.start ∅ none familyTable)
          (firstChild checkpoint ++ actions) = some final ∧
        (withChild checkpoint).lineageStore.lookup "c" = some (.sample "p" "draft" checkpoint) ∧
        final.lineageStore.lookup "c" = some (.sample "p" "final" checkpoint)) ∧
      ∃ actions final, exec (Family.perform .sample) (.start ∅ none familyTable)
          (firstChild checkpoint ++ actions) = some final ∧
        final.parentOf "c" = some "p" ∧ final.parentOf "p" = some "c" ∧
        ¬ Acyclic final.parentOf := by
  have renamed : ((exec (Family.perform .sample) (.start ∅ none familyTable)
      (firstChild sampleCheckpoint ++ [.hydrate "c", .hydrate "c", .hydrate "c", .hydrate "c",
        .sweepIdle fun _ => false,
        .createChildRoom (.sample "p" "c" "final" sampleCheckpoint)])).any fun final =>
      final.lineageStore.lookup "c" = some (.sample "p" "final" sampleCheckpoint)) = true := by
    decide +kernel
  have turned : ((exec (Family.perform .sample) (.start ∅ none familyTable)
      (firstChild sampleCheckpoint ++ [.hydrate "p", .hydrate "c", .sweepIdle fun _ => false,
        .createChildRoom (.sample "c" "p" "draft" sampleCheckpoint)])).any fun final =>
      final.parentOf "c" = some "p" ∧ final.parentOf "p" = some "c") = true := by
    decide +kernel
  obtain ⟨last, ranOn, named⟩ := (any_eq_true _ _).mp renamed
  obtain ⟨final, ran, both⟩ := (any_eq_true _ _).mp turned
  obtain ⟨down, up⟩ := of_decide_eq_true both
  exact ⟨sampleCheckpoint, ⟨_, last, ranOn, by decide +kernel, of_decide_eq_true named⟩,
    _, final, ran, down, up, fun acyclic => acyclic "c" (.head down (.single up))⟩

end NodalMerge
