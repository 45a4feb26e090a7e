import NodalMerge.Crdt.CharText
import NodalMerge.Crdt.LiveText

namespace NodalMerge

open Function List StateGraph TextProjection
open StateGraph (localNode live noLeaves)

namespace TextProjection

/-- The projection is what the character ops of `seen` leave. -/
structure Settled (seen : Set UpdateOp) (projection : TextProjection) : Prop where
  kept : Kept seen [] ∅ projection
  consistent : Consistent seen

/-- An insert with this id was seen. -/
def Taken (seen : Set UpdateOp) (id : OpId) : Prop :=
  ∃ char : CharInsert, char.id = id ∧ char.update ∈ seen

theorem Taken.mono {id : OpId} (taken : Taken seen id) (wider : seen ⊆ more) : Taken more id := by
  obtain ⟨char, same, charSeen⟩ := taken
  exact ⟨char, same, wider charSeen⟩

/-- The op on the key has nothing left to do. A range delete always has. -/
def Done (seen : Set UpdateOp) (tx : Transaction) (key : String) : Op → Prop
  | .text (.insert opKey _ _) => opKey = key → Taken seen tx.opId
  | .text (.delete opKey target) => opKey = key → .delete target ∈ seen
  | .text (.insertRange opKey _ text) =>
    opKey = key → ∀ id ∈ charIds tx.opId 0 text.toList, Taken seen id
  | .text (.deleteRange opKey _ _) => opKey ≠ key
  | _ => True

variable {key : String}

theorem Done.mono (done : Done seen tx key op) (wider : seen ⊆ more) : Done more tx key op := by
  cases op with
  | map op => trivial
  | list op => trivial
  | text op =>
    cases op with
    | insert opKey after ch => exact fun same => (done same).mono wider
    | delete opKey target => exact fun same => wider (done same)
    | insertRange opKey anchor text => exact fun same id member => (done same id member).mono wider
    | deleteRange opKey anchor lenChars => exact done

theorem Settled.empty : Settled ∅ empty := ⟨.empty, fun none => none.elim⟩

section
variable (settled : Settled seen projection)
include settled

/-- An id that was seen is placed or buffered, so it is refused from then on. -/
theorem Settled.taken_iff {id : OpId} :
    Taken seen id ↔ id ∈ projection.ids ∨ id ∈ projection.orphanIds := by
  constructor
  · rintro ⟨char, rfl, charSeen⟩
    rcases settled.kept.covered char charSeen with known | moving | buffered
    · exact .inl known
    · cases moving
    · exact .inr (settled.kept.marked buffered)
  · rintro (known | orphan)
    · exact settled.kept.seen_of_known known
    · obtain ⟨char, same, charSeen, -⟩ := settled.kept.orphaned id orphan
      exact ⟨char, same, charSeen⟩

theorem Settled.applyInsert_taken {id : OpId} {after : Option OpId} (taken : Taken seen id) :
    projection.applyInsert id after ch = projection := by
  rcases settled.taken_iff.mp taken with known | orphan
  · exact applyInsert_known known
  · simp [applyInsert, orphan]

theorem Settled.applyInsert (id : OpId) (after : Option OpId) (ch : Char) :
    ∃ more, seen ⊆ more ∧ Settled more (projection.applyInsert id after ch) ∧
      Taken more id := by
  by_cases taken : Taken seen id
  · exact ⟨seen, subset_rfl, by rwa [settled.applyInsert_taken taken], taken⟩
  · have consistent : Consistent (insert (UpdateOp.insert id after ch) seen) := by
      intro first second firstSeen secondSeen same
      have fresh {char : CharInsert} (old : char.update ∈ seen) : char.id ≠ id :=
        fun equal => taken ⟨char, equal, old⟩
      have new {char : CharInsert} (equal : char.update = .insert id after ch) :
          char = ⟨id, after, ch⟩ := by
        cases char
        simpa [CharInsert.update] using equal
      rcases firstSeen with firstNew | firstOld <;> rcases secondSeen with secondNew | secondOld
      · rw [new firstNew, new secondNew]
      · exact (fresh secondOld (same.symm.trans (by rw [new firstNew]))).elim
      · exact (fresh firstOld (same.trans (by rw [new secondNew]))).elim
      · exact settled.consistent firstOld secondOld same
    exact ⟨_, Set.subset_insert _ _, ⟨settled.kept.applyInsert ⟨id, after, ch⟩ consistent,
      consistent⟩, ⟨id, after, ch⟩, rfl, Set.mem_insert _ _⟩

theorem Settled.applyDelete (target : OpId) :
    Settled (insert (.delete target) seen) (projection.applyDelete target) := by
  refine ⟨settled.kept.applyDelete, ?_⟩
  intro first second firstSeen secondSeen
  have old {char : CharInsert} (charSeen : char.update ∈ insert (UpdateOp.delete target) seen) :
      char.update ∈ seen := by simpa [CharInsert.update] using charSeen
  exact settled.consistent (old firstSeen) (old secondSeen)

/-- A delete that was seen has marked its target, or waits for it. -/
theorem Settled.applyDelete_seen {target : OpId} (deleted : .delete target ∈ seen) :
    projection.applyDelete target = projection := by
  rw [TextProjection.applyDelete]
  split
  · rename_i known
    rw [deleteKnown, if_pos known]
    have same : projection.items.map (fun item =>
        if item.id = target then { item with deleted := true } else item) = projection.items := by
      conv => rhs; rw [← map_id projection.items]
      refine map_congr_left fun item member => ?_
      split
      · rename_i hit
        have marked := (settled.kept.flags item member).mpr (hit ▸ deleted)
        cases item
        simp_all
      · rfl
    rw [same]
  · rename_i unknown
    have waits := (settled.kept.pending target).mpr ⟨deleted, fun known =>
      unknown (knows_iff.mpr known)⟩
    rw [Finset.insert_eq_of_mem waits]

theorem Settled.insertChars (base : OpId) (offset : Nat) (after : Option OpId) (chars : List Char) :
    ∃ more, seen ⊆ more ∧ Settled more (projection.insertChars base offset after chars) ∧
      ∀ id ∈ charIds base offset chars, Taken more id := by
  induction chars generalizing seen projection offset after with
  | nil => exact ⟨seen, subset_rfl, settled, by simp [charIds]⟩
  | cons ch rest ih =>
    obtain ⟨middle, wider, first, taken⟩ := settled.applyInsert (rangeCharId base offset) after ch
    obtain ⟨more, wider', last, others⟩ := ih first (offset + 1) (some (rangeCharId base offset))
    refine ⟨more, wider.trans wider', last, fun id member => ?_⟩
    rcases mem_cons.mp member with rfl | later
    · exact taken.mono wider'
    · exact others id later

theorem Settled.insertChars_taken {after : Option OpId}
    (taken : ∀ id ∈ charIds base offset chars, Taken seen id) :
    projection.insertChars base offset after chars = projection := by
  induction chars generalizing offset after with
  | nil => rfl
  | cons ch rest ih =>
    rw [TextProjection.insertChars, settled.applyInsert_taken (taken _ (.head _))]
    exact ih fun id member => taken id (.tail _ member)

theorem Settled.deleteAt (start count : Nat) :
    ∃ more, seen ⊆ more ∧ Settled more (projection.deleteAt start count) := by
  induction count generalizing seen projection with
  | zero => exact ⟨seen, subset_rfl, settled⟩
  | succ count ih =>
    rw [TextProjection.deleteAt]
    split
    · exact ⟨seen, subset_rfl, settled⟩
    · rename_i id found
      obtain ⟨item, visible, rfl⟩ := Option.map_eq_some_iff.mp found
      have known := mem_ids_of_visible (mem_of_getElem? visible)
      have same : projection.deleteKnown item.id = projection.applyDelete item.id := by
        rw [TextProjection.applyDelete, if_pos (knows_iff.mpr known)]
      rw [same]
      obtain ⟨more, wider, last⟩ := ih (settled.applyDelete item.id)
      exact ⟨more, (Set.subset_insert _ _).trans wider, last⟩

/-- One op keeps the projection settled, and unless it is a range delete on the
key there is nothing left to do for it. -/
theorem Settled.applyOp (tx : Transaction) (key : String) (op : Op) :
    ∃ more, seen ⊆ more ∧ Settled more (applyOp tx key projection op) ∧
      ((∀ anchor lenChars, op ≠ .text (.deleteRange key anchor lenChars)) → Done more tx key op) := by
  have untouched (done : Done seen tx key op) (same : TextProjection.applyOp tx key projection op =
      projection) : ∃ more, seen ⊆ more ∧ Settled more (TextProjection.applyOp tx key projection op) ∧
      ((∀ anchor lenChars, op ≠ .text (.deleteRange key anchor lenChars)) → Done more tx key op) :=
    ⟨seen, subset_rfl, by rwa [same], fun _ => done⟩
  cases op with
  | map op => exact untouched trivial rfl
  | list op => exact untouched trivial rfl
  | text op =>
    by_cases other : op.key = key
    · subst other
      cases op with
      | insert opKey after ch =>
        obtain ⟨more, wider, last, taken⟩ := settled.applyInsert tx.opId after ch
        exact ⟨more, wider, by simpa [TextProjection.applyOp, TextOp.key] using last,
          fun _ _ => taken⟩
      | delete opKey target =>
        refine ⟨_, Set.subset_insert (.delete target) seen, ?_, fun _ _ => Set.mem_insert _ _⟩
        simpa [TextProjection.applyOp, TextOp.key] using settled.applyDelete target
      | insertRange opKey anchor text =>
        obtain ⟨more, wider, last, taken⟩ := settled.insertChars tx.opId 0
          (projection.resolveAnchorAfterVisible anchor) text.toList
        refine ⟨more, wider, ?_, fun _ _ => taken⟩
        simpa [TextProjection.applyOp, TextOp.key, applyRangeInsert] using last
      | deleteRange opKey anchor lenChars =>
        obtain ⟨more, wider, last⟩ := settled.deleteAt (projection.resolveAnchorIndex anchor)
          (min lenChars (projection.visibleCharLen - projection.resolveAnchorIndex anchor))
        refine ⟨more, wider, ?_, fun plain => (plain anchor lenChars rfl).elim⟩
        simpa [TextProjection.applyOp, TextOp.key, applyRangeDelete] using last
    · have same : TextProjection.applyOp tx key projection (.text op) = projection :=
        applyOp_untouched fun textOp equal => by cases equal; exact other
      refine untouched ?_ same
      cases op with
      | insert opKey after ch => exact fun hit => (other hit).elim
      | delete opKey target => exact fun hit => (other hit).elim
      | insertRange opKey anchor text => exact fun hit => (other hit).elim
      | deleteRange opKey anchor lenChars => exact other

theorem Settled.applyOp_done (done : Done seen tx key op) :
    TextProjection.applyOp tx key projection op = projection := by
  cases op with
  | map op => rfl
  | list op => rfl
  | text op =>
    cases op with
    | insert opKey after ch =>
      exact ite_eq_right_iff.mpr fun same => settled.applyInsert_taken (done same)
    | delete opKey target =>
      exact ite_eq_right_iff.mpr fun same => settled.applyDelete_seen (done same)
    | insertRange opKey anchor text =>
      exact ite_eq_right_iff.mpr fun same => settled.insertChars_taken (done same)
    | deleteRange opKey anchor lenChars => exact if_neg done

/-- The key's ops of the transaction contain no range delete. -/
def Repeatable (key : String) (ops : List Op) : Prop :=
  ∀ anchor lenChars, .text (.deleteRange key anchor lenChars) ∉ ops

theorem Settled.foldl_applyOp (tx : Transaction) (key : String) (ops : List Op) :
    ∃ more, seen ⊆ more ∧ Settled more (ops.foldl (TextProjection.applyOp tx key)
      projection) ∧ (Repeatable key ops → ∀ op ∈ ops, Done more tx key op) := by
  induction ops generalizing seen projection with
  | nil => exact ⟨seen, subset_rfl, settled, fun _ _ none => (not_mem_nil none).elim⟩
  | cons op rest ih =>
    obtain ⟨middle, wider, first, done⟩ := settled.applyOp tx key op
    obtain ⟨more, wider', last, others⟩ := ih first
    refine ⟨more, wider.trans wider', last, fun plain other member => ?_⟩
    rcases mem_cons.mp member with rfl | later
    · exact (done fun anchor lenChars same => plain anchor lenChars (same ▸ .head _)).mono wider'
    · exact others (fun anchor lenChars inside => plain anchor lenChars (.tail _ inside)) other later

theorem Settled.foldl_done {ops : List Op} (done : ∀ op ∈ ops, Done seen tx key op) :
    ops.foldl (TextProjection.applyOp tx key) projection = projection := by
  induction ops with
  | nil => rfl
  | cons op rest ih =>
    rw [foldl_cons, settled.applyOp_done (done op (.head _))]
    exact ih fun other member => done other (.tail _ member)

/-- Without range deletes, folding a node in again changes nothing. -/
theorem Settled.iterate_applyNode (plain : Repeatable key node.transaction.ops) (count : Nat) :
    (fun current => current.applyNode node key)^[count + 1] projection =
      projection.applyNode node key := by
  obtain ⟨more, -, last, done⟩ := settled.foldl_applyOp node.transaction key node.transaction.ops
  have again : (projection.applyNode node key).applyNode node key = projection.applyNode node key :=
    last.foldl_done (done plain)
  induction count with
  | zero => rfl
  | succ count ih => rw [iterate_succ_apply', ih, again]

end

theorem fromNodes_settled (nodes : List SyncNode) (key : String) :
    ∃ seen, Settled seen (fromNodes nodes key) := by
  induction nodes using reverseRecOn with
  | nil => exact ⟨∅, .empty⟩
  | append_singleton earlier node ih =>
    obtain ⟨seen, settled⟩ := ih
    obtain ⟨more, -, last, -⟩ := settled.foldl_applyOp node.transaction key node.transaction.ops
    refine ⟨more, ?_⟩
    rw [fromNodes, foldl_append]
    exact last

end TextProjection

/-- `text::resolve_text_seq` over the whole store: a sorted full replay. -/
def StateGraph.resolveTextSeqLegacy (graph : StateGraph) (key : String) : List (OpId × Char) :=
  (TextProjection.fromNodes graph.allNodesForText key).resolveSeq

/-- A graph with what decides which projections stay resident. `usize` and
`u64` counters saturate as in the source. -/
structure ResidentGraph where
  graph : StateGraph
  maxResidentKeys : Nat
  lastTouch : HashMap String Nat
  touchClock : Nat
  paritySampleEvery : Nat
  paritySelectedKeys : Finset String
  parityUpdateCount : Nat

/-- One pass over the resident keys as a `HashMap` happens to be iterated, with
the verdict of the read and write counters on each key. -/
structure Sighting (projections : HashMap String TextProjection) where
  order : Enumeration projections.keys
  isHot : String → Bool

/-- What every eviction pass sees. -/
abbrev Scan := ∀ projections : HashMap String TextProjection, Sighting projections

namespace ResidentGraph

def start : ResidentGraph where
  graph := .empty
  maxResidentKeys := u64Max
  lastTouch := ∅
  touchClock := 0
  paritySampleEvery := 16
  paritySelectedKeys := ∅
  parityUpdateCount := 0

/-- Keep the candidate that was touched longest ago, the earlier one on a tie. -/
def updateCandidate (lastTouch : HashMap String Nat) (slot : Option (String × Nat))
    (key : String) : Option (String × Nat) :=
  let touched := (lastTouch.lookup key).getD 0
  match slot with
  | some (kept, since) => if touched < since then some (key, touched) else some (kept, since)
  | none => some (key, touched)

/-- The key to evict: the least recently touched one that is not hot, else the
least recently touched one. -/
def victim (lastTouch : HashMap String Nat) (isHot : String → Bool) (keys : List String) :
    Option String :=
  let warmCandidate := (keys.filter fun key => !isHot key).foldl (updateCandidate lastTouch) none
  let fallbackCandidate := keys.foldl (updateCandidate lastTouch) none
  (warmCandidate.or fallbackCandidate).map Prod.fst

section
variable (state : ResidentGraph)

def withGraph (graph : StateGraph) : ResidentGraph := { state with graph }

def withProjections (projections : HashMap String TextProjection) : ResidentGraph :=
  state.withGraph { state.graph with textProjections := projections }

def demoteTextProjectionKey (key : String) : ResidentGraph :=
  { state.withProjections (state.graph.textProjections.erase key) with
    lastTouch := state.lastTouch.erase key }

def touchTextProjectionKey (key : String) : ResidentGraph :=
  let clock := saturatingAdd state.touchClock 1
  { state with touchClock := clock, lastTouch := state.lastTouch.insert key clock }

theorem updateCandidate_mem {lastTouch : HashMap String Nat} {keys : List String}
    (chosen : keys.foldl (updateCandidate lastTouch) slot = some found) :
    slot = some found ∨ found.1 ∈ keys := by
  induction keys generalizing slot with
  | nil => exact .inl chosen
  | cons key rest ih =>
    rcases ih chosen with here | later
    · unfold updateCandidate at here
      dsimp only at here
      split at here
      · split at here
        · cases here
          exact .inr (.head _)
        · exact .inl here
      · cases here
        exact .inr (.head _)
    · exact .inr (.tail _ later)

theorem victim_mem {lastTouch : HashMap String Nat} {keys : List String}
    (chosen : victim lastTouch isHot keys = some key) : key ∈ keys := by
  obtain ⟨found, candidate, rfl⟩ := Option.map_eq_some_iff.mp chosen
  rcases Option.or_eq_some_iff.mp candidate with warm | ⟨-, fallback⟩
  · rcases updateCandidate_mem warm with none | member
    · cases none
    · exact mem_of_mem_filter member
  · rcases updateCandidate_mem fallback with none | member
    · cases none
    · exact member

/-- `enforce_text_projection_residency_policy`: evict until the limit is met. -/
def enforce (scan : Scan) (state : ResidentGraph) : ResidentGraph :=
  if state.graph.textProjections.keys.card ≤ state.maxResidentKeys then state
  else
    let sighting := scan state.graph.textProjections
    match _chosen : victim state.lastTouch sighting.isHot sighting.order.toList with
    | none => state
    | some key => enforce scan (state.demoteTextProjectionKey key)
termination_by state.graph.textProjections.keys.card
decreasing_by
  have resident : key ∈ state.graph.textProjections.keys := by
    rw [← (scan state.graph.textProjections).order.covers, mem_toFinset]
    exact victim_mem _chosen
  change (state.graph.textProjections.erase key).keys.card < _
  rw [Finmap.keys_erase]
  exact Finset.card_erase_lt_of_mem resident

def rebuildTextProjectionForKey (key : String) : ResidentGraph :=
  state.withProjections (state.graph.textProjections.insert key
    (.fromNodes state.graph.allNodesForText key))

/-- Compare with the replay and rebuild on a mismatch, key by key. -/
def runTextProjectionParityForKeys (keys : List String) : ResidentGraph :=
  keys.foldl (fun current key =>
    let projected := ((current.graph.textProjections.lookup key).getD .empty).resolveSeq
    if projected = current.graph.resolveTextSeqLegacy key then current
    else current.rebuildTextProjectionForKey key) state

/-- The sampled parity check after an update of the touched keys. -/
def parityCheck (touched : List String) : ResidentGraph :=
  if state.graph.textProjectionMode = .parityCheck ∧ touched ≠ [] then
    let counted := { state with parityUpdateCount := saturatingAdd state.parityUpdateCount 1 }
    if counted.parityUpdateCount % max state.paritySampleEvery 1 = 0 then
      counted.runTextProjectionParityForKeys
        (if state.paritySelectedKeys = ∅ then touched
        else touched.filter fun key => key ∈ state.paritySelectedKeys)
    else counted
  else state

/-- What follows the fold of a node into its projections: parity, touches in
the order the set of keys happens to be iterated, eviction. -/
def settle (touched : List String) (scan : Scan) : ResidentGraph :=
  (touched.foldl touchTextProjectionKey (state.parityCheck touched)).enforce scan

def collectTextKeys (graph : StateGraph) : Finset String :=
  (graph.nodes.data.flatMap textKeys).toFinset

def rebuildAllTextProjections (keys : List String) (scan : Scan) : ResidentGraph :=
  (keys.foldl (fun current key =>
    (current.rebuildTextProjectionForKey key).touchTextProjectionKey key) state).enforce scan

def setTextProjectionMode (mode : TextProjectionMode)
    (keys : Enumeration (collectTextKeys state.graph)) (scan : Scan) : ResidentGraph :=
  let switched := { state.withGraph { state.graph with textProjectionMode := mode } with
    parityUpdateCount := 0 }
  if mode ≠ .disabled then switched.rebuildAllTextProjections keys.toList scan else switched

def setTextProjectionResidencyPolicy (maxResidentKeys : Nat) (scan : Scan) : ResidentGraph :=
  { state with maxResidentKeys := maxResidentKeys }.enforce scan

def ensureTextProjectionResident (key : String) (scan : Scan) : ResidentGraph :=
  if state.graph.textProjectionMode = .disabled then state
  else if key ∈ state.graph.textProjections then state.touchTextProjectionKey key
  else ((state.rebuildTextProjectionForKey key).touchTextProjectionKey key).enforce scan

/-- Compaction shrinks buffers only; `shrunk` says whether it released any. -/
def compactTextProjectionKey (key : String) (shrunk : Bool) : ResidentGraph :=
  if key ∈ state.graph.textProjections ∧ shrunk then state.touchTextProjectionKey key else state

end

/-- A call, with the iteration orders it happens to meet. -/
inductive Call (crypto : Crypto) (state : ResidentGraph) where
  | applyLocal (signingKey : crypto.SigningKey) (wallMs : Nat) (ops : List Op)
      (parents : Enumeration state.graph.leaves)
      (touched : Enumeration (textKeys (localNode crypto state.graph signingKey wallMs
        ops parents)).toFinset) (scan : Scan)
  | demote (key : String)
  | ensureResident (key : String) (scan : Scan)
  | setResidencyPolicy (maxResidentKeys : Nat) (scan : Scan)
  | compactKey (key : String) (shrunk : Bool)
  | setMode (mode : TextProjectionMode) (keys : Enumeration (collectTextKeys state.graph))
      (scan : Scan)

/-- The state after the call; `none` when it panics. -/
def Call.run {crypto : Crypto} {state : ResidentGraph} : Call crypto state → Option ResidentGraph
  | .applyLocal signingKey wallMs ops parents touched scan =>
    (StateGraph.applyLocal crypto state.graph signingKey wallMs ops parents).map fun outcome =>
      let written := state.withGraph outcome.1
      match outcome.2 with
      | .ok _ => written.settle touched.toList scan
      | .error _ => written
  | .demote key => some (state.demoteTextProjectionKey key)
  | .ensureResident key scan => some (state.ensureTextProjectionResident key scan)
  | .setResidencyPolicy maxResidentKeys scan =>
    some (state.setTextProjectionResidencyPolicy maxResidentKeys scan)
  | .compactKey key shrunk => some (state.compactTextProjectionKey key shrunk)
  | .setMode mode keys scan => some (state.setTextProjectionMode mode keys scan)

inductive Reachable (crypto : Crypto)
    (Allowed : ∀ state : ResidentGraph, Call crypto state → Prop) : ResidentGraph → Prop where
  | start : Reachable crypto Allowed start
  | call {state after : ResidentGraph} {call : Call crypto state}
      (reached : Reachable crypto Allowed state) (allowed : Allowed state call)
      (ran : call.run = some after) : Reachable crypto Allowed after

/-- Only projections change, and a new one is the replay of the store. -/
structure Refreshes (before after : ResidentGraph) : Prop where
  nodes : after.graph.nodes = before.graph.nodes
  lamport : after.graph.lamport = before.graph.lamport
  mode : after.graph.textProjectionMode = before.graph.textProjectionMode
  projection : ∀ {key projection}, after.graph.textProjections.lookup key = some projection →
    before.graph.textProjections.lookup key = some projection ∨
      projection = .fromNodes before.graph.allNodesForText key

variable {state after : ResidentGraph}

theorem Refreshes.refl (state : ResidentGraph) : Refreshes state state := ⟨rfl, rfl, rfl, .inl⟩

theorem Refreshes.trans (first : Refreshes state middle) (second : Refreshes middle after) :
    Refreshes state after where
  nodes := second.nodes.trans first.nodes
  lamport := second.lamport.trans first.lamport
  mode := second.mode.trans first.mode
  projection found := by
    rcases second.projection found with old | rebuilt
    · exact first.projection old
    · rw [StateGraph.allNodesForText, first.nodes] at rebuilt
      exact .inr rebuilt

theorem Refreshes.foldl (each : ∀ state key, Refreshes state (step state key)) (keys : List String)
    (state : ResidentGraph) : Refreshes state (keys.foldl step state) := by
  induction keys generalizing state with
  | nil => exact .refl state
  | cons key rest ih => exact (each state key).trans (ih _)

theorem demote_refreshes (state : ResidentGraph) (key : String) :
    Refreshes state (state.demoteTextProjectionKey key) where
  nodes := rfl
  lamport := rfl
  mode := rfl
  projection {other _} found := by
    change (state.graph.textProjections.erase key).lookup other = _ at found
    by_cases same : other = key
    · rw [same, Finmap.lookup_erase] at found
      cases found
    · rw [Finmap.lookup_erase_ne same] at found
      exact .inl found

theorem touch_refreshes (state : ResidentGraph) (key : String) :
    Refreshes state (state.touchTextProjectionKey key) := ⟨rfl, rfl, rfl, .inl⟩

theorem rebuild_refreshes (state : ResidentGraph) (key : String) :
    Refreshes state (state.rebuildTextProjectionForKey key) where
  nodes := rfl
  lamport := rfl
  mode := rfl
  projection {other _} found := by
    replace found := (lookup_insert_ite _ other key _).symm.trans found
    split at found
    · rename_i same
      exact .inr (same ▸ (Option.some.inj found).symm)
    · exact .inl found

theorem enforce_refreshes (scan : Scan) (state : ResidentGraph) :
    Refreshes state (state.enforce scan) := by
  fun_induction enforce scan state with
  | case1 state fits => exact .refl state
  | case2 state excess sighting none => exact .refl state
  | case3 state excess sighting key chosen ih => exact (demote_refreshes state key).trans ih

theorem parity_refreshes (state : ResidentGraph) (touched : List String) :
    Refreshes state (state.parityCheck touched) := by
  have run (counted : ResidentGraph) (keys : List String) :
      Refreshes counted (counted.runTextProjectionParityForKeys keys) := by
    refine Refreshes.foldl (fun current key => ?_) keys counted
    dsimp only
    split
    · exact .refl current
    · exact rebuild_refreshes current key
  have counted : Refreshes state
      { state with parityUpdateCount := saturatingAdd state.parityUpdateCount 1 } :=
    ⟨rfl, rfl, rfl, .inl⟩
  unfold parityCheck
  split
  · dsimp only
    split
    · exact counted.trans (run _ _)
    · exact counted
  · exact .refl state

theorem settle_refreshes (state : ResidentGraph) (touched : List String) (scan : Scan) :
    Refreshes state (state.settle touched scan) :=
  ((parity_refreshes state touched).trans (Refreshes.foldl touch_refreshes touched _)).trans
    (enforce_refreshes scan _)

/-- The stored nodes come in replay order, and a projection of a key without
text ops is empty. -/
structure Stored (state : ResidentGraph) : Prop where
  ordered : state.graph.nodes.data.Pairwise fun first second => first.lamport < second.lamport
  clock : ∀ node ∈ state.graph.nodes.data, node.lamport ≤ state.graph.lamport
  blank : ∀ {key projection}, state.graph.textProjections.lookup key = some projection →
    (∀ node ∈ state.graph.nodes.data, key ∉ textKeys node) → projection = .empty

/-- Every resident projection is the replay of the store. -/
def Current (state : ResidentGraph) : Prop :=
  ∀ key projection, state.graph.textProjections.lookup key = some projection →
    projection = .fromNodes state.graph.nodes.data key

theorem Stored.allNodesForText (stored : state.Stored) :
    state.graph.allNodesForText = state.graph.nodes.data := by
  refine List.Pairwise.insertionSort_eq (stored.ordered.imp fun less => ?_)
  exact (Prod.Lex.left _ _ (Prod.Lex.left _ _ less) : _ < _).le

theorem fromNodes_untouched {nodes : List SyncNode}
    (untouched : ∀ node ∈ nodes, key ∉ textKeys node) :
    TextProjection.fromNodes nodes key = .empty :=
  foldl_applyNode_untouched untouched

theorem Stored.refresh (stored : state.Stored) (refreshes : Refreshes state after) :
    after.Stored where
  ordered := by rw [refreshes.nodes]; exact stored.ordered
  clock := by rw [refreshes.nodes, refreshes.lamport]; exact stored.clock
  blank found untouched := by
    rw [refreshes.nodes] at untouched
    rcases refreshes.projection found with old | rebuilt
    · exact stored.blank old untouched
    · rw [rebuilt, stored.allNodesForText]
      exact fromNodes_untouched untouched

theorem Current.refresh (stored : state.Stored) (current : state.Current)
    (refreshes : Refreshes state after) : after.Current := by
  intro key projection found
  rw [refreshes.nodes]
  rcases refreshes.projection found with old | rebuilt
  · exact current key projection old
  · rw [rebuilt, stored.allNodesForText]

/-- A node whose text ops the projections can follow: each key is resident or
new, and a range delete is the only text op on its key. -/
def Followed (state : ResidentGraph) (node : SyncNode) : Prop :=
  ∀ key ∈ textKeys node,
    (key ∈ state.graph.textProjections ∨ ∀ older ∈ state.graph.nodes.data, key ∉ textKeys older) ∧
    (TextProjection.Repeatable key node.transaction.ops ∨ (textKeys node).count key = 1)

/-- Writes made while projections answer reads are followed. -/
def Transparent (crypto : Crypto) (state : ResidentGraph) : Call crypto state → Prop
  | .applyLocal signingKey wallMs ops parents _ _ => state.graph.textProjectionMode = .enabled →
    state.Followed (localNode crypto state.graph signingKey wallMs ops parents)
  | _ => True

theorem lookup_updateFromNode_untouched {graph : StateGraph} (untouched : key ∉ textKeys node) :
    (graph.updateTextProjectionFromNode node).textProjections.lookup key =
      graph.textProjections.lookup key := by
  have folded := graph.live_updateFromNode node key
  rw [count_eq_zero.mpr untouched, iterate_zero_apply] at folded
  cases after : (graph.updateTextProjectionFromNode node).textProjections.lookup key with
  | none => exact (absent_updateFromNode after).1.symm
  | some projection =>
    simp only [live, after, Option.getD_some] at folded
    cases before : graph.textProjections.lookup key with
    | some old => rw [folded, before, Option.getD_some]
    | none =>
      have missing := (lookup_foldl_insert
        (fun key projection => projection.applyNode node key) (textKeys node)
        graph.textProjections key).2.mpr ⟨before, untouched⟩
      cases missing.symm.trans after

section
variable {node : SyncNode} (next : node.lamport = state.graph.lamport + 1)
  (room : state.graph.lamport + 1 ≤ u64Max) (fresh : state.graph.nodes.contains node.id = false)
include fresh

theorem commit_data :
    (state.graph.commitLocal ops node).nodes.data = state.graph.nodes.data ++ [node] :=
  MemoryNodeStore.put_fresh fresh

include next room

theorem Stored.commit (stored : state.Stored) :
    (state.withGraph (state.graph.commitLocal ops node)).Stored where
  ordered := by
    change List.Pairwise _ (state.graph.commitLocal ops node).nodes.data
    rw [commit_data fresh, pairwise_append]
    refine ⟨stored.ordered, pairwise_singleton _ _, fun older member last inLast => ?_⟩
    rw [mem_singleton.mp inLast, next]
    exact Nat.lt_succ_of_le (stored.clock older member)
  clock older member := by
    change older ∈ (state.graph.commitLocal ops node).nodes.data at member
    have advanced : state.graph.lamport + 1 ≤ (state.graph.commitLocal ops node).lamport := by
      refine le_trans ?_ (le_max_left _ _)
      exact le_min (Nat.le_add_right _ _) room
    refine le_trans ?_ advanced
    rw [commit_data fresh] at member
    rcases mem_append.mp member with old | new
    · exact Nat.le_succ_of_le (stored.clock older old)
    · rw [mem_singleton.mp new, next]
  blank {key projection} found untouched := by
    change ∀ older ∈ (state.graph.commitLocal ops node).nodes.data, key ∉ textKeys older at untouched
    rw [commit_data fresh] at untouched
    have before := lookup_updateFromNode_untouched
      (untouched node (mem_append_right _ (.head _))) ▸ found
    exact stored.blank before fun older member => untouched older (mem_append_left _ member)

omit next room

theorem Current.commit (current : state.Current) (followed : state.Followed node) :
    (state.withGraph (state.graph.commitLocal ops node)).Current := by
  intro key projection found
  change _ = TextProjection.fromNodes (state.graph.commitLocal ops node).nodes.data key
  rw [commit_data fresh, TextProjection.fromNodes, foldl_append]
  change projection = (TextProjection.fromNodes state.graph.nodes.data key).applyNode node key
  by_cases touched : key ∈ textKeys node
  · obtain ⟨resident, repeats⟩ := followed key touched
    have before : state.graph.live key = .fromNodes state.graph.nodes.data key := by
      rw [live]
      rcases resident with here | new
      · obtain ⟨old, lookup⟩ := Option.isSome_iff_exists.mp (Finmap.lookup_isSome.mpr here)
        rw [lookup, Option.getD_some, current key old lookup]
      · cases lookup : state.graph.textProjections.lookup key with
        | none => exact (fromNodes_untouched new).symm
        | some old => exact current key old lookup
    have after : projection = (fun current => current.applyNode node key)^[(textKeys node).count key]
        (state.graph.live key) := by
      rw [← live_updateFromNode]
      exact (congrArg (fun entry => Option.getD entry .empty) found).symm
    rw [after, before]
    rcases repeats with plain | once
    · obtain ⟨seen, settled⟩ := fromNodes_settled state.graph.nodes.data key
      obtain ⟨count, more⟩ := Nat.exists_eq_add_one.mpr (count_pos_iff.mpr touched)
      rw [more, settled.iterate_applyNode plain]
    · rw [once]
      rfl
  · rw [applyNode_untouched touched]
    exact current key projection (lookup_updateFromNode_untouched touched ▸ found)

end

theorem foldl_rebuild_graph (keys : List String) (state : ResidentGraph) :
    (keys.foldl (fun current key =>
      (current.rebuildTextProjectionForKey key).touchTextProjectionKey key) state).graph =
      { state.graph with
        textProjections := keys.foldl (fun projections key =>
          projections.insert key (.fromNodes state.graph.allNodesForText key))
          state.graph.textProjections } := by
  induction keys generalizing state with
  | nil => rfl
  | cons key rest ih => exact ih _

theorem lookup_foldl_rebuild (value : String → TextProjection) (keys : List String)
    (projections : HashMap String TextProjection) (key : String) :
    (keys.foldl (fun current key => current.insert key (value key)) projections).lookup key =
      if key ∈ keys then some (value key) else projections.lookup key := by
  induction keys generalizing projections with
  | nil => rfl
  | cons head rest ih =>
    rw [foldl_cons, ih, lookup_insert_ite]
    by_cases later : key ∈ rest
    · simp [later]
    · by_cases same : key = head
      · simp [same]
      · simp [later, same]

/-- Switching to a reading mode rebuilds every key that has text ops. -/
theorem Stored.setMode (stored : state.Stored) (mode : TextProjectionMode)
    (keys : Enumeration (collectTextKeys state.graph)) (scan : Scan) :
    (state.setTextProjectionMode mode keys scan).Stored ∧
      ((state.setTextProjectionMode mode keys scan).graph.textProjectionMode = .enabled →
        (state.setTextProjectionMode mode keys scan).Current) := by
  obtain ⟨switched, same⟩ : ∃ switched : ResidentGraph, switched =
      { state.withGraph { state.graph with textProjectionMode := mode } with
        parityUpdateCount := 0 } := ⟨_, rfl⟩
  have switchedStored : switched.Stored := by
    rw [same]
    exact ⟨stored.ordered, stored.clock, stored.blank⟩
  have nodes : switched.graph.nodes = state.graph.nodes := by rw [same]; rfl
  have switchedMode : switched.graph.textProjectionMode = mode := by rw [same]; rfl
  rw [setTextProjectionMode, ← same]
  split
  · obtain ⟨rebuilt, rebuiltIs⟩ : ∃ rebuilt, rebuilt = keys.toList.foldl (fun current key =>
        (current.rebuildTextProjectionForKey key).touchTextProjectionKey key) switched := ⟨_, rfl⟩
    have refreshes : Refreshes switched rebuilt := by
      rw [rebuiltIs]
      exact Refreshes.foldl (fun state key =>
        (rebuild_refreshes state key).trans (touch_refreshes _ key)) keys.toList switched
    have rebuiltStored := switchedStored.refresh refreshes
    have current : rebuilt.Current := by
      intro key projection found
      rw [rebuiltIs, foldl_rebuild_graph] at found
      replace found := (lookup_foldl_rebuild _ keys.toList _ key).symm.trans found
      rw [refreshes.nodes]
      split at found
      · rw [← Option.some.inj found, switchedStored.allNodesForText]
      · rename_i unlisted
        have untouched : ∀ node ∈ switched.graph.nodes.data, key ∉ textKeys node := by
          intro node member touched
          rw [nodes] at member
          refine unlisted (mem_toFinset.mp ?_)
          rw [keys.covers]
          exact mem_toFinset.mpr (mem_flatMap.mpr ⟨node, member, touched⟩)
        rw [switchedStored.blank found untouched, fromNodes_untouched untouched]
    rw [rebuildAllTextProjections, ← rebuiltIs]
    have evicts := enforce_refreshes scan rebuilt
    exact ⟨rebuiltStored.refresh evicts, fun _ => current.refresh rebuiltStored evicts⟩
  · rename_i disabled
    refine ⟨switchedStored, fun enabled => ?_⟩
    rw [switchedMode] at enabled
    simp [enabled] at disabled

theorem Refreshes.transparent (refreshes : Refreshes state after) (stored : state.Stored)
    (current : state.graph.textProjectionMode = .enabled → state.Current) :
    after.Stored ∧ (after.graph.textProjectionMode = .enabled → after.Current) := by
  refine ⟨stored.refresh refreshes, fun enabled => ?_⟩
  rw [refreshes.mode] at enabled
  exact (current enabled).refresh stored refreshes

theorem Call.run_transparent {call : Call crypto state}
    (transparent : Transparent crypto state call) (ran : call.run = some after)
    (stored : state.Stored) (current : state.graph.textProjectionMode = .enabled → state.Current) :
    after.Stored ∧ (after.graph.textProjectionMode = .enabled → after.Current) := by
  cases call with
  | applyLocal signingKey wallMs ops parents touched scan =>
    obtain ⟨outcome, wrote, rfl⟩ := Option.map_eq_some_iff.mp ran
    obtain ⟨room, ⟨_, rfl⟩ | ⟨fresh, rfl⟩⟩ := applyLocal_cases wrote
    · -- the clock moves, nothing is stored
      refine ⟨⟨stored.ordered, fun node member => ?_, stored.blank⟩, current⟩
      exact (stored.clock node member).trans (le_min (by omega) (by omega))
    · have next : (localNode crypto state.graph signingKey wallMs ops parents).lamport =
          state.graph.lamport + 1 := by
        rw [SyncNode.lamport, localNode_transaction]
        rfl
      refine (settle_refreshes _ touched.toList scan).transparent (stored.commit next room fresh) ?_
      exact fun enabled => (current enabled).commit fresh (transparent enabled)
  | demote key =>
    cases ran
    exact (demote_refreshes state key).transparent stored current
  | ensureResident key scan =>
    cases ran
    refine Refreshes.transparent ?_ stored current
    unfold ensureTextProjectionResident
    split
    · exact .refl state
    · split
      · exact touch_refreshes state key
      · exact ((rebuild_refreshes state key).trans (touch_refreshes _ key)).trans
          (enforce_refreshes scan _)
  | setResidencyPolicy maxResidentKeys scan =>
    cases ran
    have limited : Refreshes state { state with maxResidentKeys } := ⟨rfl, rfl, rfl, .inl⟩
    exact (limited.trans (enforce_refreshes scan _)).transparent stored current
  | compactKey key shrunk =>
    cases ran
    refine Refreshes.transparent ?_ stored current
    unfold compactTextProjectionKey
    split
    · exact touch_refreshes state key
    · exact .refl state
  | setMode mode keys scan =>
    cases ran
    exact stored.setMode mode keys scan

theorem Reachable.current (reached : Reachable crypto (Transparent crypto) state) :
    state.Stored ∧ (state.graph.textProjectionMode = .enabled → state.Current) := by
  induction reached with
  | start =>
    exact ⟨⟨.nil, fun _ none => (not_mem_nil none).elim, nofun⟩,
      nofun⟩
  | call _ transparent ran ih => exact Call.run_transparent transparent ran ih.1 ih.2

/-- Reads are answered as by the replay, whichever projections are resident. -/
theorem residency_transparent (crypto : Crypto) (state : ResidentGraph)
    (reached : Reachable crypto (Transparent crypto) state)
    (enabled : state.graph.textProjectionMode = .enabled) (key : String) :
    state.graph.resolveTextSeq key = state.graph.resolveTextSeqLegacy key := by
  obtain ⟨stored, current⟩ := reached.current
  rw [StateGraph.resolveTextSeq, StateGraph.textProjection, enabled,
    StateGraph.resolveTextSeqLegacy]
  cases found : state.graph.textProjections.lookup key with
  | none => rfl
  | some projection => rw [Option.getD_some, current enabled key projection found, stored.allNodesForText]

theorem settle_within (mode : state.graph.textProjectionMode = .enabled)
    (fits : state.graph.textProjections.keys.card ≤ state.maxResidentKeys) :
    state.settle touched scan = touched.foldl touchTextProjectionKey state := by
  have checked : state.parityCheck touched = state := by
    rw [parityCheck, if_neg]
    rw [mode]
    simp
  have touches (keys : List String) (current : ResidentGraph) :
      (keys.foldl touchTextProjectionKey current).graph = current.graph ∧
        (keys.foldl touchTextProjectionKey current).maxResidentKeys = current.maxResidentKeys := by
    induction keys generalizing current with
    | nil => exact ⟨rfl, rfl⟩
    | cons key rest ih => exact ih _
  obtain ⟨sameGraph, sameLimit⟩ := touches touched state
  rw [settle, checked, enforce, if_pos (by rw [sameGraph, sameLimit]; exact fits)]

/-- A write that evicts nothing. -/
theorem Reachable.commit {crypto : Crypto}
    {Allowed : ∀ state : ResidentGraph, Call crypto state → Prop}
    {signingKey : crypto.SigningKey} {wallMs : Nat} {ops : List Op}
    {parents : Enumeration state.graph.leaves} (reached : Reachable crypto Allowed state)
    (touched : Enumeration (textKeys
      (localNode crypto state.graph signingKey wallMs ops parents)).toFinset)
    (scan : Scan) (allowed : Allowed state (.applyLocal signingKey wallMs ops parents touched scan))
    (room : state.graph.lamport + 1 ≤ u64Max) (fresh : state.graph.nodes.contains
      (localNode crypto state.graph signingKey wallMs ops parents).id = false)
    (mode : state.graph.textProjectionMode = .enabled)
    (fits : (state.graph.commitLocal ops (localNode crypto state.graph signingKey wallMs
      ops parents)).textProjections.keys.card ≤ state.maxResidentKeys) :
    Reachable crypto Allowed (touched.toList.foldl touchTextProjectionKey (state.withGraph
      (state.graph.commitLocal ops
        (localNode crypto state.graph signingKey wallMs ops parents)))) := by
  refine .call reached allowed ?_
  rw [Call.run, applyLocal_commit room fresh]
  exact congrArg some (settle_within mode fits)

def sampleScan : Scan := fun projections =>
  ⟨⟨inOrder projections.keys, inOrder_nodup _, inOrder_toFinset _⟩, fun _ => false⟩

def typed (anchor : TextRangeAnchor) (text : String) : List Op :=
  [.text (.insertRange "doc" anchor text)]

theorem typed_repeatable (key : String) (anchor : TextRangeAnchor) (text : String) :
    TextProjection.Repeatable key (typed anchor text) := by
  simp [TextProjection.Repeatable, typed]

def draftNode : SyncNode :=
  localNode Crypto.sample .empty (Crypto.sampleKey 1) 0 (typed .atStart "a")
    noLeaves

def draft : ResidentGraph :=
  (start.withGraph (StateGraph.empty.commitLocal (typed .atStart "a")
    draftNode)).touchTextProjectionKey "doc"

def dropped : ResidentGraph := draft.demoteTextProjectionKey "doc"

def restored : ResidentGraph :=
  (dropped.rebuildTextProjectionForKey "doc").touchTextProjectionKey "doc"

def draftLeaves : Enumeration draft.graph.leaves := ⟨[draftNode.id], by simp, by decide⟩

/-- The second write, made on a graph with the nodes of the draft. -/
def nextNode : SyncNode :=
  localNode Crypto.sample draft.graph (Crypto.sampleKey 1) 0 (typed .atEnd "b") draftLeaves

variable {Allowed : ∀ state : ResidentGraph, Call Crypto.sample state → Prop}

section
variable (allowed : ∀ touched, Allowed start
  (.applyLocal (Crypto.sampleKey 1) 0 (typed .atStart "a") noLeaves touched sampleScan))
include allowed

theorem draft_reachable : Reachable Crypto.sample Allowed draft :=
  Reachable.start.commit ⟨["doc"], by simp, by decide⟩ sampleScan (allowed _) (by decide)
    (by decide) rfl (by decide)

theorem dropped_reachable (demotes : Allowed draft (.demote "doc")) :
    Reachable Crypto.sample Allowed dropped :=
  .call (draft_reachable allowed) demotes (rfl : Call.run (.demote "doc") = some dropped)

end

/-- The projection is rebuilt before the second write. -/
theorem restored_draft_grows :
    (restored.graph.commitLocal (typed .atEnd "b") nextNode).resolveTextSeq "doc" =
      (restored.graph.commitLocal (typed .atEnd "b") nextNode).resolveTextSeqLegacy "doc" ∧
    ((restored.graph.commitLocal (typed .atEnd "b") nextNode).resolveTextSeq "doc").map Prod.snd =
      ['a', 'b'] := by
  have reached : Reachable Crypto.sample (Transparent Crypto.sample) dropped :=
    dropped_reachable (fun _ _ key _ => ⟨.inr fun _ none => (not_mem_nil none).elim,
      .inl (typed_repeatable key .atStart "a")⟩) trivial
  have ensured : dropped.ensureTextProjectionResident "doc" sampleScan = restored := by
    rw [ensureTextProjectionResident, if_neg (by decide), if_neg (by decide), enforce,
      if_pos (by decide)]
    rfl
  have rebuilt : Reachable Crypto.sample (Transparent Crypto.sample) restored :=
    @Reachable.call Crypto.sample _ dropped restored (.ensureResident "doc" sampleScan) reached
      trivial (congrArg some ensured)
  have followed : restored.Followed nextNode := by
    intro key touched
    obtain rfl : key = "doc" := mem_singleton.mp touched
    exact ⟨.inl (by decide), .inl (typed_repeatable "doc" .atEnd "b")⟩
  have written := rebuilt.commit ⟨["doc"], by simp, by decide⟩ sampleScan (fun _ => followed)
    (by decide) (by decide) rfl (by decide)
  exact ⟨residency_transparent Crypto.sample _ written rfl "doc", by decide⟩

/-- An insert and a range delete of one write. -/
def inserted : List Op :=
  [.text (.insertRange "doc" .atStart "ab"), .text (.deleteRange "doc" .atStart 1)]

def insertedNode : SyncNode :=
  localNode Crypto.sample .empty (Crypto.sampleKey 1) 0 inserted noLeaves

/-- A write to a dropped projection shows nothing of what was there before, and
a range delete behind an insert of the same write is carried out twice. -/
theorem projections_lose_text :
    (Reachable Crypto.sample (fun _ _ => True) (touchTextProjectionKey (dropped.withGraph
        (dropped.graph.commitLocal (typed .atEnd "b") nextNode)) "doc") ∧
      (dropped.graph.commitLocal (typed .atEnd "b") nextNode).textProjectionMode = .enabled ∧
      ((dropped.graph.commitLocal (typed .atEnd "b") nextNode).resolveTextSeq "doc").map Prod.snd =
        ['b'] ∧
      ((dropped.graph.commitLocal (typed .atEnd "b") nextNode).resolveTextSeqLegacy "doc").map
        Prod.snd = ['a', 'b']) ∧
    Reachable Crypto.sample (fun _ _ => True) (touchTextProjectionKey (start.withGraph
        (StateGraph.empty.commitLocal inserted insertedNode)) "doc") ∧
      ((StateGraph.empty.commitLocal inserted insertedNode).resolveTextSeq "doc").map Prod.snd = [] ∧
      ((StateGraph.empty.commitLocal inserted insertedNode).resolveTextSeqLegacy "doc").map
        Prod.snd = ['b'] := by
  refine ⟨⟨?_, by decide, by decide, by decide⟩, ?_, by decide, by decide⟩
  · have reached : Reachable Crypto.sample (fun _ _ => True) dropped :=
      dropped_reachable (fun _ => trivial) trivial
    exact reached.commit ⟨["doc"], by simp, by decide⟩ sampleScan trivial (by decide)
      (by decide) rfl (by decide)
  · exact Reachable.start.commit ⟨["doc"], by simp, by decide⟩ sampleScan trivial (by decide)
      (by decide) rfl (by decide)

end ResidentGraph

end NodalMerge
