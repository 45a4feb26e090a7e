import NodalMerge.Library.Machine
import Mathlib.Data.Finset.Basic

namespace NodalMerge

open Function List Machine Option

inductive PeerCountGaugeUpdate where
  | increment
  | decrement
  | noChange
  deriving DecidableEq

structure RegisterPeerMembershipPlan where
  clearIdleSince : Bool
  gaugeUpdate : PeerCountGaugeUpdate

def planRegisterPeerMembership (inserted : Bool) : RegisterPeerMembershipPlan :=
  ⟨true, if inserted then .increment else .noChange⟩

structure DeregisterPeerMembershipPlan where
  setIdleSinceNow : Bool
  gaugeUpdate : PeerCountGaugeUpdate

def planDeregisterPeerMembership (removed peersEmptyAfter : Bool) :
    DeregisterPeerMembershipPlan :=
  ⟨peersEmptyAfter, if removed then .decrement else .noChange⟩

/-- The fields of a room that tell who is there. A key that is not in the table of
sessions counts zero. -/
structure Membership where
  connectedPeers : Finset String
  connectedPeerSessions : String → Nat
  idleSince : Option Nat

namespace Membership

variable (room : Membership) (pubkey : String)

/-- A new room has been idle since it was made. -/
def new (now : Nat) : Membership := ⟨∅, fun _ => 0, some now⟩

def usizeMax : Nat := 2 ^ 64 - 1

/-- The first section of `register_peer`, with the count it found. -/
def countSession : Membership × Nat :=
  let prior := room.connectedPeerSessions pubkey
  ({ room with connectedPeerSessions :=
      Function.update room.connectedPeerSessions pubkey (min (prior + 1) usizeMax) }, prior)

/-- The first section of `deregister_peer`, and whether the last session went. -/
def uncountSession : Membership × Bool :=
  match room.connectedPeerSessions pubkey with
  | 0 => (room, false)
  | 1 =>
    ({ room with connectedPeerSessions := update room.connectedPeerSessions pubkey 0 },
      true)
  | count + 2 =>
    ({ room with
        connectedPeerSessions := update room.connectedPeerSessions pubkey (count + 1) },
      false)

/-- The second section of `register_peer`. -/
def addPeer (prior : Nat) : Membership × PeerCountGaugeUpdate :=
  let inserted := decide (prior = 0 ∧ pubkey ∉ room.connectedPeers)
  let plan := planRegisterPeerMembership inserted
  ({ room with
      connectedPeers := if prior = 0 then insert pubkey room.connectedPeers else room.connectedPeers
      idleSince := if plan.clearIdleSince then none else room.idleSince }, plan.gaugeUpdate)

/-- The second section of `deregister_peer`. -/
def removePeer (removed : Bool) (now : Nat) : Membership × PeerCountGaugeUpdate :=
  let peers := if removed then room.connectedPeers.erase pubkey else room.connectedPeers
  let plan := planDeregisterPeerMembership removed (peers = ∅)
  ({ room with
      connectedPeers := peers
      idleSince := if plan.setIdleSinceNow then some now else room.idleSince }, plan.gaugeUpdate)

/-- The peers are those with a session, and the clock runs while there are none. -/
structure Consistent : Prop where
  peers : ∀ pubkey, pubkey ∈ room.connectedPeers ↔ 0 < room.connectedPeerSessions pubkey
  idle : room.idleSince.isSome = true ↔ room.connectedPeers = ∅

end Membership

inductive PeerCall where
  | register (pubkey : String)
  | deregister (pubkey : String)
  deriving DecidableEq

def PeerCall.pubkey : PeerCall → String
  | .register pubkey | .deregister pubkey => pubkey

/-- What a call remembers between its sections. -/
inductive Halfway where
  | registering (pubkey : String) (prior : Nat)
  | deregistering (pubkey : String) (removed : Bool)
  deriving DecidableEq

def Halfway.pubkey : Halfway → String
  | .registering pubkey _ | .deregistering pubkey _ => pubkey

inductive CallProgress where
  | waiting
  | half (half : Halfway)
  | done

def PeerCall.first (room : Membership) : PeerCall → Membership × Halfway
  | .register pubkey =>
    ((room.countSession pubkey).1, .registering pubkey (room.countSession pubkey).2)
  | .deregister pubkey =>
    ((room.uncountSession pubkey).1, .deregistering pubkey (room.uncountSession pubkey).2)

def Halfway.second (room : Membership) (now : Nat) : Halfway → Membership
  | .registering pubkey prior => (room.addPeer pubkey prior).1
  | .deregistering pubkey removed => (room.removePeer pubkey removed now).1

/-- What the second section relies on: the first session of a peer is still counted
when the peer is added, somebody's is when the clock is stopped, and none of the peer's
is when the peer is removed. -/
def Halfway.Fine (room : Membership) : Halfway → Prop
  | .registering pubkey 0 => 0 < room.connectedPeerSessions pubkey
  | .registering _ (_ + 1) => ∃ pubkey, 0 < room.connectedPeerSessions pubkey
  | .deregistering pubkey removed => removed = true → ¬ 0 < room.connectedPeerSessions pubkey

/-- What the first section left in the count of its key. -/
def Halfway.Held (room : Membership) : Halfway → Prop
  | .registering pubkey _ => 0 < room.connectedPeerSessions pubkey
  | .deregistering pubkey removed => removed = true → ¬ 0 < room.connectedPeerSessions pubkey

/-- A room and how far each of a list of calls has come. -/
structure PeerCalls where
  room : Membership
  progress : Nat → CallProgress

namespace PeerCalls

def start (now : Nat) : PeerCalls := ⟨.new now, fun _ => .waiting⟩

/-- The call with this number runs its next section at time `now`. -/
structure Turn where
  call : Nat
  now : Nat

variable (calls : List PeerCall) (state : PeerCalls)

def step (turn : Turn) : Option PeerCalls :=
  match calls[turn.call]?, state.progress turn.call with
  | some call, .waiting =>
    some ⟨(call.first state.room).1,
      update state.progress turn.call (.half (call.first state.room).2)⟩
  | some _, .half half =>
    some ⟨half.second state.room turn.now, update state.progress turn.call .done⟩
  | _, _ => none

/-- Some call is between its sections and remembers this. -/
def Pending (half : Halfway) : Prop :=
  ∃ call, state.progress call = .half half

/-- No call is between its sections. -/
def Quiet : Prop := ∀ call half, state.progress call ≠ .half half

/-- Nothing that a call between its sections relies on has changed. -/
def Calm : Prop := ∀ half, state.Pending half → half.Fine state.room

/-- No other call on the key of the turn is between its sections. -/
def Apart (turn : Turn) : Prop :=
  ∀ call ∈ calls[turn.call]?, ∀ other half, other ≠ turn.call →
    state.progress other = .half half → half.pubkey ≠ call.pubkey

/-- The turn is the second section of its call. -/
def Resumes (turn : Turn) : Prop :=
  ∃ half, state.progress turn.call = .half half

/-- In whatever order the calls in progress end, the membership is right then. -/
def Robust : Prop :=
  ∀ turns final, Along (step calls) Resumes state turns →
    exec (step calls) state turns = some final → final.Quiet → final.room.Consistent

variable {calls state} {next : PeerCalls} {turn : Turn} {room : Membership}
  {progress : CallProgress} {half : Halfway}

theorem step_cases (stepped : step calls state turn = some next) :
    (∃ call ∈ calls[turn.call]?, state.progress turn.call = .waiting ∧
        next = ⟨(call.first state.room).1,
          update state.progress turn.call (.half (call.first state.room).2)⟩) ∨
      ∃ half, state.progress turn.call = .half half ∧
        next = ⟨half.second state.room turn.now,
          update state.progress turn.call .done⟩ := by
  unfold step at stepped
  split at stepped
  · rename_i call found waiting
    exact .inl ⟨call, found, waiting, (Option.some.inj stepped).symm⟩
  · rename_i half _ found
    exact .inr ⟨half, found, (Option.some.inj stepped).symm⟩
  · cases stepped

/-- The half of another call is still there after the turn. -/
theorem Pending.kept (pending : state.Pending half)
    (other : state.progress turn.call ≠ .half half) :
    Pending ⟨room, update state.progress turn.call progress⟩ half := by
  obtain ⟨call, found⟩ := pending
  refine ⟨call, ?_⟩
  rw [← found]
  refine update_of_ne ?_ _ _
  rintro rfl
  exact other found

theorem Pending.before
    (pending : Pending ⟨room, update state.progress turn.call .done⟩ half) :
    state.Pending half := by
  obtain ⟨call, found⟩ := pending
  by_cases own : call = turn.call
  · simp [own] at found
  · exact ⟨call, (update_of_ne own _ _).symm.trans found⟩

/-- What holds between any two sections as long as the calls are calm. -/
structure Ascending (state : PeerCalls) : Prop where
  counted : ∀ pubkey, 0 < state.room.connectedPeerSessions pubkey →
    pubkey ∈ state.room.connectedPeers ∨ state.Pending (.registering pubkey 0)
  present : ∀ pubkey ∈ state.room.connectedPeers,
    0 < state.room.connectedPeerSessions pubkey ∨ state.Pending (.deregistering pubkey true)
  busy : state.room.connectedPeers ≠ ∅ → state.room.idleSince = none
  idle : state.room.idleSince = none →
    state.room.connectedPeers ≠ ∅ ∨ ∃ pubkey, state.Pending (.registering pubkey 0)

theorem ascending_start (now : Nat) : Ascending (start now) where
  counted _ positive := absurd positive (lt_irrefl 0)
  present _ member := absurd member (Finset.notMem_empty _)
  busy someone := absurd rfl someone
  idle stopped := by cases stopped

section
variable (ascending : Ascending state)
include ascending

theorem Ascending.consistent (quiet : state.Quiet) : state.room.Consistent := by
  have nobody (half : Halfway) : ¬ state.Pending half := fun ⟨call, found⟩ => quiet call half found
  constructor
  · intro pubkey
    constructor
    · intro member
      exact (ascending.present pubkey member).resolve_right (nobody _)
    · intro positive
      exact (ascending.counted pubkey positive).resolve_right (nobody _)
  · constructor
    · intro running
      by_contra someone
      simp [ascending.busy someone] at running
    · intro empty
      rw [← ne_none_iff_isSome]
      intro stopped
      obtain someone | ⟨pubkey, arriving⟩ := ascending.idle stopped
      · exact someone empty
      · exact nobody _ arriving

/-- A first section only changes the count of its key. -/
theorem Ascending.first {sessions : String → Nat} (waiting : state.progress turn.call = .waiting)
    (counted : ∀ pubkey, 0 < sessions pubkey →
      0 < state.room.connectedPeerSessions pubkey ∨ half = .registering pubkey 0)
    (present : ∀ pubkey, 0 < state.room.connectedPeerSessions pubkey →
      0 < sessions pubkey ∨ half = .deregistering pubkey true) :
    Ascending ⟨{ state.room with connectedPeerSessions := sessions },
      update state.progress turn.call (.half half)⟩ := by
  have notHalf (other : Halfway) : state.progress turn.call ≠ .half other := by simp [waiting]
  have own : Pending ⟨{ state.room with connectedPeerSessions := sessions },
      update state.progress turn.call (.half half)⟩ half := ⟨turn.call, update_self ..⟩
  constructor
  · intro pubkey positive
    obtain before | rfl := counted pubkey positive
    · exact (ascending.counted pubkey before).imp_right fun arriving => arriving.kept (notHalf _)
    · exact .inr own
  · intro pubkey member
    obtain before | leaving := ascending.present pubkey member
    · obtain still | rfl := present pubkey before
      · exact .inl still
      · exact .inr own
    · exact .inr (leaving.kept (notHalf _))
  · exact ascending.busy
  · intro stopped
    obtain someone | ⟨pubkey, arriving⟩ := ascending.idle stopped
    · exact .inl someone
    · exact .inr ⟨pubkey, arriving.kept (notHalf _)⟩

theorem Ascending.register (pubkey : String) (waiting : state.progress turn.call = .waiting) :
    Ascending ⟨(state.room.countSession pubkey).1, update state.progress turn.call
      (.half (.registering pubkey (state.room.countSession pubkey).2))⟩ := by
  refine ascending.first waiting (fun other positive => ?_) fun other positive => .inl ?_
  · by_cases same : other = pubkey
    · subst same
      rw [or_iff_not_imp_left, Nat.not_lt, Nat.le_zero]
      exact congrArg (Halfway.registering other)
    · exact .inl (by simpa [same] using positive)
  · by_cases same : other = pubkey
    · simp [same, Membership.usizeMax]
    · simpa [same] using positive

theorem Ascending.deregister (pubkey : String) (waiting : state.progress turn.call = .waiting) :
    Ascending ⟨(state.room.uncountSession pubkey).1, update state.progress turn.call
      (.half (.deregistering pubkey (state.room.uncountSession pubkey).2))⟩ := by
  unfold Membership.uncountSession
  split
  · exact ascending.first waiting (fun _ => .inl) fun _ => .inl
  all_goals
    rename_i counted
    refine ascending.first waiting (fun other positive => .inl ?_) fun other positive => ?_
    all_goals
      by_cases same : other = pubkey
      all_goals simp_all

theorem Ascending.add (found : state.progress turn.call = .half (.registering pubkey prior))
    (fine : (Halfway.registering pubkey prior).Fine state.room) :
    Ascending ⟨(state.room.addPeer pubkey prior).1, update state.progress turn.call .done⟩ := by
  have peers (other : String) : other ∈ (state.room.addPeer pubkey prior).1.connectedPeers ↔
      other = pubkey ∧ prior = 0 ∨ other ∈ state.room.connectedPeers := by
    rw [Membership.addPeer]
    split <;> simp [*]
  -- Who was in or about to come in is in or about to come in.
  have counted (other : String) (positive : 0 < state.room.connectedPeerSessions other) :
      other ∈ (state.room.addPeer pubkey prior).1.connectedPeers ∨
        Pending ⟨(state.room.addPeer pubkey prior).1,
          update state.progress turn.call .done⟩ (.registering other 0) := by
    obtain present | arriving := ascending.counted other positive
    · exact .inl ((peers other).mpr (.inr present))
    · by_cases own : state.progress turn.call = .half (.registering other 0)
      · rw [found] at own
        cases own
        exact .inl ((peers pubkey).mpr (.inl ⟨rfl, rfl⟩))
      · exact .inr (arriving.kept own)
  constructor
  · exact counted
  · intro other present
    obtain ⟨rfl, rfl⟩ | before := (peers other).mp present
    · exact .inl fine
    · refine (ascending.present other before).imp_right fun leaving => leaving.kept ?_
      simp [found]
  · intro _
    rfl
  · intro _
    obtain ⟨other, positive⟩ : ∃ other, 0 < state.room.connectedPeerSessions other := by
      cases prior with
      | zero => exact ⟨pubkey, fine⟩
      | succ prior => exact fine
    obtain present | arriving := counted other positive
    · exact .inl (Finset.ne_empty_of_mem present)
    · exact .inr ⟨other, arriving⟩

theorem Ascending.remove
    (found : state.progress turn.call = .half (.deregistering pubkey removed))
    (fine : (Halfway.deregistering pubkey removed).Fine state.room) :
    Ascending ⟨(state.room.removePeer pubkey removed turn.now).1,
      update state.progress turn.call .done⟩ := by
  have peers (other : String) :
      other ∈ (state.room.removePeer pubkey removed turn.now).1.connectedPeers ↔
        ¬ (other = pubkey ∧ removed = true) ∧ other ∈ state.room.connectedPeers := by
    rw [Membership.removePeer]
    cases removed <;> simp
  have clock : (state.room.removePeer pubkey removed turn.now).1.idleSince =
      if (state.room.removePeer pubkey removed turn.now).1.connectedPeers = ∅ then some turn.now
      else state.room.idleSince := by
    simp [Membership.removePeer, planDeregisterPeerMembership]
  constructor
  · intro other positive
    obtain present | arriving := ascending.counted other positive
    · refine .inl ((peers other).mpr ⟨?_, present⟩)
      rintro ⟨rfl, gone⟩
      exact fine gone positive
    · exact .inr (arriving.kept (by simp [found]))
  · intro other present
    obtain ⟨apart, before⟩ := (peers other).mp present
    refine (ascending.present other before).imp_right fun leaving => leaving.kept fun own => ?_
    rw [found] at own
    cases own
    exact apart ⟨rfl, rfl⟩
  · intro someone
    obtain ⟨other, present⟩ := Finset.nonempty_iff_ne_empty.mpr someone
    rw [clock, if_neg someone]
    exact ascending.busy (Finset.ne_empty_of_mem ((peers other).mp present).2)
  · intro stopped
    refine .inl fun nobody => ?_
    rw [clock, if_pos nobody] at stopped
    cases stopped

theorem Ascending.step (calm : state.Calm) (stepped : step calls state turn = some next) :
    Ascending next := by
  obtain ⟨call, -, waiting, rfl⟩ | ⟨half, found, rfl⟩ := step_cases stepped
  · cases call with
    | register pubkey => exact ascending.register pubkey waiting
    | deregister pubkey => exact ascending.deregister pubkey waiting
  · have fine := calm half ⟨_, found⟩
    cases half with
    | registering pubkey prior => exact ascending.add found fine
    | deregistering pubkey removed => exact ascending.remove found fine

end

theorem second_sessions (half : Halfway) (room : Membership) (now : Nat) :
    (half.second room now).connectedPeerSessions = room.connectedPeerSessions := by
  cases half <;> rfl

theorem Halfway.fine_congr (same : room.connectedPeerSessions = other.connectedPeerSessions) :
    half.Fine room ↔ half.Fine other := by
  fun_cases Halfway.Fine room half <;> simp only [Halfway.Fine, same]

/-- A second section leaves the counts, and with them what the other calls rely on. -/
theorem Calm.resume (calm : state.Calm) :
    Calm ⟨half.second state.room turn.now, update state.progress turn.call .done⟩ := by
  intro other pending
  exact (Halfway.fine_congr (second_sessions ..)).mpr (calm other pending.before)

theorem Ascending.robust (ascending : Ascending state) (calm : state.Calm) :
    Robust calls state := by
  intro turns final resumes ran quiet
  have both : final.Calm ∧ Ascending final := by
    refine exec_history_along (motive := fun _ state => state.Calm ∧ Ascending state)
      (fun _ middle turn next _ resumes stepped before => ?_) ⟨calm, ascending⟩ resumes ran
    refine ⟨?_, before.2.step before.1 stepped⟩
    obtain ⟨half, found⟩ := resumes
    obtain ⟨-, -, waiting, -⟩ | ⟨-, -, rfl⟩ := step_cases stepped
    · cases found.symm.trans waiting
    · exact before.1.resume
  exact both.2.consistent quiet

/-- Only the calls of the list are ever under way. -/
def Numbered (calls : List PeerCall) (state : PeerCalls) : Prop :=
  ∀ call half, state.progress call = .half half → call < calls.length

theorem Numbered.step (stepped : step calls state turn = some next)
    (numbered : Numbered calls state) : Numbered calls next := by
  have known : turn.call < calls.length := by
    by_contra beyond
    simp [PeerCalls.step, getElem?_eq_none (not_lt.mp beyond)] at stepped
  intro call half found
  by_cases own : call = turn.call
  · exact own ▸ known
  · obtain ⟨_, _, _, rfl⟩ | ⟨_, _, rfl⟩ := step_cases stepped
    all_goals exact numbered call half ((update_of_ne own _ _).symm.trans found)

theorem Numbered.resume (numbered : Numbered calls state)
    (found : state.progress call = .half half) :
    PeerCalls.step calls state ⟨call, 0⟩ =
      some ⟨half.second state.room 0, update state.progress call .done⟩ := by
  simp [PeerCalls.step, getElem?_eq_getElem (numbered call half found), found]

/-- The calls in progress can end one after the other, with any one of them at last. -/
theorem Numbered.finish (numbered : Numbered calls state) (rest : List Nat)
    (found : state.progress last = .half half)
    (all : ∀ call other, state.progress call = .half other → call = last ∨ call ∈ rest) :
    ∃ turns room final, Along (PeerCalls.step calls) Resumes state turns ∧
      exec (PeerCalls.step calls) state turns = some final ∧ final.Quiet ∧
      room.connectedPeerSessions = state.room.connectedPeerSessions ∧
      final.room = half.second room 0 := by
  induction rest generalizing state with
  | nil =>
    refine ⟨[⟨last, 0⟩], state.room, _, ⟨⟨half, found⟩, fun _ _ => trivial⟩,
      exec_singleton.trans (numbered.resume found), fun call other halfway => ?_, rfl, rfl⟩
    by_cases own : call = last
    · simp [own] at halfway
    · have before := (update_of_ne own _ _).symm.trans halfway
      exact own ((all call other before).resolve_right not_mem_nil)
  | cons head rest ih =>
    by_cases skip : head = last ∨ ∀ other, state.progress head ≠ .half other
    · refine ih numbered found fun call other halfway => ?_
      obtain own | later := all call other halfway
      · exact .inl own
      · obtain rfl | later := mem_cons.mp later
        · exact .inl (skip.resolve_right fun none => none other halfway)
        · exact .inr later
    · push Not at skip
      obtain ⟨apart, other, halfway⟩ := skip
      have stepped := numbered.resume halfway
      have stays : update state.progress head .done last = .half half :=
        (update_of_ne apart.symm _ _).trans found
      obtain ⟨turns, room, final, along, ran, quiet, same, ended⟩ :=
        ih (numbered.step stepped) stays fun call another found => by
          by_cases own : call = head
          · simp [own] at found
          · have before := (update_of_ne own _ _).symm.trans found
            exact (all call another before).imp_right fun member =>
              (mem_cons.mp member).resolve_left own
      refine ⟨⟨head, 0⟩ :: turns, room, final, ⟨⟨other, halfway⟩, fun next taken => ?_⟩,
        bind_eq_some_iff.mpr ⟨_, stepped, ran⟩, quiet,
        same.trans (second_sessions other state.room 0), ended⟩
      rwa [← Option.some.inj (stepped.symm.trans taken)]

/-- The call that ends last leaves the membership right only if it could rely on what
it remembers. -/
theorem Robust.calm (robust : Robust calls state) (numbered : Numbered calls state) :
    state.Calm := by
  rintro half ⟨last, found⟩
  obtain ⟨turns, room, final, along, ran, quiet, same, ended⟩ :=
    numbered.finish (range calls.length) found fun call other halfway =>
      .inr (mem_range.mpr (numbered call other halfway))
  have consistent := robust turns final along ran quiet
  rw [ended] at consistent
  rw [← Halfway.fine_congr same]
  cases half with
  | registering pubkey prior =>
    cases prior with
    | zero => exact (consistent.peers pubkey).mp (Finset.mem_insert_self ..)
    | succ prior =>
      have someone : room.connectedPeers ≠ ∅ := fun nobody => by
        cases consistent.idle.mpr nobody
      obtain ⟨pubkey, present⟩ := Finset.nonempty_iff_ne_empty.mpr someone
      exact ⟨pubkey, (consistent.peers pubkey).mp present⟩
  | deregistering pubkey removed =>
    rintro rfl positive
    exact Finset.notMem_erase pubkey _ ((consistent.peers pubkey).mpr positive)

theorem always_robust_iff (numbered : Numbered calls state) (ascending : Ascending state)
    (turns : List Turn) :
    Always (step calls) (Robust calls) state turns ↔ Always (step calls) Calm state turns := by
  induction turns generalizing state with
  | nil => exact ⟨fun robust => robust.calm numbered, ascending.robust⟩
  | cons turn rest ih =>
    constructor
    · rintro ⟨robust, always⟩
      have calm := robust.calm numbered
      refine ⟨calm, fun next stepped => ?_⟩
      exact (ih (numbered.step stepped) (ascending.step calm stepped)).mp (always next stepped)
    · rintro ⟨calm, always⟩
      refine ⟨ascending.robust calm, fun next stepped => ?_⟩
      exact (ih (numbered.step stepped) (ascending.step calm stepped)).mpr (always next stepped)

theorem Halfway.fine_of_held (held : half.Held room) : half.Fine room := by
  fun_cases Halfway.Fine room half
  · exact held
  · exact ⟨_, held⟩
  · exact held

theorem Halfway.held_congr
    (same : room.connectedPeerSessions half.pubkey = other.connectedPeerSessions half.pubkey) :
    half.Held room ↔ half.Held other := by
  cases half <;> simp_all only [Halfway.Held, Halfway.pubkey]

theorem held_first (call : PeerCall) (room : Membership) :
    (call.first room).2.Held (call.first room).1 := by
  cases call with
  | register =>
    simp [PeerCall.first, Membership.countSession, Halfway.Held, Membership.usizeMax]
  | deregister =>
    simp only [PeerCall.first, Membership.uncountSession]
    split <;> simp [Halfway.Held]

theorem first_sessions (call : PeerCall) (room : Membership) (apart : pubkey ≠ call.pubkey) :
    (call.first room).1.connectedPeerSessions pubkey = room.connectedPeerSessions pubkey := by
  cases call with
  | register => exact update_of_ne apart _ _
  | deregister =>
    simp only [PeerCall.first, Membership.uncountSession]
    split
    · rfl
    all_goals exact update_of_ne apart _ _

/-- A turn that is apart leaves the counts that the other calls left. -/
theorem held_step (held : ∀ half, state.Pending half → half.Held state.room)
    (apart : Apart calls state turn) (stepped : step calls state turn = some next) :
    ∀ half, next.Pending half → half.Held next.room := by
  intro half pending
  obtain ⟨call, named, -, rfl⟩ | ⟨own, -, rfl⟩ := step_cases stepped
  · obtain ⟨other, found⟩ := pending
    by_cases same : other = turn.call
    · rw [same] at found
      cases (update_self ..).symm.trans found
      exact held_first call state.room
    · have before := (update_of_ne same _ _).symm.trans found
      have away := first_sessions call state.room (apart call named other half same before)
      exact (Halfway.held_congr away).mpr (held half ⟨other, before⟩)
  · exact (Halfway.held_congr (congrFun (second_sessions ..) _)).mpr (held half pending.before)

theorem always_calm (held : ∀ half, state.Pending half → half.Held state.room)
    (along : Along (step calls) (Apart calls) state turns) :
    Always (step calls) Calm state turns := by
  have calm : state.Calm := fun half pending => Halfway.fine_of_held (held half pending)
  induction turns generalizing state with
  | nil => exact calm
  | cons turn rest ih =>
    refine ⟨calm, fun next stepped => ?_⟩
    have kept := held_step held along.1 stepped
    exact ih kept (along.2 next stepped) fun half pending =>
      Halfway.fine_of_held (kept half pending)

end PeerCalls

/-- For calls in any number, an interleaving of their sections keeps the peers and the
idle clock right, in whatever order the calls still in progress end, exactly when it
never changes what a call between its sections relies on: no key gets a session while
a call that took the last one is to remove the peer, none loses its last one while a
call that counted the first is to add the peer, and somebody has a session while a call
is to stop the clock. It never does so if no section of a call falls between those of
another on the same key. -/
theorem peer_membership_consistent_iff (calls : List PeerCall) (now : Nat)
    (turns : List PeerCalls.Turn) :
    (Always (PeerCalls.step calls) (PeerCalls.Robust calls) (.start now) turns ↔
      Always (PeerCalls.step calls) PeerCalls.Calm (.start now) turns) ∧
    (Along (PeerCalls.step calls) (PeerCalls.Apart calls) (.start now) turns →
      Always (PeerCalls.step calls) PeerCalls.Calm (.start now) turns) := by
  constructor
  · refine PeerCalls.always_robust_iff (fun call half found => ?_)
      (PeerCalls.ascending_start now) turns
    cases found
  · refine PeerCalls.always_calm fun half pending => ?_
    cases pending.choose_spec

/-- A peer reconnects while its old session ends: the last session is taken away, the
new one is counted and added, and then the old one removes the peer. -/
theorem reconnected_peer_is_dropped :
    ∃ turns state, exec (PeerCalls.step [.register "a", .deregister "a", .register "a"]) (.start 0)
        turns = some state ∧ state.Quiet ∧ state.room.connectedPeerSessions "a" = 1 ∧
      state.room.connectedPeers = ∅ ∧ state.room.idleSince = some 1 ∧
      ¬ state.room.Consistent := by
  refine ⟨[⟨0, 0⟩, ⟨0, 0⟩, ⟨1, 1⟩, ⟨2, 1⟩, ⟨2, 1⟩, ⟨1, 1⟩], _, rfl, fun call half => ?_, by decide,
    by decide, by decide, fun consistent => ?_⟩
  · match call with
    | 0 => exact nofun
    | 1 => exact nofun
    | 2 => exact nofun
    | _ + 3 => exact nofun
  · exact absurd ((consistent.peers "a").mpr (by decide)) (by decide)

end NodalMerge
