import NodalMerge.Server.Rooms

namespace NodalMerge

open AList List Machine Option RoomEvent StateGraph

namespace RoomEvent

variable {roomId : String}

/-- What last happened to the lock of a room. -/
def last (roomId : String) (log : List (RoomEvent Key)) : Option (RoomEvent Key) :=
  (log.filter fun event => event.roomId = roomId).getLast?

/-- The key under which an event leaves its room. -/
def key? : RoomEvent Key → Option Key
  | .locked _ key => some key
  | .evicted _ => none

theorem last_concat_same (same : event.roomId = roomId) :
    last roomId (log ++ [event]) = some event := by
  simp [last, filter_append, same]

theorem last_concat_other (other : event.roomId ≠ roomId) :
    last roomId (log ++ [event]) = last roomId log := by
  simp [last, filter_append, other]

theorem exists_last (member : event ∈ log) (same : event.roomId = roomId) :
    ∃ final, last roomId log = some final ∧ final.roomId = roomId := by
  have kept : event ∈ log.filter fun event => event.roomId = roomId := by simp [member, same]
  have nonempty := ne_nil_of_mem kept
  refine ⟨_, List.getLast?_eq_some_getLast nonempty, ?_⟩
  simpa using (mem_filter.mp (getLast_mem nonempty)).2

end RoomEvent

namespace Rooms

section
variable {state next : Rooms Key}

/-- The key of a resident room; a room that is not resident has none. -/
def authKey (state : Rooms Key) (roomId : String) : Option Key :=
  (state.rooms.lookup roomId).bind Resident.authKey

/-- The log tells which key a room has. -/
def KeysLogged (state : Rooms Key) : Prop :=
  ∀ roomId, state.authKey roomId = (RoomEvent.last roomId state.log).bind RoomEvent.key?

theorem authKey_put (state : Rooms Key) (room : Resident Key) (roomId other : String) :
    (state.put roomId room).authKey other =
      if other = roomId then room.authKey else state.authKey other := by
  unfold authKey put
  split
  · rename_i same
    rw [same, lookup_insert]
    rfl
  · rename_i differ
    rw [lookup_insert_ne differ]

theorem KeysLogged.evict (logged : state.KeysLogged) (roomId : String) :
    (state.evict roomId).KeysLogged := by
  intro other
  change ((state.rooms.erase roomId).lookup other).bind Resident.authKey =
    (RoomEvent.last other (state.log ++ [.evicted roomId])).bind RoomEvent.key?
  by_cases same : other = roomId
  · rw [same, lookup_erase]
    have last : RoomEvent.last roomId (state.log ++ [.evicted roomId]) = some (.evicted roomId) :=
      last_concat_same rfl
    rw [last]
    rfl
  · rw [lookup_erase_ne same]
    have elsewhere : (RoomEvent.evicted roomId : RoomEvent Key).roomId ≠ other := Ne.symm same
    rw [last_concat_other elsewhere]
    exact logged other

theorem KeysLogged.evictAll (logged : state.KeysLogged) (ids : List String) :
    (ids.foldl Rooms.evict state).KeysLogged := by
  induction ids generalizing state with
  | nil => exact logged
  | cons head rest ih => exact ih (logged.evict head)

theorem KeysLogged.step {crypto : Crypto} (logged : state.KeysLogged)
    (step : Step crypto state next) : next.KeysLogged := by
  -- A room put back under the key it had changes nothing.
  have same {roomId : String} {room : Resident Key} (key : room.authKey = state.authKey roomId)
      (other : String) : (state.put roomId room).authKey other = state.authKey other := by
    rw [authKey_put]
    split
    · rename_i here
      rw [here, key]
    · rfl
  cases step with
  | stayed => exact logged
  | created absent unlocked sound =>
    refine fun other => (same ?_ other).trans (logged other)
    rw [unlocked, authKey, absent]
    rfl
  | moved found key kept grown =>
    refine fun other => (same ?_ other).trans (logged other)
    rw [key, authKey, found]
    rfl
  | @locked roomId room key found unlocked =>
    intro other
    refine (authKey_put state { room with authKey := some key } roomId other).trans ?_
    split
    · rename_i here
      have logs : (RoomEvent.locked roomId key).roomId = other := here.symm
      rw [last_concat_same logs]
      rfl
    · rename_i differ
      have elsewhere : (RoomEvent.locked roomId key).roomId ≠ other := Ne.symm differ
      rw [last_concat_other elsewhere]
      exact logged other
  | swept => exact logged.evictAll _
  | collected => exact logged

end

variable {table : List NodeRow}

theorem keysLogged_of_run
    (ran : exec (perform env crypto postcard serverKey) (start table) actions = some state) :
    state.KeysLogged :=
  exec_invariant (fun _ _ _ stepped logged => logged.step (perform_step stepped))
    (fun _ => rfl) ran

end Rooms

/-- A handshake is refused exactly in a locked room, when the token does not verify. -/
theorem handshake_error_iff {authKey : Option env.signer.VerifyingKey} {roomId : String} :
    (∃ error, handshake env authKey serverKey hello roomId nowSecs = .error error) ↔
      ∃ key, authKey = some key ∧ hello.tokenVerifies env key roomId nowSecs = false := by
  unfold handshake Hello.tokenVerifies
  cases authKey with
  | none => simp
  | some key =>
    cases verified : verifyHelloToken env hello key hello.pubkeyText roomId nowSecs <;>
      simp [verified, Except.toBool]

namespace Rooms

/-- A hello without a token for a key that the room was once locked with is refused
exactly while the room has not been evicted since its last lock; and if that lock
was under another key, the token must not verify under that one either. -/
theorem lock_survives_iff (env : TokenEnv) (crypto : Crypto) (postcard : Postcard)
    (serverKey : crypto.SigningKey) (table : List NodeRow) (actions : List RoomsAction)
    (state : Rooms env.signer.VerifyingKey) (roomId : String) (vk : env.signer.VerifyingKey)
    (socket : Nat) (hello : Hello) (nowSecs : UInt64) (answer : Except String PeerSession)
    (ran : exec (perform env crypto postcard serverKey) (start table) actions = some state)
    (locked : .locked roomId vk ∈ state.log)
    (asked : state.answerHello env crypto serverKey roomId socket hello nowSecs = some answer)
    (unverified : hello.tokenVerifies env vk roomId nowSecs = false) :
    (∃ error, answer = .error error) ↔
      RoomEvent.last roomId state.log ≠ some (.evicted roomId) ∧
        ∀ key, RoomEvent.last roomId state.log = some (.locked roomId key) → key ≠ vk →
          hello.tokenVerifies env key roomId nowSecs = false := by
  obtain ⟨room, resident, asked⟩ := bind_eq_some_iff.mp asked
  obtain ⟨connection, -, asked⟩ := bind_eq_some_iff.mp asked
  split at asked
  · cases asked
  cases asked
  have logged := keysLogged_of_run ran roomId
  rw [authKey, resident, bind_some] at logged
  rw [handshake_error_iff, logged]
  have logs : (RoomEvent.locked roomId vk).roomId = roomId := rfl
  obtain ⟨final, last, here⟩ := exists_last locked logs
  rw [last]
  cases final with
  | evicted other =>
    obtain rfl : other = roomId := here
    simp [RoomEvent.key?]
  | locked other key =>
    obtain rfl : other = roomId := here
    have same : (∀ later, some (RoomEvent.locked other key) = some (.locked other later) →
        later ≠ vk → hello.tokenVerifies env later other nowSecs = false) ↔
          (key ≠ vk → hello.tokenVerifies env key other nowSecs = false) := by
      constructor
      · exact fun all => all key rfl
      · intro only later found
        obtain ⟨-, rfl⟩ := RoomEvent.locked.inj (Option.some.inj found)
        exact only
    by_cases first : key = vk
    · simp [RoomEvent.key?, first, unverified]
    · simp [RoomEvent.key?, first]

def serverHex : String := pubkeyHex (Crypto.sample.verifyingKey (Crypto.sampleKey 1))

/-- Whoever names the key of the server. -/
def serverPeer : PeerSession := ⟨serverHex, true, none⟩

/-- The room as the server peer leaves it. -/
def lockedRoom : Resident PublicKey :=
  ⟨.empty, some (Bytes.zero 32), AList.singleton 0 ⟨some serverPeer, none⟩, none, .started⟩

def locking : List RoomsAction :=
  [.connect "r" 0 0, .hello "r" 0 (.plain serverHex) 0,
    .setRoomKey "r" 0 (pubkeyHex (Bytes.zero 32))]

theorem exec_locking : exec performSample (start []) locking =
    some (single lockedRoom [] [.locked "r" (Bytes.zero 32)]) := by
  rfl

theorem guest_kept_out : ∃ state answer,
    exec performSample (start []) (locking ++ [.connect "r" 1 0]) = some state ∧
      state.answerHello TokenEnv.sample Crypto.sample (Crypto.sampleKey 1) "r" 1 (.plain "guest") 0 =
        some answer ∧ ∃ error, answer = .error error := by
  have ran := exec_concat_iff.mpr ⟨_, exec_locking, (rfl : performSample _ (.connect "r" 1 0) = _)⟩
  have last : RoomEvent.last "r" [RoomEvent.locked "r" (Bytes.zero 32)] =
      some (.locked "r" (Bytes.zero 32)) := rfl
  refine ⟨_, _, ran, rfl, ?_⟩
  refine (lock_survives_iff TokenEnv.sample Crypto.sample Postcard.sample (Crypto.sampleKey 1) []
    (locking ++ [.connect "r" 1 0]) _ "r" (Bytes.zero 32) 1 (.plain "guest") 0 _ ran
    (mem_singleton_self _) rfl rfl).mpr ⟨?_, ?_⟩
  · intro found
    cases last.symm.trans found
  · intro key found differs
    obtain ⟨-, same⟩ := RoomEvent.locked.inj (Option.some.inj (last.symm.trans found))
    exact absurd same.symm differs

/-- Everyone leaves, the room is swept, and the next hello creates it again. -/
theorem lock_lost_by_eviction : ∃ state session,
    exec performSample (start []) (locking ++ [.leave "r" 0 0, .hydrateLoad "r", .hydrateApply "r",
        .hydrateDone "r", .sweepIdle 0 0, .connect "r" 1 0]) = some state ∧
      .locked "r" (Bytes.zero 32) ∈ state.log ∧
      state.answerHello TokenEnv.sample Crypto.sample (Crypto.sampleKey 1) "r" 1 (.plain "guest") 0 =
        some (.ok session) ∧
      (Hello.plain "guest").tokenVerifies TokenEnv.sample (Bytes.zero 32) "r" 0 = false := by
  have ran := exec_append_iff.mpr ⟨_, exec_locking, (rfl : exec performSample _ [.leave "r" 0 0,
    .hydrateLoad "r", .hydrateApply "r", .hydrateDone "r", .sweepIdle 0 0, .connect "r" 1 0] = _)⟩
  exact ⟨_, _, ran, mem_cons_self, rfl, rfl⟩

end Rooms

end NodalMerge
