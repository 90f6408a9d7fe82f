import Lockness.PoolFutex
import Lockness.SlotWords

/-!
# The slot channel as a pool of parties

Each constructor of a program counter stands before one atomic operation, one
access of the slot or one futex call of the source. Local computation between
two of them belongs to the earlier one, but for the test that may abort: a
sender that has counted itself and not looked at the old word yet is a state of
its own. Nothing follows for a sender that aborts. There is one receiver, and
it is in one call at a time.
-/

set_option autoImplicit false

namespace Lockness.SlotMachine
open Lockness.PoolFutex Lockness.SlotWords

variable {c : Target} {T : Type*}

inductive SendResult (T : Type*) where
  | ok
  | full (data : T)
  | disconnected (data : T)
  | send_error (data : T)
  deriving DecidableEq

inductive RecvResult (T : Type*) where
  | ok (value : T)
  | empty
  | disconnected
  | recv_error
  deriving DecidableEq

/-- The shared allocation. `strong` is the count of the `Arc` around it, and
`freed` says that `Inner::drop` has run. -/
structure Inner (c : Target) (T : Type*) where
  send : SendStatusU c
  recv : BitVec 32
  num_senders : ℕ
  slot : Option T
  strong : ℕ
  freed : Bool

inductive Futex where
  | send
  | recv
  deriving DecidableEq

inductive SendPc (c : Target) (T : Type*) where
  | attempt (data : T)
  | check (data : T) (prev : SendStatusU c)
  | abort
  | write (data : T)
  | commit
  | wake
  | spin (data : T) (spin : ℕ)
  | sleep (data : T) (expected : SendStatusU c)
  | asleep (data : T)
  | rearm (data : T)
  | done (r : SendResult T)

inductive RecvPc (T : Type*) where
  | load (i : ℕ)
  | clear
  | read
  | release (value : T)
  | wake (value : T)
  | arm
  | sleep
  | asleep
  | done (r : RecvResult T)

inductive DropSenderPc where
  | count
  | raise
  | wake
  | release
  | free
  deriving DecidableEq

inductive DropReceiverPc where
  | raise
  | wake
  | release
  | free
  deriving DecidableEq

/-- A call in flight. `blocking` tells `send` and `recv` from `try_send` and
`try_recv`; `id` numbers the calls. -/
inductive Party (c : Target) (T : Type*) where
  | send (id : ℕ) (blocking : Bool) (h : ℕ) (pc : SendPc c T)
  | recv (id : ℕ) (blocking : Bool) (pc : RecvPc T)
  | drop_sender (pc : DropSenderPc)
  | drop_receiver (pc : DropReceiverPc)

inductive Event (T : Type*) where
  | tau
  | sending (id : ℕ) (blocking : Bool) (data : T)
  | receiving (id : ℕ) (blocking : Bool)
  | reserve (v : T)
  | abort
  | write (v : T)
  | commit (values : List T)
  | claim (values : List T)
  | sender_dead
  | receiver_dead
  | sent (id : ℕ) (r : SendResult T)
  | received (id : ℕ) (r : RecvResult T)
  | dropped (values : List T)
  deriving DecidableEq

abbrev Act (c : Target) (T : Type*) := Outcome (Inner c T) (Party c T) Futex (Event T)

/-- The old word lets the sender have the slot. -/
def won (prev : SendStatusU c) : Bool :=
  !SendStatus.dead prev && SendStatus.reservations prev == 0

/-- What `try_send` makes of the word that its attempt returned. -/
def try_send_check (blocking : Bool) (data : T) (prev : SendStatusU c) : SendPc c T :=
  if SendStatus.aborts c prev then .abort
  else if SendStatus.dead prev then
    .done (if blocking then .send_error data else .disconnected data)
  else if 0 < SendStatus.reservations prev then
    if blocking then .spin data 32 else .done (.full data)
  else .write data

/-- The body of the loop in `Sender::send` on the word it has just read. -/
def send_spin (data : T) (spin : ℕ) (send : SendStatusU c) : SendPc c T :=
  if SendStatus.reservations send = 0 then .attempt data
  else if SendStatus.dead send then .done (.send_error data)
  else if SendStatus.sleeping send then .sleep data send
  else .spin data (spin-1)

def send_code (m : Inner c T) (id : ℕ) (blocking : Bool) (h : ℕ) : SendPc c T → Act c T
  | .attempt data =>
    .go { m with send := SendStatus.attempt c m.send } (.send id blocking h (.check data m.send))
      (if won m.send then .reserve data else .tau)
  | .check data prev =>
    .go m (.send id blocking h (try_send_check blocking data prev))
      (if SendStatus.aborts c prev then .abort else .tau)
  | .abort => .blocked
  | .write data => .go { m with slot := some data } (.send id blocking h .commit) (.write data)
  | .commit =>
    .go { m with recv := RecvStatus.COMMIT }
      (.send id blocking h (if RecvStatus.sleeping m.recv then .wake else .done .ok))
      (.commit m.slot.toList)
  | .wake => .wake .recv 1 (.send id blocking h (.done .ok))
  | .spin data spin =>
    let send := if spin = 0 then m.send ||| SendStatus.SLEEPING c else m.send
    .go { m with send := send } (.send id blocking h (send_spin data spin send)) .tau
  | .sleep data expected =>
    .go m (.send id blocking h (if SendStatus.futex c m.send = SendStatus.futex c expected
      then .asleep data else .rearm data)) .tau
  | .asleep _ => .blocked
  | .rearm data =>
    .go { m with send := m.send ||| SendStatus.SLEEPING c } (.send id blocking h (.attempt data))
      .tau
  | .done r => .exit m (.sent id r)

/-- `try_recv` on the word it has loaded, and what `recv` makes of `Empty`
after `i` earlier tries. -/
def try_recv_load (blocking : Bool) (i : ℕ) (recv : BitVec 32) : RecvPc T :=
  if RecvStatus.commit recv then .clear
  else if RecvStatus.dead recv then .done (if blocking then .recv_error else .disconnected)
  else if blocking then if i < 32 then .load (i+1) else .arm
  else .done .empty

def recv_code (m : Inner c T) (id : ℕ) (blocking : Bool) : RecvPc T → Act c T
  | .load i => .go m (.recv id blocking (try_recv_load blocking i m.recv)) .tau
  | .clear =>
    .go { m with recv := m.recv &&& RecvStatus.SENDER_DEAD } (.recv id blocking .read)
      (.claim m.slot.toList)
  | .read => match m.slot with
    | none => .ub
    | some value => .go { m with slot := none } (.recv id blocking (.release value)) .tau
  | .release value =>
    .go { m with send := 0 } (.recv id blocking
      (if SendStatus.sleeping m.send then .wake value else .done (.ok value))) .tau
  | .wake value => .wake .send 1 (.recv id blocking (.done (.ok value)))
  | .arm =>
    .go { m with recv := m.recv ||| RecvStatus.SLEEPING }
      (.recv id blocking (if m.recv ≠ 0 then .load 0 else .sleep)) .tau
  | .sleep =>
    .go m (.recv id blocking (if m.recv = RecvStatus.SLEEPING then .asleep else .load 0)) .tau
  | .asleep => .blocked
  | .done r => .exit m (.received id r)

/-- `u32::MAX`, as a number of waiters and in the guard of `Clone`. -/
def u32_MAX : ℕ := 2^32-1

/-- `AtomicU32::fetch_add(1)` and `fetch_sub(1)`: the new value. -/
def wrapping_add_one (n : ℕ) : ℕ := if n = u32_MAX then 0 else n+1
def wrapping_sub_one (n : ℕ) : ℕ := if n = 0 then u32_MAX else n-1

/-- `Drop for Inner`, with the values that it drops; `none` when it meets an
uninitialised slot. -/
def drop_inner (m : Inner c T) : Option (Inner c T × List T) :=
  if RecvStatus.commit m.recv then m.slot.map (fun value => ({ m with freed := true },[value]))
  else some ({ m with freed := true },[])

/-- The release of the handle's `Arc`, after its own `drop`. -/
def release_code (m : Inner c T) (free : Party c T) : Act c T :=
  let m' := { m with strong := m.strong-1 }
  if m.strong = 1 then .go m' free .tau else .exit m' .tau

def free_code (m : Inner c T) : Act c T :=
  match drop_inner m with
  | none => .ub
  | some (m,dropped) => .exit m (.dropped dropped)

def drop_sender_code (m : Inner c T) : DropSenderPc → Act c T
  | .count =>
    .go { m with num_senders := wrapping_sub_one m.num_senders }
      (.drop_sender (if m.num_senders > 1 then .release else .raise)) .tau
  | .raise =>
    .go { m with recv := m.recv ||| RecvStatus.SENDER_DEAD }
      (.drop_sender (if RecvStatus.sleeping m.recv then .wake else .release)) .sender_dead
  | .wake => .wake .recv u32_MAX (.drop_sender .release)
  | .release => release_code m (.drop_sender .free)
  | .free => free_code m

def drop_receiver_code (m : Inner c T) : DropReceiverPc → Act c T
  | .raise =>
    .go { m with send := SendStatus.RECEIVER_DEAD c }
      (.drop_receiver (if SendStatus.sleeping m.send then .wake else .release)) .receiver_dead
  | .wake => .wake .send u32_MAX (.drop_receiver .release)
  | .release => release_code m (.drop_receiver .free)
  | .free => free_code m

def code (m : Inner c T) : Party c T → Act c T
  | .send id blocking h pc => send_code m id blocking h pc
  | .recv id blocking pc => recv_code m id blocking pc
  | .drop_sender pc => drop_sender_code m pc
  | .drop_receiver pc => drop_receiver_code m pc

def woken : Futex → Party c T → Option (Party c T)
  | .send,.send id blocking h (.asleep data) => some (.send id blocking h (.rearm data))
  | .recv,.recv id blocking .asleep => some (.recv id blocking (.load 0))
  | _,_ => none

theorem woken_cases {w : Futex} {p q : Party c T} (h : woken w p = some q) :
    (∃ id b s d, w = .send ∧ p = .send id b s (.asleep d) ∧ q = .send id b s (.rearm d)) ∨
    ∃ id b, w = .recv ∧ p = .recv id b .asleep ∧ q = .recv id b (.load 0) := by
  unfold woken at h
  split at h
  · exact .inl ⟨_,_,_,_,rfl,rfl,by simpa using h.symm⟩
  · exact .inr ⟨_,_,rfl,rfl,by simpa using h.symm⟩
  · cases h

theorem woken_awake {v w : Futex} {p q : Party c T} (h : woken w p = some q) :
    woken v q = none := by
  rcases woken_cases h with ⟨_,_,_,_,_,_,rfl⟩ | ⟨_,_,_,_,rfl⟩ <;> cases v <;> rfl

def program (c : Target) (T : Type*) : Program (Inner c T) (Party c T) Futex (Event T) where
  code := code
  woken := woken
  silent := .tau
  awake _ _ _ _ := woken_awake

/-- `Clone for Sender`; `none` is the abort. -/
def clone_sender (m : Inner c T) : Option (Inner c T) :=
  if m.num_senders > u32_MAX/2 then none
  else some { m with num_senders := wrapping_add_one m.num_senders, strong := m.strong+1 }

def Party.sender : Party c T → Option ℕ
  | .send _ _ h _ => some h
  | _ => none

def Party.receives : Party c T → Bool
  | .recv _ _ _ => true
  | _ => false

structure State (c : Target) (T : Type*) where
  inner : Inner c T
  senders : Multiset ℕ
  receiver : Bool
  calls : Multiset (Party c T)
  next : ℕ

/-- `mpsc()`. -/
def mpsc : State c T where
  inner :=
    { send := 0
      recv := 0
      num_senders := 1
      slot := none
      strong := 2
      freed := false }
  senders := {0}
  receiver := true
  calls := 0
  next := 1

inductive Step : State c T → Event T → State c T → Prop
  | party {s : State c T} {e : Event T} {m : Inner c T} {calls : Multiset (Party c T)} :
      PartyStep (program c T) s.inner s.calls e m calls →
      Step s e { s with inner := m, calls := calls }
  | call_send {s : State c T} {h : ℕ} (blocking : Bool) (data : T) : h ∈ s.senders →
      Step s (.sending s.next blocking data)
        { s with calls := .send s.next blocking h (.attempt data) ::ₘ s.calls, next := s.next+1 }
  | call_recv {s : State c T} (blocking : Bool) : s.receiver = true →
      (∀ p ∈ s.calls, p.receives = false) → Step s (.receiving s.next blocking)
        { s with calls := .recv s.next blocking (.load 0) ::ₘ s.calls, next := s.next+1 }
  | clone_sender {s : State c T} {h : ℕ} {m : Inner c T} : h ∈ s.senders →
      clone_sender s.inner = some m → Step s .tau
        { s with inner := m, senders := s.next ::ₘ s.senders, next := s.next+1 }
  | drop_sender {s : State c T} {h : ℕ} {rest : Multiset ℕ} : s.senders = h ::ₘ rest →
      (∀ p ∈ s.calls, p.sender ≠ some h) →
      Step s .tau { s with senders := rest, calls := .drop_sender .count ::ₘ s.calls }
  | drop_receiver {s : State c T} : s.receiver = true → (∀ p ∈ s.calls, p.receives = false) →
      Step s .tau { s with receiver := false, calls := .drop_receiver .raise ::ₘ s.calls }

end Lockness.SlotMachine
