import Lockness.PoolSlots
import Lockness.BagRequest

/-!
# The bag channel as a pool of parties

Each constructor of a program counter stands before one atomic operation, one
slot access or one futex call of the source; local computation between two of
them belongs to the earlier one. A party borrows the handle it was called
through, so a handle is dropped only when no call uses it. The words are read
and written in one total order. A clone increments its counter and the `Arc`
together, the borrowed handle keeping both from zero; above the guard it aborts
the process and no state follows.
-/

set_option autoImplicit false

namespace Lockness.BagMachine
open Lockness.PoolFutex Lockness.PoolSlots Lockness.WordBits Lockness.BagMasks Lockness.BagRequest

variable {T : Type*}

/-- What the build decides, `cfg!(target_arch = "x86_64")` and whether integer overflow
panics, and which values panic when they are dropped. -/
structure Target (T : Type*) where
  x86_64 : Bool
  overflow_checks : Bool
  drop_panics : T → Bool

/-- The two builds for x86-64, where all values can be dropped. -/
def Target.release : Target T := ⟨true,false,fun _ => false⟩

def Target.debug : Target T := ⟨true,true,fun _ => false⟩

abbrev N : ℕ := 30

abbrev Slot := Fin N

inductive SendBuffer (T : Type*) where
  | value (v : T)
  | vec (items : List T)
  | array_vec (items : List T)
  deriving DecidableEq

/-- `SendBufferContainer`: what `available_items` turns the buffer into. -/
inductive Container (T : Type*) where
  | option (item : Option T)
  | vec (items : List T)
  | array_vec (items : List T)

def SendBuffer.contents : SendBuffer T → List T
  | .value v => [v]
  | .vec items => items
  | .array_vec items => items

def Container.contents : Container T → List T
  | .option item => item.toList
  | .vec items => items
  | .array_vec items => items

def SendBuffer.available_items : SendBuffer T → ℕ × Container T
  | .value v => (1,.option (some v))
  | .vec items => (items.length,.vec items)
  | .array_vec items => (items.length,.array_vec items)

def pop (items : List T) : Option (T × List T) :=
  items.getLast?.map (fun v => (v,items.dropLast))

/-- `none` is `unwrap_unchecked` of `None`, which is undefined. -/
def Container.take : Container T → Option (T × Container T)
  | .option item => item.map (fun v => (v,.option none))
  | .vec items => (pop items).map (fun r => (r.1,.vec r.2))
  | .array_vec items => (pop items).map (fun r => (r.1,.array_vec r.2))

def Container.remit : Container T → Option (SendBuffer T)
  | .option item => item.map .value
  | .vec items => some (.vec items)
  | .array_vec items => some (.array_vec items)

inductive SendResult (T : Type*) where
  | ok
  | full (data : SendBuffer T)
  | disconnected (data : SendBuffer T)
  | send_error (data : SendBuffer T)
  deriving DecidableEq

inductive RecvResult (T : Type*) where
  | ok (values : List T)
  | empty
  | disconnected
  | recv_error
  deriving DecidableEq

/-- The shared allocation. `strong` is the count of the `Arc` around it, and
`freed` says that `Inner::drop` has run. -/
structure Inner (T : Type*) where
  send : Word
  recv : Word
  num_senders : ℕ
  num_receivers : ℕ
  bag : Slot → Option T
  strong : ℕ
  freed : Bool

structure Sender where
  id : ℕ
  bias : ℕ
  deriving DecidableEq

inductive Futex where
  | send
  | recv
  deriving DecidableEq

inductive SendPc (T : Type*) where
  | reserve (items : ℕ) (data : Container T) (aligned_request_mask : Word)
  | write (data : Container T) (reserved todo : Word)
  | wake
  | spin (data : SendBuffer T) (spin : ℕ)
  | sleep (data : SendBuffer T) (expected : Word)
  | asleep (data : SendBuffer T)
  | rearm (data : SendBuffer T)
  | done (r : SendResult T)

inductive RecvPc (T : Type*) where
  | claim
  | read (claimed todo : Word) (values : List T)
  | wake (values : List T)
  | spin (spin : ℕ)
  | sleep (expected : Word)
  | asleep
  | rearm
  | done (r : RecvResult T)

inductive DropPc where
  | count
  | raise
  | wake
  | release
  | free
  deriving DecidableEq

/-- A call in flight. `blocking` tells `send` and `recv` from `try_send` and
`try_recv`; `id` numbers the calls. -/
inductive Party (T : Type*) where
  | send (id : ℕ) (blocking : Bool) (h : Sender) (pc : SendPc T)
  | recv (id : ℕ) (blocking : Bool) (h : ℕ) (pc : RecvPc T)
  | drop_sender (pc : DropPc)
  | drop_receiver (pc : DropPc)

inductive Event (T : Type*) where
  | tau
  | sending (id : ℕ) (blocking : Bool) (data : SendBuffer T)
  | receiving (id : ℕ) (blocking : Bool)
  | take (v : T)
  | commit (values : Multiset T)
  | claim (values : Multiset T)
  | sender_dead
  | receiver_dead
  | clone_panic
  | sent (id : ℕ) (r : SendResult T)
  | received (id : ℕ) (r : RecvResult T)
  | dropped (values : List T)
  deriving DecidableEq

abbrev Act (T : Type*) := Outcome (Inner T) (Party T) Futex (Event T)

/-- `Sender::try_send` up to its first atomic operation. -/
def try_send (h : Sender) (data : SendBuffer T) : SendPc T :=
  let (items,data) := data.available_items
  if items = 0 then .done .ok else .reserve items data (compute_request_mask N items h.bias)

/-- One iteration of the reservation loop. -/
def try_send_reserve (blocking : Bool) (h : Sender) (items : ℕ) (data : Container T)
    (aligned_request_mask : Word) (m : Inner T) (goto : SendPc T → Party T) : Act T :=
  let prev := m.send
  let m := { m with send := prev ||| aligned_request_mask }
  if dead prev then
    match data.remit with
    | none => .ub
    | some data =>
      .go m (goto (.done (if blocking then .send_error data else .disconnected data))) .tau
  else
    let slots := prev ||| Status.all
    if slots = u32_MAX then
      match data.remit with
      | none => .ub
      | some data => .go m (goto (if blocking then .spin data 32 else .done (.full data))) .tau
    else
      let reserved := ~~~slots &&& aligned_request_mask
      if 0 < reserved then
        .go m (goto (.write data reserved reserved)) .tau
      else
        .go m (goto (.reserve items data (clear_extra_bits (~~~slots) items (h.bias%2 = 0)))) .tau

/-- The closure of `drain_mask` on the next reserved slot, or the commit once
the mask is drained. -/
def try_send_write (c : Target T) (data : Container T) (reserved todo : Word) (m : Inner T)
    (goto : SendPc T → Party T) : Act T :=
  match drain_next N todo with
  | some (i,todo) =>
    match data.take with
    | none => .ub
    | some (value,data) =>
      .go { m with bag := Function.update m.bag i (some value) }
        (goto (.write data reserved todo)) (.take value)
  | none =>
    let commit := reserved ||| Status.all
    let prev := m.recv
    let m' := { m with recv := if c.x86_64 ∧ commit = u32_MAX then commit else prev ||| commit }
    .go m' (goto (if sleeping (~~~prev) then .wake else .done .ok))
      (.commit (cells m.bag (slots reserved)))

/-- The body of the loop in `Sender::send` on the word it has just read. -/
def send_spin (h : Sender) (data : SendBuffer T) (spin : ℕ) (send : Word) : SendPc T :=
  if send ||| Status.all < u32_MAX then try_send h data
  else if dead send then .done (.send_error data)
  else if sleeping send then .sleep data send
  else .spin data (spin-1)

def send_code (c : Target T) (m : Inner T) (id : ℕ) (blocking : Bool) (h : Sender) :
    SendPc T → Act T
  | .reserve items data mask =>
    try_send_reserve blocking h items data mask m (.send id blocking h)
  | .write data reserved todo => try_send_write c data reserved todo m (.send id blocking h)
  | .wake => .wake .recv 1 (.send id blocking h (.done .ok))
  | .spin data spin =>
    let send := if spin = 0 then m.send ||| Status.SLEEPING else m.send
    .go { m with send := send } (.send id blocking h (send_spin h data spin send)) .tau
  | .sleep data expected =>
    .go m (.send id blocking h (if m.send = expected then .asleep data else .rearm data)) .tau
  | .asleep _ => .blocked
  | .rearm data =>
    .go { m with send := m.send ||| Status.SLEEPING } (.send id blocking h (try_send h data)) .tau
  | .done r => .exit m (.sent id r)

/-- `try_recv` up to the slots it has claimed. -/
def try_recv_claim (blocking : Bool) (m : Inner T) (goto : RecvPc T → Party T) : Act T :=
  let prev := m.recv
  let m' := { m with recv := prev &&& Status.all }
  let claimed := prev &&& ~~~Status.all
  if claimed = 0 then
    if dead (~~~prev) then
      .go m' (goto (.done (if blocking then .recv_error else .disconnected))) .tau
    else
      .go m' (goto (if blocking then .spin 32 else .done .empty)) .tau
  else
    .go m' (goto (.read claimed claimed [])) (.claim (cells m.bag (slots claimed)))

/-- The closure of `drain_mask` on the next claimed slot, or the release once
the mask is drained. -/
def try_recv_read (c : Target T) (claimed todo : Word) (values : List T) (m : Inner T)
    (goto : RecvPc T → Party T) : Act T :=
  match drain_next N todo with
  | some (i,todo) =>
    match m.bag i with
    | none => .ub
    | some value =>
      if values.length < N then
        .go { m with bag := Function.update m.bag i none }
          (goto (.read claimed todo (values++[value]))) .tau
      else .ub
  | none =>
    let commit := ~~~claimed &&& ~~~Status.all
    let prev := m.send
    let m' := { m with send := if c.x86_64 ∧ commit = 0 then commit else prev &&& commit }
    .go m' (goto (if sleeping prev then .wake values else .done (.ok values))) .tau

/-- The body of the loop in `Receiver::recv` on the word it has just read. -/
def recv_spin (spin : ℕ) (recv : Word) : RecvPc T :=
  if 0 < recv &&& ~~~Status.all then .claim
  else if dead (~~~recv) then .done .recv_error
  else if sleeping (~~~recv) then .sleep recv
  else .spin (spin-1)

def recv_code (c : Target T) (m : Inner T) (id : ℕ) (blocking : Bool) (h : ℕ) : RecvPc T → Act T
  | .claim => try_recv_claim blocking m (.recv id blocking h)
  | .read claimed todo values => try_recv_read c claimed todo values m (.recv id blocking h)
  | .wake values => .wake .send 1 (.recv id blocking h (.done (.ok values)))
  | .spin spin =>
    let recv := if spin = 0 then m.recv &&& ~~~Status.SLEEPING else m.recv
    .go { m with recv := recv } (.recv id blocking h (recv_spin spin recv)) .tau
  | .sleep expected =>
    .go m (.recv id blocking h (if m.recv = expected then .asleep else .rearm)) .tau
  | .asleep => .blocked
  | .rearm => .go { m with recv := m.recv &&& ~~~Status.SLEEPING } (.recv id blocking h .claim) .tau
  | .done r => .exit m (.received id r)

/-- `AtomicU32::fetch_add(1)` and `fetch_sub(1)`: the new value. -/
def wrapping_add_one (n : ℕ) : ℕ := if n = 2^32-1 then 0 else n+1
def wrapping_sub_one (n : ℕ) : ℕ := if n = 0 then 2^32-1 else n-1

/-- The slots of which `Drop for Inner` drops the values: a destructor that panics
unwinds out of `drain_mask`. -/
def drop_slots (c : Target T) (bag : Slot → Option T) : List Slot → List Slot
  | [] => []
  | i::todo => i::(if (bag i).any c.drop_panics then [] else drop_slots c bag todo)

/-- `Drop for Inner`, with the values that it drops; `none` when it meets an
uninitialised cell. The memory is freed while unwinding, too. -/
def drop_inner (c : Target T) (m : Inner T) : Option (Inner T × List T) :=
  let values := m.recv &&& ~~~Status.all
  ((drop_slots c m.bag (drain_mask N values)).mapM m.bag).map
    (fun dropped => ({ m with freed := true },dropped))

/-- The release of the handle's `Arc`, after its own `drop`. -/
def release_code (m : Inner T) (goto : DropPc → Party T) : Act T :=
  let m' := { m with strong := m.strong-1 }
  if m.strong = 1 then .go m' (goto .free) .tau else .exit m' .tau

def free_code (c : Target T) (m : Inner T) : Act T :=
  match drop_inner c m with
  | none => .ub
  | some (m,dropped) => .exit m (.dropped dropped)

def drop_sender_code (c : Target T) (m : Inner T) : DropPc → Act T
  | .count =>
    .go { m with num_senders := wrapping_sub_one m.num_senders }
      (.drop_sender (if m.num_senders > 1 then .release else .raise)) .tau
  | .raise =>
    .go { m with recv := m.recv &&& ~~~Status.COUNTERPARTY_DEAD }
      (.drop_sender (if sleeping (~~~m.recv) then .wake else .release)) .sender_dead
  | .wake => .wake .recv u32_MAX.toNat (.drop_sender .release)
  | .release => release_code m .drop_sender
  | .free => free_code c m

def drop_receiver_code (c : Target T) (m : Inner T) : DropPc → Act T
  | .count =>
    .go { m with num_receivers := wrapping_sub_one m.num_receivers }
      (.drop_receiver (if m.num_receivers > 1 then .release else .raise)) .tau
  | .raise =>
    .go { m with send := m.send ||| Status.COUNTERPARTY_DEAD }
      (.drop_receiver (if sleeping m.send then .wake else .release)) .receiver_dead
  | .wake => .wake .send u32_MAX.toNat (.drop_receiver .release)
  | .release => release_code m .drop_receiver
  | .free => free_code c m

def code (c : Target T) (m : Inner T) : Party T → Act T
  | .send id blocking h pc => send_code c m id blocking h pc
  | .recv id blocking h pc => recv_code c m id blocking h pc
  | .drop_sender pc => drop_sender_code c m pc
  | .drop_receiver pc => drop_receiver_code c m pc

def woken : Futex → Party T → Option (Party T)
  | .send,.send id blocking h (.asleep data) => some (.send id blocking h (.rearm data))
  | .recv,.recv id blocking h .asleep => some (.recv id blocking h .rearm)
  | _,_ => none

theorem woken_cases {w : Futex} {p q : Party T} (h : woken w p = some q) :
    (∃ id b s d, w = .send ∧ p = .send id b s (.asleep d) ∧ q = .send id b s (.rearm d)) ∨
    ∃ id b r, w = .recv ∧ p = .recv id b r .asleep ∧ q = .recv id b r .rearm := by
  unfold woken at h
  split at h
  · exact .inl ⟨_,_,_,_,rfl,rfl,by simpa using h.symm⟩
  · exact .inr ⟨_,_,_,rfl,rfl,by simpa using h.symm⟩
  · cases h

theorem woken_awake {v w : Futex} {p q : Party T} (h : woken w p = some q) : woken v q = none := by
  rcases woken_cases h with ⟨_,_,_,_,_,_,rfl⟩ | ⟨_,_,_,_,_,rfl⟩ <;> cases v <;> rfl

def program (c : Target T) : Program (Inner T) (Party T) Futex (Event T) where
  code := code c
  woken := woken
  silent := .tau
  awake _ _ _ _ := woken_awake

/-- `Clone for Sender`: the guard, then the bias, whose product may overflow. -/
inductive CloneResult (T : Type*) where
  | abort
  | panic (m : Inner T)
  | ok (m : Inner T) (bias : ℕ)

def clone_sender (c : Target T) (m : Inner T) : CloneResult T :=
  let prev_senders := m.num_senders
  let m := { m with num_senders := wrapping_add_one prev_senders }
  if prev_senders > u32_MAX.toNat/2 then .abort
  else if c.overflow_checks ∧ 2^32 ≤ prev_senders*7 then .panic m
  else .ok { m with strong := m.strong+1 } (prev_senders*7%2^32%N)

/-- `Clone for Receiver`; `none` is the abort. -/
def clone_receiver (m : Inner T) : Option (Inner T) :=
  if m.num_receivers > u32_MAX.toNat/2 then none
  else some { m with num_receivers := wrapping_add_one m.num_receivers, strong := m.strong+1 }

def Party.sender : Party T → Option Sender
  | .send _ _ h _ => some h
  | _ => none

def Party.receiver : Party T → Option ℕ
  | .recv _ _ h _ => some h
  | _ => none

structure State (T : Type*) where
  inner : Inner T
  senders : Multiset Sender
  receivers : Multiset ℕ
  calls : Multiset (Party T)
  next : ℕ

/-- `mpmc()`. -/
def mpmc : State T where
  inner :=
    { send := 0
      recv := Status.all
      num_senders := 1
      num_receivers := 1
      bag := fun _ => none
      strong := 2
      freed := false }
  senders := {⟨0,0⟩}
  receivers := {0}
  calls := 0
  next := 1

inductive Step (c : Target T) : State T → Event T → State T → Prop
  | party {s : State T} {e : Event T} {m : Inner T} {calls : Multiset (Party T)} :
      PartyStep (program c) s.inner s.calls e m calls →
      Step c s e { s with inner := m, calls := calls }
  | call_send {s : State T} {h : Sender} (blocking : Bool) (data : SendBuffer T) :
      h ∈ s.senders → Step c s (.sending s.next blocking data)
        { s with calls := .send s.next blocking h (try_send h data) ::ₘ s.calls, next := s.next+1 }
  | call_recv {s : State T} {h : ℕ} (blocking : Bool) : h ∈ s.receivers →
      Step c s (.receiving s.next blocking)
        { s with calls := .recv s.next blocking h .claim ::ₘ s.calls, next := s.next+1 }
  | clone_sender {s : State T} {h : Sender} {m : Inner T} {bias : ℕ} : h ∈ s.senders →
      clone_sender c s.inner = .ok m bias → Step c s .tau
        { s with inner := m, senders := ⟨s.next,bias⟩ ::ₘ s.senders, next := s.next+1 }
  | clone_sender_panic {s : State T} {h : Sender} {m : Inner T} : h ∈ s.senders →
      clone_sender c s.inner = .panic m → Step c s .clone_panic { s with inner := m }
  | clone_receiver {s : State T} {h : ℕ} {m : Inner T} : h ∈ s.receivers →
      clone_receiver s.inner = some m → Step c s .tau
        { s with inner := m, receivers := s.next ::ₘ s.receivers, next := s.next+1 }
  | drop_sender {s : State T} {h : Sender} {rest : Multiset Sender} : s.senders = h ::ₘ rest →
      (∀ p ∈ s.calls, p.sender ≠ some h) →
      Step c s .tau { s with senders := rest, calls := .drop_sender .count ::ₘ s.calls }
  | drop_receiver {s : State T} {h : ℕ} {rest : Multiset ℕ} : s.receivers = h ::ₘ rest →
      (∀ p ∈ s.calls, p.receiver ≠ some h) →
      Step c s .tau { s with receivers := rest, calls := .drop_receiver .count ::ₘ s.calls }

end Lockness.BagMachine
