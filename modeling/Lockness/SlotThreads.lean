import Lockness.PoolArc
import Lockness.PoolThreads
import Lockness.SlotMachine

/-!
# The slot under a weak memory

The machine of the slot with the orderings and fences of the source. A receive
polls `recv` by an acquiring load, and a sender that waits polls `send` by a relaxed
one; either may be shown an older word. `Drop for Inner` loads `recv` as well. All
else updates the latest words. The receiver cannot be shared, so that each of its
calls happens after the earlier ones; a sender can.
-/

set_option autoImplicit false

namespace Lockness.SlotThreads
open Lockness.PoolFutex Lockness.PoolOrder Lockness.PoolArc Lockness.PoolThreads
open Lockness.SlotWords Lockness.SlotMachine

variable {c : Target} {T : Type*}

inductive Handle where
  | sender (id : ℕ)
  | receiver
  deriving DecidableEq

inductive Atomic where
  | send
  | recv
  | num_senders
  | strong
  deriving DecidableEq

inductive Value (c : Target) where
  | send (w : SendStatusU c)
  | recv (w : BitVec 32)
  | count (n : ℕ)

abbrev Access (c : Target) := Action (Thread Handle) Atomic Unit (Value c)

def loads : Party c T → Option (Atomic × MemOrder)
  | .send _ _ _ (.spin _ spin) => if spin = 0 then none else some (.send,.relaxed)
  | .recv _ _ (.load _) => some (.recv,.acquire)
  | .drop_sender .free => some (.recv,.acquire)
  | .drop_receiver .free => some (.recv,.acquire)
  | _ => none

def word (m : Inner c T) : Atomic → Value c
  | .send => .send m.send
  | .recv => .recv m.recv
  | .num_senders => .count m.num_senders
  | .strong => .count m.strong

def put (m : Inner c T) : Atomic → Value c → Inner c T
  | .send,.send w => { m with send := w }
  | .recv,.recv w => { m with recv := w }
  | _,_ => m

/-- The actions of a sending call that leaves the memory `m'`. Who has won the slot
fences before the write. -/
def send_actions (m' : Inner c T) : SendPc c T → Option (Party c T) → List (Access c)
  | .attempt _,_ => [.update .send .relaxed (.send m'.send)]
  | .check _ _,some (.send _ _ _ (.write _)) => [.fence .acquire]
  | .write _,_ => [.access ()]
  | .commit,_ => [.update .recv .release (.recv m'.recv)]
  | .spin _ spin,_ => if spin = 0 then [.update .send .relaxed (.send m'.send)] else []
  | .rearm _,_ => [.update .send .relaxed (.send m'.send)]
  | _,_ => []

def recv_actions (m' : Inner c T) : RecvPc T → List (Access c)
  | .clear => [.update .recv .relaxed (.recv m'.recv)]
  | .read => [.access ()]
  | .release _ => [.fence .release,.update .send .relaxed (.send m'.send)]
  | .arm => [.update .recv .relaxed (.recv m'.recv)]
  | _ => []

def release_actions (m' : Inner c T) : Option (Party c T) → List (Access c)
  | none => [.update .strong .release (.count m'.strong)]
  | some _ => [.update .strong .release (.count m'.strong),.fence .acquire]

def undelivered (m : Inner c T) : List Unit := if RecvStatus.commit m.recv then [()] else []

/-- `Drop for Inner` behind its load, and the end of the allocation. -/
def free_actions (m : Inner c T) : List (Access c) := (undelivered m).map .access++[.free]

def drop_sender_actions (m m' : Inner c T) (next : Option (Party c T)) :
    DropSenderPc → List (Access c)
  | .count => [.update .num_senders .relaxed (.count m'.num_senders)]
  | .raise => [.update .recv .relaxed (.recv m'.recv)]
  | .wake => []
  | .release => release_actions m' next
  | .free => free_actions m

def drop_receiver_actions (m m' : Inner c T) (next : Option (Party c T)) :
    DropReceiverPc → List (Access c)
  | .raise => [.update .send .relaxed (.send m'.send)]
  | .wake => []
  | .release => release_actions m' next
  | .free => free_actions m

def actions (m m' : Inner c T) : Party c T → Option (Party c T) → List (Access c)
  | .send _ _ _ pc,next => send_actions m' pc next
  | .recv _ _ pc,_ => recv_actions m' pc
  | .drop_sender pc,next => drop_sender_actions m m' next pc
  | .drop_receiver pc,next => drop_receiver_actions m m' next pc

def marking (c : Target) (T : Type*) :
    Marking (Inner c T) (Party c T) (Thread Handle) Atomic Unit (Value c) where
  loads := loads
  word := word
  put := put
  actions := actions

structure Scene (c : Target) (T : Type*) where
  trace : Trace (Thread Handle) Atomic Unit (Value c)
  inner : Inner c T
  senders : Multiset ℕ
  receiver : Bool
  calls : Multiset (Thread Handle × Party c T)
  next : ℕ

def start_actions (c : Target) : List (Access c) :=
  [.update .send .relaxed (.send 0),.update .recv .relaxed (.recv 0),
    .update .num_senders .relaxed (.count 1),.update .strong .relaxed (.count 2)]

def start : Scene c T where
  trace := marks .main (start_actions c)
  inner := (mpsc : State c T).inner
  senders := {0}
  receiver := true
  calls := 0
  next := 1

inductive WeakStep : Scene c T → Event T → Scene c T → Prop
  | party {s : Scene c T} {e : Event T} {τ : Trace (Thread Handle) Atomic Unit (Value c)}
      {m : Inner c T} {calls : Multiset (Thread Handle × Party c T)} :
      ThreadStep (program c T) (marking c T) s.trace s.inner s.calls e τ m calls →
      WeakStep s e { s with trace := τ, inner := m, calls := calls }
  | call_send {s : Scene c T} {h : ℕ} (blocking : Bool) (data : T) : h ∈ s.senders →
      WeakStep s (.sending s.next blocking data)
        { s with
          trace := s.trace++[(.call (.sender h) s.next,.join (created (.sender h)))]
          calls := (.call (.sender h) s.next,.send s.next blocking h (.attempt data)) ::ₘ s.calls
          next := s.next+1 }
  | call_recv {s : Scene c T} (blocking : Bool) : s.receiver = true →
      (∀ p ∈ s.calls, p.2.receives = false) → WeakStep s (.receiving s.next blocking)
        { s with
          trace := s.trace++[(.call .receiver s.next,.join (bound .receiver))]
          calls := (.call .receiver s.next,.recv s.next blocking (.load 0)) ::ₘ s.calls
          next := s.next+1 }
  | clone_sender {s : Scene c T} {h : ℕ} {m : Inner c T} : h ∈ s.senders →
      clone_sender s.inner = some m → WeakStep s .tau
        { s with
          trace := s.trace++marks (.clone (.sender h) (.sender s.next))
            [.join (created (.sender h)),.update .num_senders .relaxed (.count m.num_senders),
              .update .strong .relaxed (.count m.strong)]
          inner := m
          senders := s.next ::ₘ s.senders
          next := s.next+1 }
  | drop_sender {s : Scene c T} {h : ℕ} {rest : Multiset ℕ} : s.senders = h ::ₘ rest →
      (∀ p ∈ s.calls, p.2.sender ≠ some h) → WeakStep s .tau
        { s with
          trace := s.trace++[(.drop (.sender h),.join (bound (.sender h)))]
          senders := rest
          calls := (.drop (.sender h),.drop_sender .count) ::ₘ s.calls }
  | drop_receiver {s : Scene c T} : s.receiver = true → (∀ p ∈ s.calls, p.2.receives = false) →
      WeakStep s .tau
        { s with
          trace := s.trace++[(.drop .receiver,.join (bound .receiver))]
          receiver := false
          calls := (.drop .receiver,.drop_receiver .raise) ::ₘ s.calls }

def Scene.erase (s : Scene c T) : State c T :=
  ⟨s.inner,s.senders,s.receiver,s.calls.map Prod.snd,s.next⟩

end Lockness.SlotThreads
