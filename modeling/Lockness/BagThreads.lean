import Lockness.BagBoard
import Lockness.PoolArc
import Lockness.PoolRaces
import Lockness.PoolThreads

/-!
# The bag under a weak memory

The machine of the bag with the orderings and fences of the source. The words and
counters are only ever updated, but for the loads of the two spin loops and of
`Drop for Inner`, which may return an older word. A futex compares the latest
word. Every call and every drop is a thread of its own; it happens after the
handle was created, and the drop of a handle after all its uses, since they borrow
it. `Arc` counts as documented: a release for each handle, an acquire for the last.
-/

set_option autoImplicit false

namespace Lockness.BagThreads
open Lockness.PoolFutex Lockness.PoolOrder Lockness.PoolArc Lockness.PoolThreads
open Lockness.BagMasks Lockness.BagMachine

variable {T : Type*}

inductive Handle where
  | sender (id : ℕ)
  | receiver (id : ℕ)
  deriving DecidableEq

inductive Atomic where
  | send
  | recv
  | num_senders
  | num_receivers
  | strong
  deriving DecidableEq

inductive Value where
  | word (w : Word)
  | count (n : ℕ)

abbrev Access := Action (Thread Handle) Atomic Slot Value

def loads : Party T → Option (Atomic × MemOrder)
  | .send _ _ _ (.spin _ spin) => if spin = 0 then none else some (.send,.relaxed)
  | .recv _ _ _ (.spin spin) => if spin = 0 then none else some (.recv,.relaxed)
  | .drop_sender .free => some (.recv,.acquire)
  | .drop_receiver .free => some (.recv,.acquire)
  | _ => none

def word (m : Inner T) : Atomic → Value
  | .send => .word m.send
  | .recv => .word m.recv
  | .num_senders => .count m.num_senders
  | .num_receivers => .count m.num_receivers
  | .strong => .count m.strong

def put (m : Inner T) : Atomic → Value → Inner T
  | .send,.word w => { m with send := w }
  | .recv,.word w => { m with recv := w }
  | _,_ => m

/-- The actions of a sending call that leaves the memory `m'`. The loop that reserves
ends with a fence. -/
def send_actions (m' : Inner T) : SendPc T → Option (Party T) → List Access
  | .reserve _ _ _,some (.send _ _ _ (.write _ _ _)) =>
    [.update .send .relaxed (.word m'.send),.fence .acquire]
  | .reserve _ _ _,_ => [.update .send .relaxed (.word m'.send)]
  | .write _ _ todo,_ => match drain_next N todo with
    | some (i,_) => [.access i]
    | none => [.update .recv .release (.word m'.recv)]
  | .spin _ spin,_ => if spin = 0 then [.update .send .relaxed (.word m'.send)] else []
  | .rearm _,_ => [.update .send .relaxed (.word m'.send)]
  | _,_ => []

def recv_actions (m' : Inner T) : RecvPc T → List Access
  | .claim => [.update .recv .acquire (.word m'.recv)]
  | .read _ todo _ => match drain_next N todo with
    | some (i,_) => [.access i]
    | none => [.fence .release,.update .send .relaxed (.word m'.send)]
  | .spin spin => if spin = 0 then [.update .recv .relaxed (.word m'.recv)] else []
  | .rearm => [.update .recv .relaxed (.word m'.recv)]
  | _ => []

def release_actions (m' : Inner T) : Option (Party T) → List Access
  | none => [.update .strong .release (.count m'.strong)]
  | some _ => [.update .strong .release (.count m'.strong),.fence .acquire]

/-- `Drop for Inner` behind its load, and the end of the allocation. -/
def free_actions (c : Target T) (m : Inner T) : List Access :=
  (drop_slots c m.bag (drain_mask N (m.recv &&& ~~~Status.all))).map .access++[.free]

def drop_sender_actions (c : Target T) (m m' : Inner T) (next : Option (Party T)) :
    DropPc → List Access
  | .count => [.update .num_senders .relaxed (.count m'.num_senders)]
  | .raise => [.update .recv .relaxed (.word m'.recv)]
  | .wake => []
  | .release => release_actions m' next
  | .free => free_actions c m

def drop_receiver_actions (c : Target T) (m m' : Inner T) (next : Option (Party T)) :
    DropPc → List Access
  | .count => [.update .num_receivers .relaxed (.count m'.num_receivers)]
  | .raise => [.update .send .relaxed (.word m'.send)]
  | .wake => []
  | .release => release_actions m' next
  | .free => free_actions c m

def actions (c : Target T) (m m' : Inner T) : Party T → Option (Party T) → List Access
  | .send _ _ _ pc,next => send_actions m' pc next
  | .recv _ _ _ pc,_ => recv_actions m' pc
  | .drop_sender pc,next => drop_sender_actions c m m' next pc
  | .drop_receiver pc,next => drop_receiver_actions c m m' next pc

def marking (c : Target T) : Marking (Inner T) (Party T) (Thread Handle) Atomic Slot Value where
  loads := loads
  word := word
  put := put
  actions := actions c

structure Scene (T : Type*) where
  trace : Trace (Thread Handle) Atomic Slot Value
  inner : Inner T
  senders : Multiset Sender
  receivers : Multiset ℕ
  calls : Multiset (Thread Handle × Party T)
  next : ℕ

/-- `mpmc()` writes the atomics before anybody else knows them. -/
def start_actions : List Access :=
  [.update .send .relaxed (.word 0),.update .recv .relaxed (.word Status.all),
    .update .num_senders .relaxed (.count 1),.update .num_receivers .relaxed (.count 1),
    .update .strong .relaxed (.count 2)]

def start : Scene T where
  trace := marks .main start_actions
  inner := mpmc.inner
  senders := {⟨0,0⟩}
  receivers := {0}
  calls := 0
  next := 1

inductive WeakStep (c : Target T) : Scene T → Event T → Scene T → Prop
  | party {s : Scene T} {e : Event T} {τ : Trace (Thread Handle) Atomic Slot Value} {m : Inner T}
      {calls : Multiset (Thread Handle × Party T)} :
      ThreadStep (program c) (marking c) s.trace s.inner s.calls e τ m calls →
      WeakStep c s e { s with trace := τ, inner := m, calls := calls }
  | call_send {s : Scene T} {h : Sender} (blocking : Bool) (data : SendBuffer T) :
      h ∈ s.senders → WeakStep c s (.sending s.next blocking data)
        { s with
          trace := s.trace++[(.call (.sender h.id) s.next,.join (created (.sender h.id)))]
          calls := (.call (.sender h.id) s.next,.send s.next blocking h (try_send h data)) ::ₘ
            s.calls
          next := s.next+1 }
  | call_recv {s : Scene T} {h : ℕ} (blocking : Bool) : h ∈ s.receivers →
      WeakStep c s (.receiving s.next blocking)
        { s with
          trace := s.trace++[(.call (.receiver h) s.next,.join (created (.receiver h)))]
          calls := (.call (.receiver h) s.next,.recv s.next blocking h .claim) ::ₘ s.calls
          next := s.next+1 }
  | clone_sender {s : Scene T} {h : Sender} {m : Inner T} {bias : ℕ} : h ∈ s.senders →
      clone_sender c s.inner = .ok m bias → WeakStep c s .tau
        { s with
          trace := s.trace++marks (.clone (.sender h.id) (.sender s.next))
            [.join (created (.sender h.id)),.update .num_senders .relaxed (.count m.num_senders),
              .update .strong .relaxed (.count m.strong)]
          inner := m
          senders := ⟨s.next,bias⟩ ::ₘ s.senders
          next := s.next+1 }
  | clone_sender_panic {s : Scene T} {h : Sender} {m : Inner T} : h ∈ s.senders →
      clone_sender c s.inner = .panic m → WeakStep c s .clone_panic
        { s with
          trace := s.trace++marks (.clone_panic (.sender h.id) s.trace.length)
            [.join (created (.sender h.id)),.update .num_senders .relaxed (.count m.num_senders)]
          inner := m }
  | clone_receiver {s : Scene T} {h : ℕ} {m : Inner T} : h ∈ s.receivers →
      clone_receiver s.inner = some m → WeakStep c s .tau
        { s with
          trace := s.trace++marks (.clone (.receiver h) (.receiver s.next))
            [.join (created (.receiver h)),.update .num_receivers .relaxed (.count m.num_receivers),
              .update .strong .relaxed (.count m.strong)]
          inner := m
          receivers := s.next ::ₘ s.receivers
          next := s.next+1 }
  | drop_sender {s : Scene T} {h : Sender} {rest : Multiset Sender} : s.senders = h ::ₘ rest →
      (∀ p ∈ s.calls, p.2.sender ≠ some h) → WeakStep c s .tau
        { s with
          trace := s.trace++[(.drop (.sender h.id),.join (bound (.sender h.id)))]
          senders := rest
          calls := (.drop (.sender h.id),.drop_sender .count) ::ₘ s.calls }
  | drop_receiver {s : Scene T} {h : ℕ} {rest : Multiset ℕ} : s.receivers = h ::ₘ rest →
      (∀ p ∈ s.calls, p.2.receiver ≠ some h) → WeakStep c s .tau
        { s with
          trace := s.trace++[(.drop (.receiver h),.join (bound (.receiver h)))]
          receivers := rest
          calls := (.drop (.receiver h),.drop_receiver .count) ::ₘ s.calls }

def Scene.erase (s : Scene T) : State T :=
  ⟨s.inner,s.senders,s.receivers,s.calls.map Prod.snd,s.next⟩

end Lockness.BagThreads
