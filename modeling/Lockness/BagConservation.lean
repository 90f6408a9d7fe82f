import Lockness.BagOwnership
import Lockness.BagSchedule

/-!
# No value of the bag is lost or duplicated

The values taken out of the senders' buffers are, at every moment, those
written and not committed, those ready, those claimed and not returned, and
those returned. The last handle drops what is ready, and nothing else is left.
-/

set_option autoImplicit false

namespace Lockness.BagConservation
open Lockness.PoolRuns Lockness.PoolFutex Lockness.PoolSlots Lockness.BagMasks
open Lockness.BagMachine Lockness.BagMoves Lockness.BagInversion Lockness.BagHandles
open Lockness.BagBoard Lockness.BagOwnership Lockness.BagSchedule

variable {T : Type*}

/-- What a `try_send` has written to its slots and not committed. -/
def uncommitted (m : Inner T) (p : Party T) : Multiset T :=
  cells m.bag ((footprint p).reserved \ (footprint p).unwritten)

/-- What a `try_recv` has claimed and not returned, read or still to be read. -/
def unreturned (m : Inner T) (p : Party T) : Multiset T :=
  cells m.bag (footprint p).unread+(footprint p).held

variable {c : Target T} {h : List (Event T)} {s s' : BagMachine.State T} {e : Event T}

theorem accounted (hi : PoolSlots.Inv (view h s)) : total taken h =
    weigh (uncommitted s.inner) s.calls+cells s.inner.bag (slots s.inner.recv)+
      weigh (unreturned s.inner) s.calls+total returned h := by
  have hc := hi.conserved
  rw [hi.partition] at hc
  simp only [view, ledger, board, weigh_map] at hc
  have hsplit : weigh (unreturned s.inner) s.calls =
      weigh (fun p => cells s.inner.bag (footprint p).unread) s.calls+
        weigh (fun p => (footprint p).held) s.calls := weigh_add _ _ _
  have hwritten : weigh (uncommitted s.inner) s.calls =
      weigh (fun p => cells s.inner.bag ((footprint p).reserved \ (footprint p).unwritten))
        s.calls := rfl
  rw [hc, hsplit, hwritten]
  abel

theorem freed_empty (hk : Handles h s) (hf : s.inner.freed = true) :
    s.senders = 0 ∧ s.receivers = 0 ∧ s.calls = 0 := by
  obtain ⟨-,hh,-,hl⟩ := hk.arc_tallied.raised hf
  simp only [arc_tally] at hh hl
  have hs : s.senders = 0 := Multiset.card_eq_zero.mp (by omega)
  have hr : s.receivers = 0 := Multiset.card_eq_zero.mp (by omega)
  refine ⟨hs,hr,Multiset.eq_zero_of_forall_notMem (fun p hp => ?_)⟩
  have hu := (weigh_eq_zero_iff unreleased s.calls).mp (by omega) p hp
  have hfr := (weigh_eq_zero_iff freeing s.calls).mp hl p hp
  cases p with
  | send id b x pc => simpa [hs] using hk.sender _ hp x rfl
  | recv id b x pc => simpa [hr] using hk.receiver _ hp x rfl
  | drop_sender pc =>
    cases pc <;> simp [unreleased,freeing,dropping_sender,dropping_receiver] at hu hfr
  | drop_receiver pc =>
    cases pc <;> simp [unreleased,freeing,dropping_sender,dropping_receiver] at hu hfr

theorem empty_freed (hk : Handles h s) (hs : s.senders = 0) (hr : s.receivers = 0)
    (hc : s.calls = 0) : s.inner.freed = true := by
  have h1 := hk.arc_tallied.counted
  have h2 := hk.arc_tallied.once
  simp only [arc_tally, hs, hr, hc, weigh_zero, Multiset.card_zero] at h1 h2
  rw [if_pos (by omega)] at h2
  simpa using h2

theorem step_dropped (hk : Handles h s) (hstep : BagMachine.Step c s e s') :
    s'.inner.freed = s.inner.freed ∧ dropped e = 0 ∨
    ∃ values, e = .dropped values ∧ drop_inner c s.inner = some (s'.inner,values) := by
  cases hstep with
  | party hp =>
    generalize hcalls : s.calls = cs at hp
    cases hp with
    | go hc =>
      left
      cases code_moves (hk.ok _ (by simp [hcalls])) hc with
      | send hm => exact ⟨(send_move_frame hm).2.2.2,by cases hm <;> rfl⟩
      | recv hm => exact ⟨(recv_move_frame hm).2.2.2,by cases hm <;> rfl⟩
      | drop hm => cases hm <;> exact ⟨rfl,rfl⟩
    | wake => exact .inl ⟨rfl,rfl⟩
    | spurious => exact .inl ⟨rfl,rfl⟩
    | exit hc =>
      cases code_exits hc with
      | sender_free hd => exact .inr ⟨_,rfl,hd⟩
      | receiver_free hd => exact .inr ⟨_,rfl,hd⟩
      | _ => exact .inl ⟨rfl,rfl⟩
  | clone_sender _ hc =>
    obtain ⟨-,-,rfl⟩ := clone_sender_ok hc
    exact .inl ⟨rfl,rfl⟩
  | clone_sender_panic _ hc =>
    obtain ⟨-,rfl⟩ := clone_sender_panics hc
    exact .inl ⟨rfl,rfl⟩
  | clone_receiver _ hc =>
    obtain ⟨-,rfl⟩ := clone_receiver_ok hc
    exact .inl ⟨rfl,rfl⟩
  | _ => exact .inl ⟨rfl,rfl⟩

theorem freed_final (hk : Handles h s) (hstep : BagMachine.Step c s e s') :
    s.inner.freed = false := by
  by_contra hf
  rw [Bool.not_eq_false] at hf
  obtain ⟨hs,hr,hc⟩ := freed_empty hk hf
  cases hstep with
  | party hp =>
    rw [hc] at hp
    generalize hcs : (0 : Multiset (Party T)) = cs at hp
    cases hp <;> exact absurd hcs (Multiset.zero_ne_cons)
  | drop_sender hd => exact absurd (hs.symm.trans hd) Multiset.zero_ne_cons
  | drop_receiver hd => exact absurd (hr.symm.trans hd) Multiset.zero_ne_cons
  | call_recv _ hx => simp [hr] at hx
  | clone_receiver hx => simp [hr] at hx
  | call_send _ _ hx => simp [hs] at hx
  | clone_sender hx => simp [hs] at hx
  | clone_sender_panic hx => simp [hs] at hx

/-- What `Inner::drop` has dropped; `leaked` is what a panic has left in the bag. -/
structure Settled (c : Target T) (h : List (Event T)) (m : Inner T) : Prop where
  before : m.freed = false → total dropped h = 0
  after : m.freed = true → ∃ (values : List T) (leaked : Multiset T),
    total dropped h = values ∧
    (values : Multiset T)+leaked = cells m.bag (slots m.recv) ∧
    Unwound c.drop_panics values leaked

theorem settled_step (hk : Handles h s) (hi : PoolSlots.Inv (view h s)) (hd : Settled c h s.inner)
    (hstep : BagMachine.Step c s e s') : Settled c (h++[e]) s'.inner := by
  have hf := freed_final hk hstep
  have h0 := hd.before hf
  rcases step_dropped hk hstep with ⟨hf',he⟩ | ⟨values,rfl,hdrop⟩
  · refine ⟨fun _ => by rw [total_append, h0, he, add_zero],fun hnow => ?_⟩
    rw [hf', hf] at hnow
    cases hnow
  · obtain ⟨m',vs,leaked,hvs,hcells,hu⟩ := drop_inner_total (c := c) hi
    obtain ⟨rfl,rfl⟩ := Prod.mk.inj (Option.some.inj (hdrop.symm.trans hvs))
    rw [(drop_inner_spec hdrop).1]
    refine ⟨fun hnow => absurd hnow (by simp),fun _ => ⟨values,leaked,?_,hcells,hu⟩⟩
    rw [total_append, h0, add_zero]
    rfl

theorem settled_start : Settled c [] (mpmc : State T).inner :=
  ⟨fun _ => rfl,fun hf => by cases hf⟩

/-- Two values are received and a third is dropped with the last handle. -/
def two_of_three : List (Command ℕ) :=
  [Command.call_send 0 false (.vec [1,2])]++List.replicate 5 (Command.act 0)++
    [Command.call_recv 0 false]++List.replicate 5 (Command.act 0)++
    [Command.call_send 0 false (.value 3)]++List.replicate 4 (Command.act 0)++
    [Command.drop_sender 0]++List.replicate 3 (Command.act 0)++[Command.drop_receiver 0]++
    List.replicate 4 (Command.act 0)

end Lockness.BagConservation
