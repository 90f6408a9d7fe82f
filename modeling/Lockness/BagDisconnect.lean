import Lockness.BagSleep

/-!
# Who is woken when one side of the bag disconnects

The last drop of a side raises its flag and asks the futex to wake everybody,
but only if the word is armed at that moment. A wake-up that is still on its way
to one sleeper has disarmed the word, and then a second sleeper is not woken. Nor
is the futex sure to wake more than one for `u32::MAX`. The disconnect releases
everybody if the sleepers at the raising step are no more than the wake-ups on
their way are sure to reach, the drop's own among them.
-/

set_option autoImplicit false

namespace Lockness.BagDisconnect
open Lockness.PoolRuns Lockness.PoolFutex Lockness.PoolTorch Lockness.PoolSchedule
open Lockness.BagMasks Lockness.BagMachine Lockness.BagMoves Lockness.BagInversion
open Lockness.BagHandles Lockness.BagTorch Lockness.BagSchedule Lockness.BagSleep

variable {T : Type*} {c : Target T} {h : List (Event T)} {s s' : State T} {e : Event T}

/-- All senders are dropped, no wake-up is on its way, every receiving call is
asleep, and there is one. -/
def ReceiversStuck (s : State T) : Prop :=
  s.senders = 0 ∧
  (∀ p ∈ s.calls, dropping_sender .count p = 0 ∧ dropping_sender .raise p = 0) ∧
  (∀ p ∈ s.calls, wakes .send p = 0 ∧ wakes .recv p = 0) ∧
  (∀ p ∈ s.calls, p.receiver.isSome → (woken .recv p).isSome) ∧ Asleep .recv s

def SendersStuck (s : State T) : Prop :=
  s.receivers = 0 ∧
  (∀ p ∈ s.calls, dropping_receiver .count p = 0 ∧ dropping_receiver .raise p = 0) ∧
  (∀ p ∈ s.calls, wakes .send p = 0 ∧ wakes .recv p = 0) ∧
  (∀ p ∈ s.calls, p.sender.isSome → (woken .send p).isSome) ∧ Asleep .send s

/-- The sleepers of a word that its closing is sure to wake: one of them if it is
armed, and those whom a wake-up on its way reaches anyhow. -/
def Covered (w : Futex) (s : State T) : Prop :=
  weigh (sleeps (woken w)) s.calls ≤
    weigh (wakes w) s.calls+(if armed s.inner w then 1 else 0)

def raises : Futex → Event T → Bool
  | .recv,.sender_dead => true
  | .send,.receiver_dead => true
  | _,_ => false

/-- The condition on a step for receivers: no clone of a sender panics after it
has been counted, and the last drop covers the sleepers. -/
def RecvCovered (s : State T) (e : Event T) : Prop :=
  leak e = 0 ∧ (raises .recv e = true → Covered .recv s)

def SendCovered (s : State T) (e : Event T) : Prop := raises .send e = true → Covered .send s

instance (s : State T) : Decidable (ReceiversStuck s) :=
  inferInstanceAs (Decidable (_ ∧ _ ∧ _ ∧ _ ∧ Asleep .recv s))

instance (s : State T) : Decidable (SendersStuck s) :=
  inferInstanceAs (Decidable (_ ∧ _ ∧ _ ∧ _ ∧ Asleep .send s))

instance (w : Futex) (s : State T) : Decidable (Covered w s) := Nat.decLe _ _

instance (s : State T) (e : Event T) : Decidable (RecvCovered s e) :=
  inferInstanceAs (Decidable (_ ∧ (_ → Covered .recv s)))

instance (s : State T) (e : Event T) : Decidable (SendCovered s e) :=
  inferInstanceAs (Decidable (_ → Covered .send s))

theorem send_move_raises {m m' : Inner T} {b : Bool} {x : Sender} {pc pc' : SendPc T}
    (hm : SendMove m b x pc m' pc' e) (w : Futex) : raises w e = false := by
  cases hm <;> cases w <;> rfl

theorem recv_move_raises {m m' : Inner T} {b : Bool} {pc pc' : RecvPc T}
    (hm : RecvMove m b pc m' pc' e) (w : Futex) : raises w e = false := by
  cases hm <;> cases w <;> rfl

theorem exit_raises {m m' : Inner T} {p : Party T} (hx : Exit c m p m' e) :
    m'.send = m.send ∧ m'.recv = m.recv ∧ raises .recv e = false ∧ raises .send e = false := by
  cases hx with
  | sender_free hd => exact (drop_inner_spec hd).1 ▸ ⟨rfl,rfl,rfl,rfl⟩
  | receiver_free hd => exact (drop_inner_spec hd).1 ▸ ⟨rfl,rfl,rfl,rfl⟩
  | _ => exact ⟨rfl,rfl,rfl,rfl⟩

theorem step_dead (hk : Handles h s) (hstep : Step c s e s') :
    dead (~~~s'.inner.recv) = (dead (~~~s.inner.recv) || raises .recv e) ∧
    dead s'.inner.send = (dead s.inner.send || raises .send e) := by
  have hsame {m' : Inner T} (hm : m'.send = s.inner.send ∧ m'.recv = s.inner.recv ∧
      raises .recv e = false ∧ raises .send e = false) :
      dead (~~~m'.recv) = (dead (~~~s.inner.recv) || raises .recv e) ∧
      dead m'.send = (dead s.inner.send || raises .send e) := by
    rw [hm.1, hm.2.1, hm.2.2.1, hm.2.2.2, Bool.or_false, Bool.or_false]
    exact ⟨rfl,rfl⟩
  cases hstep with
  | party hp =>
    generalize hcalls : s.calls = cs at hp
    cases hp with
    | go hc =>
      rename_i p p' rest
      have hp : p ∈ s.calls := by simp [hcalls]
      cases code_moves (hk.ok p hp) hc with
      | send hm =>
        have hd := (hk.senders_tallied.down (hk.sender_pos hp rfl)).2
        have hd' := (send_move_dead hm).2 hd
        rw [send_move_raises hm, send_move_raises hm, Bool.or_false, Bool.or_false]
        exact ⟨hd'.trans hd.symm,(send_move_dead hm).1⟩
      | recv hm =>
        have hd := (hk.receivers_tallied.down (hk.receiver_pos hp rfl)).2
        have hd' := (recv_move_dead hm).2 hd
        rw [recv_move_raises hm, recv_move_raises hm, Bool.or_false, Bool.or_false]
        exact ⟨(recv_move_dead hm).1,hd'.trans hd.symm⟩
      | drop hm =>
        cases hm with
        | sender_raise _ hd => exact ⟨by rw [hd]; simp [raises],by simp [raises]⟩
        | receiver_raise _ hd => exact ⟨by simp [raises],by rw [hd]; simp [raises]⟩
        | _ => exact hsame ⟨rfl,rfl,rfl,rfl⟩
    | wake => exact hsame ⟨rfl,rfl,rfl,rfl⟩
    | spurious => exact hsame ⟨rfl,rfl,rfl,rfl⟩
    | exit hc => exact hsame (exit_raises (code_exits hc))
  | clone_sender _ hc =>
    obtain ⟨-,-,rfl⟩ := clone_sender_ok hc
    exact hsame ⟨rfl,rfl,rfl,rfl⟩
  | clone_sender_panic _ hc =>
    obtain ⟨-,rfl⟩ := clone_sender_panics hc
    exact hsame ⟨rfl,rfl,rfl,rfl⟩
  | clone_receiver _ hc =>
    obtain ⟨-,rfl⟩ := clone_receiver_ok hc
    exact hsame ⟨rfl,rfl,rfl,rfl⟩
  | _ => exact hsame ⟨rfl,rfl,rfl,rfl⟩

theorem recv_released (hrun : Steps (When (Step c) RecvCovered) mpmc h s) :
    Released (torch .recv s.inner s.calls) ∧ leaks h = 0 := by
  refine hrun.carries (fun h s => Released (torch .recv s.inner s.calls) ∧ leaks h = 0) ?_ ?_
  · exact ⟨by simp [Released,torch,closed,mpmc],rfl⟩
  · rintro h s e s' hr ⟨hi,hl⟩ ⟨hstep,hok⟩
    have hk := handles_run hr.of_when
    refine ⟨hi.move (step_torch hk hstep) (fun h0 h1 => hok.2 ?_),by rw [leaks_append, hl, hok.1]⟩
    have hd := (step_dead hk hstep).1
    rwa [show dead (~~~s.inner.recv) = false from h0, Bool.false_or,
      show dead (~~~s'.inner.recv) = true from h1, eq_comm] at hd

theorem send_released (hrun : Steps (When (Step c) SendCovered) mpmc h s) :
    Released (torch .send s.inner s.calls) := by
  refine hrun.carries (fun _ s => Released (torch .send s.inner s.calls)) ?_ ?_
  · simp [Released,torch,closed,mpmc]
  · rintro h s e s' hr hi ⟨hstep,hok⟩
    have hk := handles_run hr.of_when
    refine hi.move (step_torch hk hstep) (fun h0 h1 => hok ?_)
    have hd := (step_dead hk hstep).2
    rwa [show dead s.inner.send = false from h0, Bool.false_or,
      show dead s'.inner.send = true from h1, eq_comm] at hd

/-- In a run whose steps all cover the sleepers, no receiver is left asleep
after the last sender is gone. -/
theorem receivers_released (hrun : Steps (When (Step c) RecvCovered) mpmc h s) :
    ¬ ReceiversStuck s := by
  rintro ⟨hs,hdrop,hwakes,-,ha⟩
  have hk := handles_run hrun.of_when
  obtain ⟨hrel,hl⟩ := recv_released hrun
  have hflag := hk.senders_tallied.up
    (by simp [senders_tally,hs,weigh_eq_zero _ (fun p hp => (hdrop p hp).1)]) hl
    (weigh_eq_zero _ (fun p hp => (hdrop p hp).2))
  have hle := hrel hflag
  have hpos := (asleep_iff .recv s).mp ha
  simp only [torch, weigh_eq_zero _ (fun p hp => (hwakes p hp).2)] at hle
  omega

/-- One receiver sleeps and another is about to when the last sender is dropped. -/
def drop_in_time : List (Command ℕ) :=
  [Command.clone_receiver 0,Command.call_recv 0 true]++List.replicate 35 (Command.act 0)++
    [Command.call_recv 1 true]++List.replicate 2 (Command.act 1)++[Command.drop_sender 0]++
    List.replicate 4 (Command.act 2)

theorem receivers_released_in_time : ∃ (h : List (Event ℕ)) (s : State ℕ),
    Steps (When (Step .release) RecvCovered) mpmc h s ∧ .sender_dead ∈ h ∧
      ¬ ReceiversStuck s := by
  obtain ⟨h,s,hr,hd⟩ := reaches_when (c := .release) RecvCovered drop_in_time
    (fun h _ => .sender_dead ∈ h) (by decide +kernel)
  exact ⟨h,s,hr,hd,receivers_released hr⟩

/-- Two receivers sleep; a commit disarms the word to wake one, and before that
one arms it again the last sender is dropped. -/
def drop_after_commit : List (Command ℕ) :=
  [Command.clone_receiver 0,Command.call_recv 0 true]++List.replicate 35 (Command.act 0)++
    [Command.call_recv 1 true]++List.replicate 3 (Command.act 1)++
    [Command.call_send 0 false (.value 7)]++List.replicate 4 (Command.act 2)++
    [Command.act 0,Command.drop_sender 0]++List.replicate 3 (Command.act 2)++
    List.replicate 5 (Command.act 0)

theorem receivers_stuck : ∃ (h : List (Event ℕ)) (s : State ℕ),
    Steps (Step .release) mpmc h s ∧ ReceiversStuck s := by
  obtain ⟨h,s,hr,hq⟩ := reaches (c := .release) drop_after_commit
    (fun _ s => ReceiversStuck s) (by decide +kernel)
  exact ⟨h,s,hr,hq⟩

/-- In a run whose last drop covers the sleepers, no sender is left asleep
after the last receiver is gone. -/
theorem senders_released (hrun : Steps (When (Step c) SendCovered) mpmc h s) :
    ¬ SendersStuck s := by
  rintro ⟨hs,hdrop,hwakes,-,ha⟩
  have hk := handles_run hrun.of_when
  have hflag := hk.receivers_tallied.up
    (by simp [receivers_tally,hs,weigh_eq_zero _ (fun p hp => (hdrop p hp).1)]) rfl
    (weigh_eq_zero _ (fun p hp => (hdrop p hp).2))
  have hle := send_released hrun hflag
  have hpos := (asleep_iff .send s).mp ha
  simp only [torch, weigh_eq_zero _ (fun p hp => (hwakes p hp).1)] at hle
  omega

/-- On a full bag one sender sleeps and another is about to. -/
def full_bag : List (Command ℕ) :=
  [Command.clone_sender 0,Command.call_send 0 false (.vec (List.range 30))]++
    List.replicate 33 (Command.act 0)++[Command.call_send 0 true (.value 30)]++
    List.replicate 35 (Command.act 0)++[Command.call_send 1 true (.value 31)]++
    List.replicate 2 (Command.act 1)

theorem senders_released_in_time : ∃ (h : List (Event ℕ)) (s : State ℕ),
    Steps (When (Step .release) SendCovered) mpmc h s ∧ .receiver_dead ∈ h ∧
      ¬ SendersStuck s := by
  obtain ⟨h,s,hr,hd⟩ := reaches_when (c := .release) SendCovered
    (full_bag++[Command.drop_receiver 0]++List.replicate 4 (Command.act 2))
    (fun h _ => .receiver_dead ∈ h) (by decide +kernel)
  exact ⟨h,s,hr,hd,senders_released hr⟩

/-- Both sleep; a receive disarms the word to wake one of them, and before that one
arms it again the last receiver is dropped. -/
def drop_after_receive : List (Command ℕ) :=
  full_bag++[Command.act 1,Command.call_recv 0 false]++List.replicate 33 (Command.act 2)++
    [Command.act 0,Command.drop_receiver 0]++List.replicate 3 (Command.act 2)++
    List.replicate 3 (Command.act 0)

theorem senders_stuck : ∃ (h : List (Event ℕ)) (s : State ℕ),
    Steps (Step .release) mpmc h s ∧ SendersStuck s := by
  obtain ⟨h,s,hr,hq⟩ := reaches (c := .release) drop_after_receive
    (fun _ s => SendersStuck s) (by decide +kernel)
  exact ⟨h,s,hr,hq⟩

end Lockness.BagDisconnect
