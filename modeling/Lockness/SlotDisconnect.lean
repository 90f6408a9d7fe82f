import Lockness.SlotSleep

/-!
# Who is woken when the receiver of the slot is dropped

The drop replaces the senders' word by `RECEIVER_DEAD` and asks the futex to wake
everybody, but only if the old word was armed. As in the bag, a wake-up on its way
to one sender has disarmed it, and only one sleeper is sure to be reached; then the
others are left asleep.
-/

set_option autoImplicit false

namespace Lockness.SlotDisconnect
open Lockness.PoolRuns Lockness.PoolFutex Lockness.PoolTorch
open Lockness.SlotWords Lockness.SlotWords.SendStatus
open Lockness.SlotMachine Lockness.SlotMoves Lockness.SlotAttempts Lockness.SlotHandles
open Lockness.SlotTorch Lockness.SlotSchedule Lockness.SlotSleep

variable {c : Target} {T : Type*} {h : List (Event T)} {s s' : State c T} {e : Event T}

/-- The receiver has been dropped, no wake-up is on its way, every sending call
is asleep, and there is one. -/
def SendersStuck (s : State c T) : Prop :=
  s.receiver = false ∧ (∀ p ∈ s.calls, closing p = 0) ∧
  (∀ p ∈ s.calls, wakes p = 0 ∧ recv_wakes p = 0) ∧
  (∀ p ∈ s.calls, p.sender.isSome → (woken .send p).isSome) ∧ Asleep .send s

/-- The sleeping senders that the drop of the receiver is sure to wake: one of them
if the word is armed, and those whom a wake-up on its way reaches anyhow. -/
def Covered (s : State c T) : Prop :=
  weigh (sleeps (woken .send)) s.calls ≤
    weigh wakes s.calls+(if sleeping s.inner.send then 1 else 0)

def raises : Event T → Bool
  | .receiver_dead => true
  | _ => false

def DropCovered (s : State c T) (e : Event T) : Prop := raises e = true → Covered s

instance (s : State c T) : Decidable (SendersStuck s) :=
  inferInstanceAs (Decidable (_ ∧ _ ∧ _ ∧ _ ∧ Asleep .send s))

instance (s : State c T) : Decidable (Covered s) := Nat.decLe _ _

instance (s : State c T) (e : Event T) : Decidable (DropCovered s e) :=
  inferInstanceAs (Decidable (_ → Covered s))

theorem send_move_raises {m m' : Inner c T} {b : Bool} {pc pc' : SendPc c T}
    (hm : SendMove m b pc m' pc' e) : raises e = false := by
  cases hm with
  | attempt => split <;> rfl
  | _ => rfl

theorem step_dead (hk : Handles s) (ho : OpenOrDead s) (hstep : CalmStep s e s') :
    dead s'.inner.send = (dead s.inner.send || raises e) := by
  obtain ⟨hstep,hcalm⟩ := hstep
  cases step_moves hstep with
  | move hm =>
    cases hm with
    | send hm => rw [send_move_raises hm, Bool.or_false, send_move_dead hcalm hm]
    | recv hm =>
      have hd := receive_open hk ho rfl
      rw [hd, (recv_move_frame hm).2.2.2.2 hd]
      cases hm <;> rfl
    | drop hm => cases hm <;> simp [raises]
  | exit hx =>
    rw [(exit_frame hx).1]
    cases hx <;> simp [raises]
  | _ => simp [raises]

theorem released_run (hrun : Steps (When Step DropCovered) mpsc h s) :
    aborting s = 0 → Released (torch s.inner s.calls) := by
  refine hrun.carries (fun _ s => aborting s = 0 → Released (torch s.inner s.calls)) ?_ ?_
  · intro _ hc
    simp [torch,mpsc] at hc
  rintro k u e v hr hi ⟨hstep,hok⟩ hv
  have hu : aborting u = 0 := by
    have := aborting_step hstep
    omega
  obtain ⟨hcalm,hnow⟩ := calm_run hr.of_when (by omega)
  have hk := handles_run hr.of_when
  have ho := open_run hcalm
  refine (hi hu).move (step_torch hk ho (torch_run hcalm).2 ⟨hstep,hnow⟩) (fun h0 h1 => hok ?_)
  have hd := step_dead hk ho ⟨hstep,hnow⟩
  rwa [show dead u.inner.send = false from h0, Bool.false_or,
    show dead v.inner.send = true from h1, eq_comm] at hd

/-- In a run whose drop of the receiver covers the sleepers, no sender is left
asleep after it. -/
theorem slot_senders_released (hrun : Steps (When Step DropCovered) mpsc h s) :
    ¬ SendersStuck s := by
  rintro ⟨hr,hclose,hwakes,hasleep,ha⟩
  have hab : aborting s = 0 := by
    refine weigh_eq_zero _ (fun p hp => ?_)
    cases p with
    | send id b x pc =>
      obtain ⟨q,hq⟩ := Option.isSome_iff_exists.mp (hasleep _ hp rfl)
      rcases woken_cases hq with ⟨_,_,_,_,_,hpc,_⟩ | ⟨_,_,h0,_⟩
      · rw [hpc]
        rfl
      · cases h0
    | _ => rfl
  have ho := open_run (calm_run hrun.of_when (by omega)).1
  have hdead : dead s.inner.send = true := by
    cases hd : dead s.inner.send
    · simp [OpenOrDead,hr,hd,weigh_eq_zero _ hclose] at ho
    · rfl
  have hle := released_run hrun hab hdead
  have hpos := (asleep_iff .send s).mp ha
  simp only [torch, weigh_eq_zero _ (fun p hp => (hwakes p hp).1)] at hle
  omega

theorem slot_senders_released_in_time : ∃ (h : List (Event ℕ)) (s : State .x86_64 ℕ),
    Steps (When Step DropCovered) mpsc h s ∧ .receiver_dead ∈ h ∧ ¬ SendersStuck s := by
  obtain ⟨h,s,hr,hd⟩ := reaches_when .x86_64 DropCovered
    (one_asleep++[Command.drop_receiver]++List.replicate 2 (Command.act 2))
    (fun h _ => .receiver_dead ∈ h) (by decide +kernel)
  exact ⟨h,s,hr,hd,slot_senders_released hr⟩

/-- A receive disarms the word to wake one of two sleepers, and before that one
arms it again the receiver is dropped. -/
def drop_after_receive : List (Command ℕ) :=
  two_asleep++[Command.call_recv false]++List.replicate 5 (Command.act 2)++
    [Command.act 0,Command.drop_receiver]++List.replicate 2 (Command.act 2)++
    List.replicate 4 (Command.act 0)

theorem slot_senders_stuck : ∃ (h : List (Event ℕ)) (s : State .x86_64 ℕ),
    Steps Step mpsc h s ∧ SendersStuck s := by
  obtain ⟨h,s,hr,hq⟩ := reaches .x86_64 drop_after_receive (fun _ s => SendersStuck s)
    (by decide +kernel)
  exact ⟨h,s,hr,hq⟩

end Lockness.SlotDisconnect
