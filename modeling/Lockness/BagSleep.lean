import Lockness.BagTorch
import Lockness.BagOwnership
import Lockness.BagSchedule

/-!
# Nobody sleeps on work for good

A state is quiescent when every call in flight is asleep. Then no wake-up is on
its way and nobody is about to arm a bit, so the torch invariants speak about
the sleepers alone. The sender's side is weaker than the receiver's: a receive
that frees many slots wakes one sender.
-/

set_option autoImplicit false

namespace Lockness.BagSleep
open Lockness.PoolRuns Lockness.PoolFutex Lockness.PoolSlots Lockness.PoolSchedule
open Lockness.BagMasks Lockness.BagMachine Lockness.BagHandles Lockness.BagBoard
open Lockness.BagOwnership Lockness.BagTorch Lockness.BagSchedule

variable {T : Type*} {c : Target T} {h : List (Event T)} {s : BagMachine.State T}

def Asleep (w : Futex) (s : BagMachine.State T) : Prop := ∃ p ∈ s.calls, (woken w p).isSome

/-- Every party is outside any operation or asleep. -/
def Quiescent (s : BagMachine.State T) : Prop :=
  ∀ p ∈ s.calls, (woken .send p).isSome ∨ (woken .recv p).isSome

instance (w : Futex) (s : BagMachine.State T) : Decidable (Asleep w s) :=
  Multiset.decidableExistsMultiset

instance (s : BagMachine.State T) : Decidable (Quiescent s) :=
  Multiset.decidableForallMultiset

theorem asleep_iff (w : Futex) (s : BagMachine.State T) :
    Asleep w s ↔ 0 < weigh (sleeps (woken w)) s.calls := by
  have hpos (p : Party T) : 0 < sleeps (woken w) p ↔ (woken w p).isSome := by
    unfold sleeps
    split <;> simp_all
  simp only [weigh_pos_iff, hpos, Asleep]

theorem sleeper_weights {p : Party T} (hp : (woken .send p).isSome ∨ (woken .recv p).isSome)
    (w : Futex) : wakes w p = 0 ∧ rearming w p = 0 ∧ trying w p = 0 ∧ footprint p = .idle := by
  have hsome : ∃ v q, woken v p = some q := by
    rcases hp with hp | hp
    · exact ⟨_,_,(Option.isSome_iff_exists.mp hp).choose_spec⟩
    · exact ⟨_,_,(Option.isSome_iff_exists.mp hp).choose_spec⟩
  obtain ⟨v,q,hq⟩ := hsome
  rcases woken_cases hq with ⟨_,_,_,_,-,rfl,-⟩ | ⟨_,_,_,-,rfl,-⟩ <;> cases w <;>
    exact ⟨rfl,rfl,rfl,rfl⟩

theorem quiescent_torch (hq : Quiescent s) (w : Futex) : weigh (wakes w) s.calls = 0 ∧
    weigh (rearming w) s.calls = 0 ∧ weigh (trying w) s.calls = 0 :=
  ⟨weigh_eq_zero _ (fun p hp => (sleeper_weights (hq p hp) w).1),
    weigh_eq_zero _ (fun p hp => (sleeper_weights (hq p hp) w).2.1),
    weigh_eq_zero _ (fun p hp => (sleeper_weights (hq p hp) w).2.2.1)⟩

theorem quiescent_asleep (hrun : Steps (BagMachine.Step c) mpmc h s) (hq : Quiescent s)
    {w : Futex} (ha : Asleep w s) : armed s.inner w = true ∧ work s.inner w = false := by
  have ht := torch_run hrun w
  obtain ⟨hw,hr,hy⟩ := quiescent_torch hq w
  have hpos := (asleep_iff w s).mp ha
  have hlit := ht.lit hpos
  have hbusy := ht.busy hpos
  simp only [torch, hw, hr, hy] at hlit hbusy
  simpa using And.intro hlit hbusy

theorem quiescent_ready (hrun : Steps (BagMachine.Step c) mpmc h s) (hq : Quiescent s)
    (hr : s.receivers ≠ 0) : slots (N := 30) s.inner.recv = slots s.inner.send := by
  have hi := slots_run hrun
  refine hi.ready_subset.antisymm (fun i hs => ?_)
  rcases owner_of_taken hi (open_of_receiver (handles_run hrun) hr) hs with hready | ⟨p,hp,hown⟩
  · exact hready
  · obtain ⟨-,-,-,hidle⟩ := sleeper_weights (hq p hp) .send
    simp [reserving,claiming,hidle,Footprint.idle] at hown

/-- No receiver sleeps in a quiescent state that has a ready value. -/
theorem no_receiver_stranded (hrun : Steps (BagMachine.Step c) mpmc h s) :
    ¬ (Quiescent s ∧ Asleep .recv s ∧ (slots (N := 30) s.inner.recv).Nonempty) := by
  rintro ⟨hq,ha,hne⟩
  obtain ⟨-,hwork⟩ := quiescent_asleep hrun hq ha
  simp [work,hne.ne_empty] at hwork

def receiver_asleep : List (Command ℕ) :=
  [Command.call_recv 0 true]++List.replicate 35 (Command.act 0)

theorem no_receiver_stranded_empty : ∃ (h : List (Event ℕ)) (s : BagMachine.State ℕ),
    Steps (BagMachine.Step .release) mpmc h s ∧ Asleep .recv s ∧
      slots (N := 30) s.inner.recv = ∅ := by
  obtain ⟨h,s,hr,hq,ha⟩ := reaches (c := .release) receiver_asleep
    (fun _ s => Quiescent s ∧ Asleep .recv s) (by decide +kernel)
  refine ⟨h,s,hr,ha,?_⟩
  rw [← Finset.not_nonempty_iff_eq_empty]
  exact fun hne => no_receiver_stranded hr ⟨hq,ha,hne⟩

/-- Senders and receivers are never asleep together with nobody awake. -/
theorem no_joint_sleep (hrun : Steps (BagMachine.Step c) mpmc h s) :
    ¬ (Quiescent s ∧ Asleep .send s ∧ Asleep .recv s) := by
  rintro ⟨hq,hsend,hrecv⟩
  have hr : s.receivers ≠ 0 := by
    obtain ⟨p,hp,hsome⟩ := hrecv
    obtain ⟨q,hw⟩ := Option.isSome_iff_exists.mp hsome
    rcases woken_cases hw with ⟨_,_,_,_,h0,-⟩ | ⟨_,_,x,-,rfl,-⟩
    · cases h0
    · intro h0
      have := (handles_run hrun).receiver _ hp x rfl
      simp [h0] at this
  have hs := (quiescent_asleep hrun hq hsend).2
  have hv := (quiescent_asleep hrun hq hrecv).2
  rw [work, ← quiescent_ready hrun hq hr] at hs
  simp [work] at hs hv
  exact hs hv

theorem no_joint_sleep_receiver : ∃ (h : List (Event ℕ)) (s : BagMachine.State ℕ),
    Steps (BagMachine.Step .release) mpmc h s ∧ Asleep .recv s ∧ ¬ Asleep .send s := by
  obtain ⟨h,s,hr,hq,ha⟩ := reaches (c := .release) receiver_asleep
    (fun _ s => Quiescent s ∧ Asleep .recv s) (by decide +kernel)
  exact ⟨h,s,hr,ha,fun hs => no_joint_sleep hr ⟨hq,hs,ha⟩⟩

/-- While a receiver is left, a sender sleeps only on a bag with a ready value,
and with `SLEEPING` armed for the receive that takes it. -/
theorem senders_wait_for_receive (hrun : Steps (BagMachine.Step c) mpmc h s) (hq : Quiescent s)
    (hr : s.receivers ≠ 0) (ha : Asleep .send s) :
    sleeping s.inner.send = true ∧ (slots (N := 30) s.inner.recv).Nonempty := by
  obtain ⟨harmed,hwork⟩ := quiescent_asleep hrun hq ha
  refine ⟨harmed,?_⟩
  rw [quiescent_ready hrun hq hr, Finset.nonempty_iff_ne_empty]
  simpa [work] using hwork

/-- Two senders sleep on a full bag. One receive frees all slots and wakes one
of them, which needs a single slot. -/
def one_slot_used : List (Command ℕ) :=
  [Command.clone_sender 0,Command.call_send 0 false (.vec (List.range 30))]++
    List.replicate 33 (Command.act 0)++[Command.call_send 0 true (.value 30)]++
    List.replicate 35 (Command.act 0)++[Command.call_send 1 true (.value 31)]++
    List.replicate 3 (Command.act 1)++[Command.call_recv 0 false]++
    List.replicate 33 (Command.act 2)++[Command.act 0]++List.replicate 5 (Command.act 0)

theorem senders_wait_for_receive_two : ∃ (h : List (Event ℕ)) (s : BagMachine.State ℕ),
    Steps (BagMachine.Step .release) mpmc h s ∧ Asleep .send s ∧
      sleeping s.inner.send = true ∧ (slots (N := 30) s.inner.recv).Nonempty := by
  obtain ⟨h,s,hr,hq,hl,ha⟩ := reaches (c := .release) one_slot_used
    (fun _ s => Quiescent s ∧ s.receivers ≠ 0 ∧ Asleep .send s) (by decide +kernel)
  exact ⟨h,s,hr,ha,senders_wait_for_receive hr hq hl ha⟩

/-- The bag may have free slots all the same. -/
theorem sender_asleep_with_room : ∃ (h : List (Event ℕ)) (s : BagMachine.State ℕ),
    Steps (BagMachine.Step .release) mpmc h s ∧ s.receivers ≠ 0 ∧ Quiescent s ∧
      Asleep .send s ∧ slots (N := 30) s.inner.send ≠ Finset.univ := by
  obtain ⟨h,s,hr,hq⟩ := reaches (c := .release) one_slot_used
    (fun _ s => s.receivers ≠ 0 ∧ Quiescent s ∧ Asleep .send s ∧
      slots (N := 30) s.inner.send ≠ Finset.univ) (by decide +kernel)
  exact ⟨h,s,hr,hq⟩

end Lockness.BagSleep
