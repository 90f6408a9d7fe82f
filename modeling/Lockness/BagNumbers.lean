import Lockness.PoolNumbers
import Lockness.BagHandles

/-!
# The numbers of the calls of the bag

A call is known by the number it was given when it began. Numbers are given
out in order, so each belongs to one call, and a call that begins later has a
larger one. Only a call that begins opens anything.
-/

set_option autoImplicit false

namespace Lockness.BagNumbers
open Lockness.PoolRuns Lockness.PoolFutex Lockness.PoolNumbers
open Lockness.BagMachine Lockness.BagMoves Lockness.BagInversion Lockness.BagHandles

variable {T : Type*} {c : Target T} {h k : List (Event T)} {s t : State T} {e : Event T}

def opening : Event T → Option ℕ
  | .sending id _ _ => some id
  | .receiving id _ => some id
  | _ => none

def call : Party T → Option ℕ
  | .send id _ _ _ => some id
  | .recv id _ _ _ => some id
  | _ => none

theorem move_call {m m' : Inner T} {p p' : Party T} (hm : PartyMove m p m' p' e) :
    call p' = call p := by
  cases hm with
  | drop hd => cases hd <;> rfl
  | _ => rfl

theorem move_opening {m m' : Inner T} {p p' : Party T} (hm : PartyMove m p m' p' e) :
    opening e = none := by
  cases hm with
  | send hm => cases hm <;> rfl
  | recv hm => cases hm <;> rfl
  | drop hm => cases hm <;> rfl

theorem waking_call {p q : Party T} {w : Futex} {n : ℕ} (hw : Waking p w n q) :
    call q = call p := by
  cases hw <;> rfl

theorem woken_call {p q : Party T} {w : Futex} (hw : woken w p = some q) : call q = call p := by
  rcases woken_cases hw with ⟨_,_,_,_,-,rfl,rfl⟩ | ⟨_,_,_,-,rfl,rfl⟩ <;> rfl

theorem party_opening {m' : Inner T} {calls : Multiset (Party T)} (hok : ∀ p ∈ s.calls, Ok p)
    (hstep : PartyStep (program c) s.inner s.calls e m' calls) : opening e = none := by
  generalize hcalls : s.calls = cs at hstep
  cases hstep with
  | go hc => exact move_opening (code_moves (hok _ (by simp [hcalls])) hc)
  | exit hc => cases code_exits hc <;> rfl
  | _ => rfl

theorem numbered_step (hk : Handles h s) (hn : Numbered opening call h s.calls s.next)
    (hstep : Step c s e t) : Numbered opening call (h++[e]) t.calls t.next := by
  have hcons {p : Party T} (hp : call p = none) : ∀ q ∈ p ::ₘ s.calls, ∀ id, call q = some id →
      id < s.next := by
    simp only [Multiset.mem_cons, forall_eq_or_imp]
    exact ⟨by simp [hp],hn.calls⟩
  cases hstep with
  | party hp =>
    refine hn.quiet (party_opening hk.ok hp) ?_ le_rfl
    refine party_forall hk.ok (fun _ _ _ hp hm => ?_) (fun _ _ _ _ hp hw => ?_)
      (fun _ _ _ hp hw => ?_) hp hn.calls
    · rwa [move_call hm]
    · rwa [waking_call hw]
    · rwa [woken_call hw]
  | call_send => exact hn.opens rfl rfl
  | call_recv => exact hn.opens rfl rfl
  | clone_sender => exact hn.quiet rfl hn.calls (Nat.le_succ _)
  | clone_sender_panic => exact hn.quiet rfl hn.calls le_rfl
  | clone_receiver => exact hn.quiet rfl hn.calls (Nat.le_succ _)
  | drop_sender => exact hn.quiet rfl (hcons rfl) le_rfl
  | drop_receiver => exact hn.quiet rfl (hcons rfl) le_rfl

theorem numbered_run (hrun : Steps (Step c) mpmc h s) :
    Numbered opening call h s.calls s.next :=
  hrun.carries (fun h (s : State T) => Numbered opening call h s.calls s.next)
    (Numbered.start _ _ _)
    (fun _ _ _ _ hr hn hstep => numbered_step (handles_run hr) hn hstep)

theorem step_opening (hk : Handles h s) (hstep : Step c s e t) :
    s.next ≤ t.next ∧ ∀ id, opening e = some id → id = s.next := by
  cases hstep with
  | party hp => exact ⟨le_rfl,by simp [party_opening hk.ok hp]⟩
  | _ => simp [opening]

theorem late_number (hr : Steps (Step c) mpmc h s) (hrun : Steps (Step c) s k t) :
    s.next ≤ t.next ∧ ∀ id ∈ k.filterMap opening, s.next ≤ id :=
  PoolNumbers.late_number (fun u => u.next)
    (fun _ _ _ _ hk hstep => step_opening (handles_run (hr.trans hk)) hstep) hrun

end Lockness.BagNumbers
