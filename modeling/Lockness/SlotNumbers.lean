import Lockness.PoolNumbers
import Lockness.SlotMoves

/-!
# The numbers of the calls of the slot

A call is known by the number it was given when it began, as in the bag.
-/

set_option autoImplicit false

namespace Lockness.SlotNumbers
open Lockness.PoolRuns Lockness.PoolFutex Lockness.PoolNumbers
open Lockness.SlotWords Lockness.SlotMachine Lockness.SlotMoves

variable {c : Target} {T : Type*} {h k : List (Event T)} {s t : State c T} {e : Event T}

def opening : Event T → Option ℕ
  | .sending id _ _ => some id
  | .receiving id _ => some id
  | _ => none

def call : Party c T → Option ℕ
  | .send id _ _ _ => some id
  | .recv id _ _ => some id
  | _ => none

theorem move_call {m m' : Inner c T} {p p' : Party c T} (hm : PartyMove m p m' p' e) :
    call p' = call p ∧ opening e = none := by
  cases hm with
  | send hm =>
    cases hm with
    | attempt => exact ⟨rfl,by split <;> rfl⟩
    | _ => exact ⟨rfl,rfl⟩
  | recv hm => cases hm <;> exact ⟨rfl,rfl⟩
  | drop hm => cases hm <;> exact ⟨rfl,rfl⟩

theorem waking_call {p q : Party c T} {w : Futex} {j : ℕ} (hw : Waking p w j q) :
    call q = call p := by
  cases hw <;> rfl

theorem woken_call {p q : Party c T} {w : Futex} (hw : woken w p = some q) : call q = call p := by
  rcases woken_cases hw with ⟨_,_,_,_,-,rfl,rfl⟩ | ⟨_,_,-,rfl,rfl⟩ <;> rfl

theorem numbered_step (hn : Numbered opening call h s.calls s.next) (hstep : Step s e t) :
    Numbered opening call (h++[e]) t.calls t.next := by
  have hcalls := hn.calls
  cases step_moves hstep with
  | move hm =>
    obtain ⟨hc,he⟩ := move_call hm
    refine hn.quiet he ?_ le_rfl
    simpa only [Multiset.mem_cons, forall_eq_or_imp, hc] using hcalls
  | wake hp hw =>
    refine hn.quiet rfl ?_ le_rfl
    simp only [Multiset.mem_cons, forall_eq_or_imp, waking_call hp] at hcalls ⊢
    exact ⟨hcalls.1,hw.forall_mem (fun _ _ hq hid => by rwa [woken_call hq]) hcalls.2⟩
  | spurious hw =>
    refine hn.quiet rfl ?_ le_rfl
    simpa only [Multiset.mem_cons, forall_eq_or_imp, woken_call hw] using hcalls
  | exit hx =>
    refine hn.quiet (by cases hx <;> rfl) (fun p hp => hcalls p (Multiset.mem_cons_of_mem hp))
      le_rfl
  | call_send => exact hn.opens rfl rfl
  | call_recv => exact hn.opens rfl rfl
  | clone_sender => exact hn.quiet rfl hcalls (Nat.le_succ _)
  | drop_sender => exact hn.quiet rfl (by simpa [call] using hcalls) le_rfl
  | drop_receiver => exact hn.quiet rfl (by simpa [call] using hcalls) le_rfl

theorem numbered_run (hrun : Steps Step mpsc h s) : Numbered opening call h s.calls s.next :=
  hrun.carries (fun h (s : State c T) => Numbered opening call h s.calls s.next)
    (Numbered.start _ _ _) (fun _ _ _ _ _ hn hstep => numbered_step hn hstep)

theorem step_opening (hstep : Step s e t) :
    s.next ≤ t.next ∧ ∀ id, opening e = some id → id = s.next := by
  cases step_moves hstep with
  | move hm => simp [(move_call hm).2]
  | exit hx => cases hx <;> simp [opening]
  | _ => simp [opening]

theorem late_number (hrun : Steps Step s k t) :
    s.next ≤ t.next ∧ ∀ id ∈ k.filterMap opening, s.next ≤ id :=
  PoolNumbers.late_number (fun u => u.next) (fun _ _ _ _ _ hstep => step_opening hstep) hrun

end Lockness.SlotNumbers
