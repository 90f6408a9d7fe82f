import Lockness.PoolTorch
import Lockness.SlotHandles

/-!
# The senders' torch

Senders sleep at `send` until the slot is free. On x86-64 the futex does not
compare the count, so a sender may fall asleep beside a free slot; then the
word is armed, and whoever armed it is about to take the slot.
-/

set_option autoImplicit false

namespace Lockness.SlotTorch
open Lockness.PoolRuns Lockness.PoolFutex Lockness.PoolTorch
open Lockness.SlotWords Lockness.SlotWords.SendStatus
open Lockness.SlotMachine Lockness.SlotMoves Lockness.SlotAttempts Lockness.SlotHandles

variable {c : Target} {T : Type*}

/-- How many senders the wake-up that a call is about to make is sure to reach. -/
def wakes : Party c T → ℕ
  | .recv _ _ (.wake _) => 1
  | .drop_receiver .wake => 1
  | _ => 0

def rearming : Party c T → ℕ
  | .send _ _ _ (.rearm _) => 1
  | _ => 0

def trying : Party c T → ℕ
  | .send _ _ _ (.attempt _) => 1
  | _ => 0

def free (w : SendStatusU c) : Bool := count w = 0 && !dead w

def torch (m : Inner c T) (calls : Multiset (Party c T)) : Torch where
  asleep := weigh (sleeps (woken .send)) calls
  wakes := weigh wakes calls
  woken := weigh rearming calls
  trying := weigh trying calls
  armed := sleeping m.send
  work := free m.send
  closed := dead m.send

/-- Whoever arms the word of a free slot goes on to take it. -/
def Claimed (m : Inner c T) (calls : Multiset (Party c T)) : Prop :=
  sleeping m.send = true → count m.send = 0 → 0 < weigh trying calls

section Moves

variable {m m' : Inner c T} {e : Event T} {rest : Multiset (Party c T)} {id : ℕ} {b : Bool}

theorem send_move_torch {x : ℕ} {d : T} {pc pc' : SendPc c T} (hok : SendOk b d pc)
    (hcalm : ¬ Carries m.send) (hcl : Claimed m (.send id b x pc ::ₘ rest))
    (hm : SendMove m b pc m' pc' e) : PoolTorch.Move (torch m (.send id b x pc ::ₘ rest))
      (torch m' (.send id b x pc' ::ₘ rest)) := by
  cases hm with
  | attempt data =>
    obtain ⟨h0,-,hd,hs⟩ := attempt_spec hcalm
    apply Move.settle <;> simp [torch,sleeps,woken,wakes,rearming,free,h0,hd,hs]
  | spin hc hd hs hcase =>
    rcases hcase with ⟨-,rfl⟩ | ⟨-,-,rfl⟩ | ⟨-,-,-,rfl⟩ | ⟨-,-,rfl⟩ <;> apply Move.idle <;>
      simp [torch,sleeps,woken,wakes,rearming,trying,free,hc,hd]
    all_goals simpa using hs
  | sleep hf =>
    obtain ⟨-,-,-,hd,hs⟩ := hok
    obtain ⟨hd',hs'⟩ := futex_flags hf
    rw [hd] at hd'
    rw [hs] at hs'
    apply Move.sleep
    · simp [torch,sleeps,woken]
      omega
    · simp [torch,wakes]
    · exact hs'
    · intro hwork
      have := hcl hs' (by simpa [torch,free,hd'] using hwork)
      simp only [torch, weigh_cons, trying] at this ⊢
      omega
    · exact hd'
  | miss =>
    apply Move.miss <;> simp [torch,sleeps,woken,wakes,rearming,trying]
    omega
  | rearm =>
    apply Move.rearm <;> simp [torch,sleeps,woken,wakes,trying]
    omega
  | full =>
    apply Move.idle <;> cases b <;> simp [torch,sleeps,woken,wakes,rearming,trying]
  | commit =>
    apply Move.idle <;> cases RecvStatus.sleeping m.recv <;>
      simp [torch,sleeps,woken,wakes,rearming,trying]
  | _ => apply Move.idle <;> simp [torch,sleeps,woken,wakes,rearming,trying]

theorem recv_move_torch {pc pc' : RecvPc T} (ho : dead m.send = false)
    (hm : RecvMove m b pc m' pc' e) : PoolTorch.Move (torch m (.recv id b pc ::ₘ rest))
      (torch m' (.recv id b pc' ::ₘ rest)) := by
  cases hm with
  | release =>
    apply Move.signal <;> cases hx : sleeping m.send <;>
      simp [torch,sleeps,woken,wakes,rearming,trying,hx,ho]
    omega
  | empty i =>
    cases b
    · apply Move.idle <;> simp [torch,sleeps,woken,wakes,rearming,trying]
    · by_cases hi : i < 32 <;> apply Move.idle <;>
        simp [torch,sleeps,woken,wakes,rearming,trying,hi]
  | arm =>
    by_cases hr : m.recv = 0#32 <;> apply Move.idle <;>
      simp [torch,sleeps,woken,wakes,rearming,trying,hr]
  | _ => apply Move.idle <;> simp [torch,sleeps,woken,wakes,rearming,trying]

theorem drop_move_torch {p p' : Party c T} (hm : DropMove m p m' p' e) :
    PoolTorch.Move (torch m (p ::ₘ rest)) (torch m' (p' ::ₘ rest)) := by
  cases hm with
  | receiver_raise =>
    apply Move.close <;> cases hx : sleeping m.send <;>
      simp [torch,sleeps,woken,wakes,rearming,trying,free,hx]
    omega
  | sender_count =>
    by_cases h1 : 1 < m.num_senders <;> apply Move.idle <;>
      simp [torch,sleeps,woken,wakes,rearming,trying,h1]
  | sender_raise =>
    cases hx : RecvStatus.sleeping m.recv <;> apply Move.idle <;>
      simp [torch,sleeps,woken,wakes,rearming,trying]
  | _ => apply Move.idle <;> simp [torch,sleeps,woken,wakes,rearming,trying]

end Moves

section Waking

variable {m m' : Inner c T} {p q : Party c T} {rest rest' : Multiset (Party c T)} {w : Futex}
  {n : ℕ} {e : Event T}

theorem waking_torch (hp : Waking p w n q) (hw : Wake (woken w) n rest rest') :
    PoolTorch.Move (torch m (p ::ₘ rest)) (torch m (q ::ₘ rest')) := by
  have hwk : weigh wakes rest' = weigh wakes rest := hw.weigh_eq (fun p q h => by
    rcases woken_cases h with ⟨_,_,_,_,_,rfl,rfl⟩ | ⟨_,_,_,rfl,rfl⟩ <;> rfl)
  have htr : weigh trying rest' = weigh trying rest := hw.weigh_eq (fun p q h => by
    rcases woken_cases h with ⟨_,_,_,_,_,rfl,rfl⟩ | ⟨_,_,_,rfl,rfl⟩ <;> rfl)
  have ha : ∀ p q : Party c T, woken .send p = some q → woken .send q = none :=
    fun _ _ => woken_awake
  cases w with
  | send =>
    obtain ⟨k,hk,hsl⟩ := hw.sleepers ha
    have hga := hw.gains (f := rearming) ha (fun p q h => by
      rcases woken_cases h with ⟨_,_,_,_,_,rfl,rfl⟩ | ⟨_,_,h0,_⟩
      · rfl
      · cases h0)
    have hp' : wakes p = sure n ∧ wakes q = 0 ∧ sleeps (woken .send) p = 0 ∧
        sleeps (woken .send) q = 0 ∧ rearming p = rearming q ∧ trying p = trying q := by
      cases hp <;> simp [sleeps,woken,wakes,rearming,trying,sure,u32_MAX]
    obtain ⟨h1,h2,h3,h4,h5,h6⟩ := hp'
    apply Move.wake hk <;> simp only [torch, weigh_cons] <;> omega
  | recv =>
    have hsl : weigh (sleeps (woken .send)) rest' = weigh (sleeps (woken .send)) rest :=
      hw.weigh_eq (fun p q h => by
        rcases woken_cases h with ⟨_,_,_,_,h0,_⟩ | ⟨_,_,_,rfl,rfl⟩
        · cases h0
        · rfl)
    have hre : weigh rearming rest' = weigh rearming rest := hw.weigh_eq (fun p q h => by
      rcases woken_cases h with ⟨_,_,_,_,h0,_⟩ | ⟨_,_,_,rfl,rfl⟩
      · cases h0
      · rfl)
    apply Move.idle <;> cases hp <;> simp [torch,sleeps,woken,wakes,rearming,trying] <;> omega

theorem spurious_torch (h : woken w p = some q) :
    PoolTorch.Move (torch m (p ::ₘ rest)) (torch m (q ::ₘ rest)) := by
  rcases woken_cases h with ⟨_,_,_,_,_,rfl,rfl⟩ | ⟨_,_,_,rfl,rfl⟩
  · apply Move.spurious <;> simp [torch,sleeps,woken,wakes,rearming,trying] <;> omega
  · apply Move.idle <;> simp [torch,sleeps,woken,wakes,rearming,trying]

theorem exit_torch (hx : Exit m p m' e) :
    PoolTorch.Move (torch m (p ::ₘ rest)) (torch m' rest) := by
  have hs := (exit_frame hx).1
  apply Move.idle <;> simp only [torch, weigh_cons, hs] <;> cases hx <;>
    simp [sleeps,woken,wakes,rearming,trying]

end Waking

section Steps

variable {s s' : State c T} {e : Event T}

theorem step_torch (hk : Handles s) (ho : OpenOrDead s) (hcl : Claimed s.inner s.calls)
    (hstep : CalmStep s e s') :
    PoolTorch.Move (torch s.inner s.calls) (torch s'.inner s'.calls) := by
  obtain ⟨hstep,hcalm⟩ := hstep
  cases step_moves hstep with
  | move hm =>
    cases hm with
    | send hm =>
      obtain ⟨d,hd⟩ := hk.ok _ (Multiset.mem_cons_self _ _)
      exact send_move_torch hd hcalm hcl hm
    | recv hm => exact recv_move_torch (receive_open hk ho rfl) hm
    | drop hm => exact drop_move_torch hm
  | wake hp hw => exact waking_torch hp hw
  | spurious hw => exact spurious_torch hw
  | exit hx => exact exit_torch hx
  | call_send => apply Move.idle <;> simp [torch,sleeps,woken,wakes,rearming,trying]
  | call_recv => apply Move.idle <;> simp [torch,sleeps,woken,wakes,rearming,trying]
  | clone_sender => apply Move.idle <;> simp [torch]
  | drop_sender => apply Move.idle <;> simp [torch,sleeps,woken,wakes,rearming,trying]
  | drop_receiver => apply Move.idle <;> simp [torch,sleeps,woken,wakes,rearming,trying]

theorem quiet_trying : Quiet (trying : Party c T → ℕ) := by
  constructor
  · intro w p q h
    rcases woken_cases h with ⟨_,_,_,_,_,rfl,rfl⟩ | ⟨_,_,_,rfl,rfl⟩ <;> rfl
  · intro w n p q h
    cases h <;> rfl

theorem claimed_move {m m' : Inner c T} {p p' : Party c T} {rest : Multiset (Party c T)}
    (hcalm : ¬ Carries m.send) (hcl : Claimed m (p ::ₘ rest)) (hm : PartyMove m p m' p' e) :
    Claimed m' (p' ::ₘ rest) := by
  intro hs h0
  rw [weigh_cons]
  have hkeep (hp : trying p = 0) (hs' : sleeping m.send = true) (h0' : count m.send = 0) :
      0 < trying p'+weigh trying rest := by
    have := hcl hs' h0'
    rw [weigh_cons, hp] at this
    omega
  cases hm with
  | send hm =>
    cases hm with
    | attempt => exact absurd h0 (attempt_spec hcalm).1
    | spin hc _ _ hcase =>
      rcases hcase with ⟨-,rfl⟩ | ⟨hne,-⟩ | ⟨hne,-⟩ | ⟨-,hns,-⟩
      · simp [trying]
      · exact absurd h0 hne
      · exact absurd h0 hne
      · exact absurd (hns.symm.trans hs) (by decide)
    | rearm => simp [trying]
    | _ => exact hkeep rfl hs h0
  | recv hm =>
    cases hm with
    | release => simp at hs
    | _ => exact hkeep rfl hs h0
  | drop hm =>
    cases hm with
    | receiver_raise => simp at hs
    | _ => exact hkeep rfl hs h0

theorem claimed_step (hcl : Claimed s.inner s.calls) (hstep : CalmStep s e s') :
    Claimed s'.inner s'.calls := by
  obtain ⟨hstep,hcalm⟩ := hstep
  cases step_moves hstep with
  | move hm => exact claimed_move hcalm hcl hm
  | wake hp hw => exact fun hs h0 => (hcl hs h0).trans_eq (quiet_trying.weigh_wake hp hw).symm
  | spurious hw => exact fun hs h0 => (hcl hs h0).trans_eq (quiet_trying.weigh_spurious hw).symm
  | exit hx =>
    intro hs h0
    rw [(exit_frame hx).1] at hs h0
    have := hcl hs h0
    cases hx <;> simpa [trying] using this
  | clone_sender => exact hcl
  | _ =>
    intro hs h0
    have := hcl hs h0
    simp only [weigh_cons] at this ⊢
    omega

/-- After every calm run the senders' torch is with somebody, and an armed word
of a free slot is about to be taken. -/
theorem torch_run {h : List (Event T)} (hrun : Steps CalmStep mpsc h s) :
    PoolTorch.Inv (torch s.inner s.calls) ∧ Claimed s.inner s.calls := by
  refine hrun.carries (fun _ s => PoolTorch.Inv (torch s.inner s.calls) ∧
    Claimed s.inner s.calls) ⟨?_,?_⟩ (fun _ _ _ _ hr hi hs =>
      ⟨hi.1.move (step_torch (handles_run hr.of_when) (open_run hr) hi.2 hs),
        claimed_step hi.2 hs⟩)
  · constructor <;> simp [torch,mpsc]
  · intro hs
    simp [mpsc] at hs

end Steps
end Lockness.SlotTorch
