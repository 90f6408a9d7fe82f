import Lockness.PoolTorch
import Lockness.BagHandles

/-!
# The two torches of the bag

Senders sleep at `send` and receivers at `recv`, whose status bits have the
opposite polarity. A receiver makes work for senders by emptying the bag, a
sender for receivers by committing. Every step of the channel is a step of
either torch.
-/

set_option autoImplicit false

namespace Lockness.BagTorch
open Lockness.PoolRuns Lockness.PoolFutex Lockness.PoolTorch Lockness.BagMasks
open Lockness.BagMachine Lockness.BagMoves Lockness.BagInversion Lockness.BagHandles

variable {T : Type*}

/-- How many sleepers of a word the wake-up that a call is about to make is sure to
reach: the last drop of a side asks for all of them, and for one at least. -/
def wakes : Futex → Party T → ℕ
  | .recv,.send _ _ _ .wake => 1
  | .send,.recv _ _ _ (.wake _) => 1
  | .recv,.drop_sender .wake => 1
  | .send,.drop_receiver .wake => 1
  | _,_ => 0

def rearming : Futex → Party T → ℕ
  | .send,.send _ _ _ (.rearm _) => 1
  | .recv,.recv _ _ _ .rearm => 1
  | _,_ => 0

def trying : Futex → Party T → ℕ
  | .send,.send _ _ _ (.reserve _ _ _) => 1
  | .recv,.recv _ _ _ .claim => 1
  | _,_ => 0

def armed (m : Inner T) : Futex → Bool
  | .send => sleeping m.send
  | .recv => sleeping (~~~m.recv)

/-- Senders wait for an empty bag, receivers for a ready slot. -/
def work (m : Inner T) : Futex → Bool
  | .send => slots (N := 30) m.send = ∅
  | .recv => slots (N := 30) m.recv ≠ ∅

def closed (m : Inner T) : Futex → Bool
  | .send => dead m.send
  | .recv => dead (~~~m.recv)

def torch (w : Futex) (m : Inner T) (calls : Multiset (Party T)) : Torch where
  asleep := weigh (sleeps (woken w)) calls
  wakes := weigh (wakes w) calls
  woken := weigh (rearming w) calls
  trying := weigh (trying w) calls
  armed := armed m w
  work := work m w
  closed := closed m w

section Moves

variable {m m' : Inner T} {e : Event T} {rest : Multiset (Party T)} {id : ℕ} {b : Bool}

theorem try_send_reserves (x : Sender) {d : SendBuffer T} (hp : 0 < d.contents.length) :
    ∃ items data mask, try_send x d = .reserve items data mask := by
  rcases try_send_spec x d with ⟨h0,-⟩ | ⟨-,data,-,ht⟩
  · rw [h0] at hp
    exact absurd hp (lt_irrefl 0)
  · exact ⟨_,_,_,ht⟩

theorem send_move_send {x : Sender} {d : SendBuffer T} {pc pc' : SendPc T}
    (hok : SendOk b d pc) (hm : SendMove m b x pc m' pc' e) :
    PoolTorch.Move (torch .send m (.send id b x pc ::ₘ rest))
      (torch .send m' (.send id b x pc' ::ₘ rest)) := by
  have hne : (Finset.univ : Finset (Fin 30)) ≠ ∅ := Finset.univ_nonempty.ne_empty
  cases hm with
  | refuse _ hd hne hs hd' hl =>
    apply Move.settle <;>
      simp [torch,sleeps,woken,wakes,rearming,closed,armed,work,hs,hd,hd',hl,hne.ne_empty]
  | full _ hd hs =>
    apply Move.settle <;> cases b <;>
      simp [torch,sleeps,woken,wakes,rearming,closed,armed,work,hs,hne]
  | reserve hd _ hne hs hd' hl =>
    apply Move.settle <;>
      simp [torch,sleeps,woken,wakes,rearming,closed,armed,work,hs,hd,hd',hl,hne.ne_empty]
  | retry | write =>
    apply Move.idle <;>
      simp [torch,sleeps,woken,wakes,rearming,trying,closed,armed,work]
  | commit =>
    apply Move.idle <;> cases sleeping (~~~m.recv) <;>
      simp [torch,sleeps,woken,wakes,rearming,trying,closed,armed,work]
  | spin hs hd hl hcase =>
    obtain ⟨-,rfl,hp⟩ := hok
    obtain ⟨_,_,_,ht⟩ := try_send_reserves x hp
    rw [ht] at hcase
    rcases hcase with ⟨-,rfl⟩ | ⟨-,-,rfl⟩ | ⟨-,-,-,rfl⟩ | ⟨-,rfl⟩ <;> apply Move.idle <;>
      simp [torch,sleeps,woken,wakes,rearming,trying,closed,armed,work,hs,hd]
    all_goals simpa using hl
  | sleep =>
    obtain ⟨-,-,-,hs,hd,hl⟩ := hok
    apply Move.sleep <;>
      simp [torch,sleeps,woken,wakes,closed,armed,work,hs,hd,hl,hne]
    omega
  | miss =>
    apply Move.miss <;>
      simp [torch,sleeps,woken,wakes,rearming,trying,closed,armed,work]
    omega
  | rearm hs hd hl =>
    obtain ⟨-,rfl,hp⟩ := hok
    obtain ⟨_,_,_,ht⟩ := try_send_reserves x hp
    rw [ht]
    apply Move.rearm <;>
      simp [torch,sleeps,woken,wakes,trying,closed,armed,work,hs,hd,hl]
    omega

theorem send_move_recv {x : Sender} {d : SendBuffer T} {pc pc' : SendPc T}
    (hok : SendOk b d pc) (ho : dead (~~~m.recv) = false) (hm : SendMove m b x pc m' pc' e) :
    PoolTorch.Move (torch .recv m (.send id b x pc ::ₘ rest))
      (torch .recv m' (.send id b x pc' ::ₘ rest)) := by
  cases hm with
  | commit ht hs hd hl =>
    simp only [dead_not, Bool.not_eq_false'] at hd ho
    apply Move.signal <;> cases hx : sleeping m.recv <;>
      simp [torch,sleeps,woken,wakes,rearming,trying,closed,armed,hx,hd,ho]
    omega
  | full =>
    apply Move.idle <;> cases b <;>
      simp [torch,sleeps,woken,wakes,rearming,trying,closed,armed,work]
  | spin hs hd hl hcase =>
    obtain ⟨-,rfl,hp⟩ := hok
    obtain ⟨_,_,_,ht⟩ := try_send_reserves x hp
    rw [ht] at hcase
    rcases hcase with ⟨-,rfl⟩ | ⟨-,-,rfl⟩ | ⟨-,-,-,rfl⟩ | ⟨-,rfl⟩ <;> apply Move.idle <;>
      simp [torch,sleeps,woken,wakes,rearming,trying,closed,armed,work]
  | rearm =>
    obtain ⟨-,rfl,hp⟩ := hok
    obtain ⟨_,_,_,ht⟩ := try_send_reserves x hp
    rw [ht]
    apply Move.idle <;> simp [torch,sleeps,woken,wakes,rearming,trying,closed,armed,work]
  | _ =>
    apply Move.idle <;>
      simp [torch,sleeps,woken,wakes,rearming,trying,closed,armed,work]

theorem recv_move_recv {x : ℕ} {pc pc' : RecvPc T} (hok : RecvOk b pc)
    (hm : RecvMove m b pc m' pc' e) : PoolTorch.Move (torch .recv m (.recv id b x pc ::ₘ rest))
      (torch .recv m' (.recv id b x pc' ::ₘ rest)) := by
  cases hm with
  | none hs hcase =>
    rcases hcase with ⟨-,rfl⟩ | ⟨-,rfl⟩ <;> apply Move.settle <;> cases b <;>
      simp [torch,sleeps,woken,wakes,rearming,closed,armed,work,hs]
  | claim _ _ hs hd hl =>
    simp only [dead_not, sleeping_not, Bool.not_inj_iff] at hd hl
    apply Move.settle <;>
      simp [torch,sleeps,woken,wakes,rearming,closed,armed,work,hs,hd,hl]
  | read =>
    apply Move.idle <;>
      simp [torch,sleeps,woken,wakes,rearming,trying,closed,armed,work]
  | release =>
    apply Move.idle <;> cases sleeping m.send <;>
      simp [torch,sleeps,woken,wakes,rearming,trying,closed,armed,work]
  | spin hs hd hl hcase =>
    simp only [dead_not, Bool.not_inj_iff] at hd
    rcases hcase with ⟨-,rfl⟩ | ⟨-,-,rfl⟩ | ⟨-,-,-,rfl⟩ | ⟨-,rfl⟩ <;> apply Move.idle <;>
      simp [torch,sleeps,woken,wakes,rearming,trying,closed,armed,work,hs,hd]
    all_goals simpa using hl
  | sleep =>
    obtain ⟨-,hs,hd,hl⟩ := hok
    apply Move.sleep <;> simp only [torch, closed, armed, work, hd, hl, hs] <;>
      simp [sleeps,woken,wakes]
    omega
  | miss =>
    apply Move.miss <;>
      simp [torch,sleeps,woken,wakes,rearming,trying,closed,armed,work]
    omega
  | rearm hs hd hl =>
    simp only [dead_not, sleeping_not, Bool.not_inj_iff, Bool.not_eq_true'] at hd hl
    apply Move.rearm <;>
      simp [torch,sleeps,woken,wakes,trying,closed,armed,work,hs,hd,hl]
    omega

theorem recv_move_send {x : ℕ} {pc pc' : RecvPc T} (ho : dead m.send = false)
    (hm : RecvMove m b pc m' pc' e) : PoolTorch.Move (torch .send m (.recv id b x pc ::ₘ rest))
      (torch .send m' (.recv id b x pc' ::ₘ rest)) := by
  cases hm with
  | none hs hcase =>
    rcases hcase with ⟨-,rfl⟩ | ⟨-,rfl⟩ <;> apply Move.idle <;> cases b <;>
      simp [torch,sleeps,woken,wakes,rearming,trying,closed,armed,work]
  | release ht hs hd hl =>
    apply Move.signal <;> cases hx : sleeping m.send <;>
      simp [torch,sleeps,woken,wakes,rearming,trying,closed,armed,hx,hd,ho]
    omega
  | spin hs hd hl hcase =>
    rcases hcase with ⟨-,rfl⟩ | ⟨-,-,rfl⟩ | ⟨-,-,-,rfl⟩ | ⟨-,rfl⟩ <;> apply Move.idle <;>
      simp [torch,sleeps,woken,wakes,rearming,trying,closed,armed,work]
  | _ =>
    apply Move.idle <;>
      simp [torch,sleeps,woken,wakes,rearming,trying,closed,armed,work]

theorem drop_move_torch (w : Futex) {p p' : Party T} (hm : DropMove m p m' p' e) :
    PoolTorch.Move (torch w m (p ::ₘ rest)) (torch w m' (p' ::ₘ rest)) := by
  cases hm with
  | sender_raise hs hd hl =>
    simp only [dead_not, sleeping_not, Bool.not_inj_iff] at hd hl
    cases w with
    | send =>
      apply Move.idle <;> cases sleeping (~~~m.recv) <;>
        simp [torch,sleeps,woken,wakes,rearming,trying,closed,armed,work]
    | recv =>
      apply Move.close <;> cases hx : sleeping m.recv <;>
        simp [torch,sleeps,woken,wakes,rearming,trying,armed,work,hs,hl,hx]
      omega
  | receiver_raise hs hd hl =>
    cases w with
    | send =>
      apply Move.close <;> cases hx : sleeping m.send <;>
        simp [torch,sleeps,woken,wakes,rearming,trying,armed,work,hs,hl,hx]
      omega
    | recv =>
      apply Move.idle <;> cases sleeping m.send <;>
        simp [torch,sleeps,woken,wakes,rearming,trying,closed,armed,work]
  | sender_count =>
    cases w <;> apply Move.idle <;> by_cases h1 : 1 < m.num_senders <;>
      simp [torch,sleeps,woken,wakes,rearming,trying,closed,armed,work,h1]
  | receiver_count =>
    cases w <;> apply Move.idle <;> by_cases h1 : 1 < m.num_receivers <;>
      simp [torch,sleeps,woken,wakes,rearming,trying,closed,armed,work,h1]
  | _ =>
    cases w <;> apply Move.idle <;>
      simp [torch,sleeps,woken,wakes,rearming,trying,closed,armed,work]

end Moves

section Waking

variable {m : Inner T} {v w : Futex} {p q : Party T} {rest rest' : Multiset (Party T)} {n : ℕ}

theorem woken_weights (h : woken w p = some q) :
    wakes v q = wakes v p ∧ trying v q = trying v p ∧
    (v = w → sleeps (woken v) p = 1 ∧ sleeps (woken v) q = 0 ∧ rearming v q = rearming v p+1) ∧
    (v ≠ w → sleeps (woken v) q = sleeps (woken v) p ∧ rearming v q = rearming v p) := by
  rcases woken_cases h with ⟨_,_,_,_,rfl,rfl,rfl⟩ | ⟨_,_,_,rfl,rfl,rfl⟩ <;> cases v <;>
    simp [wakes,trying,sleeps,woken,rearming]

theorem waking_weights (h : Waking p w n q) :
    wakes v q = 0 ∧ wakes v p = (if v = w then sure n else 0) ∧
    sleeps (woken v) q = sleeps (woken v) p ∧ rearming v q = rearming v p ∧
    trying v q = trying v p := by
  cases h <;> cases v <;> simp [wakes,trying,sleeps,woken,rearming,sure,u32_MAX]

theorem waking_torch (hp : Waking p w n q) (hw : Wake (woken w) n rest rest') :
    PoolTorch.Move (torch v m (p ::ₘ rest)) (torch v m (q ::ₘ rest')) := by
  obtain ⟨h1,h2,h3,h4,h5⟩ := waking_weights (v := v) hp
  have hwk := hw.weigh_eq (f := wakes v) (fun p q h => (woken_weights h).1)
  have htr := hw.weigh_eq (f := trying v) (fun p q h => (woken_weights h).2.1)
  by_cases hv : v = w
  · subst hv
    have ha : ∀ p q : Party T, woken v p = some q → woken v q = none := fun _ _ => woken_awake
    obtain ⟨k,hk,hsl⟩ := hw.sleepers ha
    have hga := hw.gains (f := rearming v) ha
      (fun p q h => ((woken_weights h).2.2.1 rfl).2.2)
    rw [if_pos rfl] at h2
    have h0 : sleeps (woken v) p = 0 := by cases hp <;> rfl
    apply Move.wake hk <;> simp only [torch, weigh_cons] <;> omega
  · have hsl := hw.weigh_eq (f := sleeps (woken v)) (fun p q h => ((woken_weights h).2.2.2 hv).1)
    have hre := hw.weigh_eq (f := rearming v) (fun p q h => ((woken_weights h).2.2.2 hv).2)
    rw [if_neg hv] at h2
    apply Move.idle <;> simp only [torch, weigh_cons] <;> first | omega | exact id

theorem spurious_torch (h : woken w p = some q) :
    PoolTorch.Move (torch v m (p ::ₘ rest)) (torch v m (q ::ₘ rest)) := by
  obtain ⟨h1,h2,h3,h4⟩ := woken_weights (v := v) h
  by_cases hv : v = w
  · obtain ⟨h5,h6,h7⟩ := h3 hv
    apply Move.spurious <;> simp only [torch, weigh_cons] <;> omega
  · obtain ⟨h5,h6⟩ := h4 hv
    apply Move.idle <;> simp only [torch, weigh_cons] <;> first | omega | exact id

theorem exit_torch {c : Target T} {m' : Inner T} {e : Event T} (hx : Exit c m p m' e) :
    PoolTorch.Move (torch w m (p ::ₘ rest)) (torch w m' rest) := by
  have hfree (m' : Inner T) (hm : m'.send = m.send ∧ m'.recv = m.recv) :
      armed m' w = armed m w ∧ work m' w = work m w ∧ closed m' w = closed m w := by
    simp only [armed, work, closed, hm]
    simp
  obtain ⟨h1,h2,h3⟩ := hfree m' (by
    cases hx with
    | sender_free hd => rw [(drop_inner_spec hd).1]; exact ⟨rfl,rfl⟩
    | receiver_free hd => rw [(drop_inner_spec hd).1]; exact ⟨rfl,rfl⟩
    | _ => exact ⟨rfl,rfl⟩)
  apply Move.idle <;> simp only [torch, weigh_cons, h1, h2, h3] <;> cases hx <;> cases w <;>
    simp [sleeps,woken,wakes,rearming,trying]

end Waking

section Steps

variable {c : Target T} {h : List (Event T)} {s s' : State T} {e : Event T} {w : Futex}

theorem party_torch {m' : Inner T} {calls : Multiset (Party T)} (hk : Handles h s)
    (hstep : PartyStep (program c) s.inner s.calls e m' calls) :
    PoolTorch.Move (torch w s.inner s.calls) (torch w m' calls) := by
  generalize hcalls : s.calls = cs at hstep ⊢
  cases hstep with
  | go hc =>
    rename_i p p' rest
    have hp : p ∈ s.calls := by simp [hcalls]
    have hok := hk.ok p hp
    cases code_moves hok hc with
    | send hm =>
      obtain ⟨-,d,hd⟩ := hok
      cases w with
      | send => exact send_move_send hd hm
      | recv => exact send_move_recv hd (hk.senders_tallied.down (hk.sender_pos hp rfl)).2 hm
    | recv hm =>
      cases w with
      | send => exact recv_move_send (hk.receivers_tallied.down (hk.receiver_pos hp rfl)).2 hm
      | recv => exact recv_move_recv hok hm
    | drop hm => exact drop_move_torch w hm
  | wake hc hw => exact waking_torch (code_wakes hc) hw
  | spurious hp => exact spurious_torch hp
  | exit hc => exact exit_torch (code_exits hc)

theorem step_torch (hk : Handles h s) (hstep : Step c s e s') :
    PoolTorch.Move (torch w s.inner s.calls) (torch w s'.inner s'.calls) := by
  cases hstep with
  | party hp => exact party_torch hk hp
  | @call_send x blocking data _ =>
    rcases try_send_spec x data with ⟨-,ht⟩ | ⟨-,_,-,ht⟩ <;> rw [ht] <;> cases w <;>
      apply Move.idle <;> simp [torch,sleeps,woken,wakes,rearming,trying]
  | clone_sender _ hc =>
    obtain ⟨-,-,rfl⟩ := clone_sender_ok hc
    cases w <;> apply Move.idle <;> simp [torch,armed,work,closed]
  | clone_sender_panic _ hc =>
    obtain ⟨-,rfl⟩ := clone_sender_panics hc
    cases w <;> apply Move.idle <;> simp [torch,armed,work,closed]
  | clone_receiver _ hc =>
    obtain ⟨-,rfl⟩ := clone_receiver_ok hc
    cases w <;> apply Move.idle <;> simp [torch,armed,work,closed]
  | _ =>
    cases w <;> apply Move.idle <;> simp [torch,sleeps,woken,wakes,rearming,trying]

/-- In every reachable state the torch of either word is with somebody. -/
theorem torch_run (hrun : Steps (Step c) mpmc h s) (w : Futex) :
    PoolTorch.Inv (torch w s.inner s.calls) := by
  refine hrun.carries (fun _ s => PoolTorch.Inv (torch w s.inner s.calls)) ?_
    (fun _ _ _ _ hr hi hs => hi.move (step_torch (handles_run hr) hs))
  constructor <;> simp [torch,mpmc]

end Steps

end Lockness.BagTorch
