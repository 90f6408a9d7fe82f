import Lockness.BagNumbers
import Lockness.BagDisconnect

/-!
# Disconnection of the bag is final and loses nothing

Commits and releases write over the flags, but their calls borrow handles that
keep the flags down. Once a receiver has seen the end, the bag is empty and
stays so; once the receivers are gone, a later send is refused with its buffer.
A later call is one whose number was given out afterwards.
-/

set_option autoImplicit false

namespace Lockness.BagFinality
open Lockness.PoolRuns Lockness.PoolFutex Lockness.PoolSlots Lockness.BagMasks
open Lockness.BagMachine Lockness.BagMoves Lockness.BagInversion Lockness.BagHandles
open Lockness.BagBoard Lockness.BagNumbers Lockness.BagDisconnect Lockness.BagSchedule

variable {T : Type*}

def at_end : RecvResult T → Bool
  | .disconnected => true
  | .recv_error => true
  | _ => false

/-- No sender is left and nothing is ready. -/
structure Over (m : Inner T) : Prop where
  flag : dead (~~~m.recv) = true
  empty : slots (N := 30) m.recv = ∅

/-- What a late receive and a late send return. -/
def ended (blocking : Bool) : RecvResult T := if blocking then .recv_error else .disconnected

def refused (blocking : Bool) (d : SendBuffer T) : SendResult T :=
  if blocking then .send_error d else .disconnected d

section Flags

variable {c : Target T} {h : List (Event T)} {s s' : BagMachine.State T} {e : Event T}

/-- The flags are up exactly from their raising steps on. -/
theorem flags_run (hrun : Steps (BagMachine.Step c) mpmc h s) :
    dead (~~~s.inner.recv) = h.any (raises .recv) ∧ dead s.inner.send = h.any (raises .send) := by
  refine hrun.carries (fun h s => dead (~~~s.inner.recv) = h.any (raises .recv) ∧
    dead s.inner.send = h.any (raises .send)) (by simp [mpmc]) ?_
  rintro h s e s' hr ⟨h1,h2⟩ hstep
  obtain ⟨h3,h4⟩ := step_dead (handles_run hr) hstep
  simp only [List.any_append, List.any_cons, List.any_nil, Bool.or_false]
  exact ⟨h1 ▸ h3,h2 ▸ h4⟩

theorem Over.no_sender (hk : Handles h s) (ho : Over s.inner) {p : Party T} (hp : p ∈ s.calls)
    {x : Sender} : p.sender ≠ some x := by
  intro hx
  have := hk.sender_pos hp hx
  have := (hk.senders_tallied.raised ho.flag).1
  simp only [senders_tally] at this
  omega

theorem over_move (hk : Handles h s) {p p' : Party T} {m' : Inner T} (hp : p ∈ s.calls)
    (ho : Over s.inner) (hm : PartyMove s.inner p m' p' e) : slots (N := 30) m'.recv = ∅ := by
  cases hm with
  | send hm => exact absurd rfl (Over.no_sender hk ho hp)
  | recv hm =>
    cases hm with
    | claim hne => exact absurd ho.empty hne.ne_empty
    | spin hs => exact hs.trans ho.empty
    | rearm hs => exact hs.trans ho.empty
    | _ => exact ho.empty
  | drop hm =>
    cases hm with
    | sender_raise hs => exact hs.trans ho.empty
    | _ => exact ho.empty

theorem over_step (hk : Handles h s) (ho : Over s.inner) (hstep : BagMachine.Step c s e s') :
    Over s'.inner := by
  refine ⟨by rw [(step_dead hk hstep).1, ho.flag, Bool.true_or],?_⟩
  cases hstep with
  | party hp =>
    generalize hcalls : s.calls = cs at hp
    cases hp with
    | go hc =>
      rename_i p p' rest
      have hp : p ∈ s.calls := by simp [hcalls]
      exact over_move hk hp ho (code_moves (hk.ok p hp) hc)
    | wake => exact ho.empty
    | spurious => exact ho.empty
    | exit hc => exact (exit_raises (code_exits hc)).2.1 ▸ ho.empty
  | clone_sender _ hc =>
    obtain ⟨-,-,rfl⟩ := clone_sender_ok hc
    exact ho.empty
  | clone_sender_panic _ hc =>
    obtain ⟨-,rfl⟩ := clone_sender_panics hc
    exact ho.empty
  | clone_receiver _ hc =>
    obtain ⟨-,rfl⟩ := clone_receiver_ok hc
    exact ho.empty
  | _ => exact ho.empty

theorem Over.run (hr : Steps (BagMachine.Step c) mpmc h s) {k : List (Event T)}
    (ho : Over s.inner) (hrun : Steps (BagMachine.Step c) s k s') : Over s'.inner :=
  hrun.carries (fun _ s => Over s.inner) ho
    (fun _ _ _ _ hk hi hstep => over_step (handles_run (hr.trans hk)) hi hstep)

def Reports (p : Party T) : Prop :=
  ∃ id b x r, p = .recv id b x (.done r) ∧ at_end r = true

theorem recv_move_reports {m m' : Inner T} {b : Bool} {pc pc' : RecvPc T} {r : RecvResult T}
    (hm : RecvMove m b pc m' pc' e) (hpc : pc' = .done r) (hr : at_end r = true) : Over m' := by
  cases hm with
  | none hs hcase =>
    rcases hcase with ⟨hd,-⟩ | ⟨-,rfl⟩
    · exact ⟨hd,hs⟩
    · cases b <;> cases hpc
      cases hr
  | release =>
    split at hpc <;> cases hpc
    cases hr
  | spin hs hd _ hcase =>
    rcases hcase with ⟨-,rfl⟩ | ⟨hs',hd',-⟩ | ⟨-,-,-,rfl⟩ | ⟨-,rfl⟩
    · cases hpc
    · exact ⟨hd',hs'⟩
    · cases hpc
    · cases hpc
  | _ => cases hpc

theorem move_reports {m m' : Inner T} {p p' : Party T} (hm : PartyMove m p m' p' e)
    (hp' : Reports p') : Over m' := by
  obtain ⟨id,b,x,r,rfl,hr⟩ := hp'
  cases hm with
  | recv hm => exact recv_move_reports hm rfl hr
  | drop hm => cases hm

theorem waking_reports {p q : Party T} {w : Futex} {n : ℕ} (hw : Waking p w n q) : ¬ Reports q := by
  rintro ⟨id,b,x,r,rfl,hr⟩
  cases hw
  cases hr

theorem woken_reports {p q : Party T} {w : Futex} (hw : woken w p = some q) : ¬ Reports q := by
  rintro ⟨id,b,x,r,rfl,hr⟩
  rcases woken_cases hw with ⟨_,_,_,_,-,-,h0⟩ | ⟨_,_,_,-,-,h0⟩ <;> cases h0

def Seen (h : List (Event T)) (s : BagMachine.State T) : Prop :=
  (∃ id r, .received id r ∈ h ∧ at_end r = true) ∨ ∃ p ∈ s.calls, Reports p

theorem returned_done {m' : Inner T} {calls : Multiset (Party T)} (hok : ∀ p ∈ s.calls, Ok p)
    (hstep : PartyStep (program c) s.inner s.calls e m' calls) :
    (∀ id r, e = .received id r → ∃ b x, .recv id b x (.done r) ∈ s.calls) ∧
    (∀ id r, e = .sent id r → ∃ b x, .send id b x (.done r) ∈ s.calls) := by
  generalize hcalls : s.calls = cs at hstep
  cases hstep with
  | go hc =>
    cases code_moves (hok _ (by simp [hcalls])) hc with
    | send hm => cases hm <;> simp
    | recv hm => cases hm <;> simp
    | drop hm => cases hm <;> simp
  | wake => simp [program]
  | spurious => simp [program]
  | exit hc =>
    cases code_exits hc with
    | send id b x r =>
      refine ⟨by simp,fun id' r' he => ?_⟩
      cases he
      exact ⟨b,x,Multiset.mem_cons_self _ _⟩
    | recv id b x r =>
      refine ⟨fun id' r' he => ?_,by simp⟩
      cases he
      exact ⟨b,x,Multiset.mem_cons_self _ _⟩
    | _ => simp

theorem seen_step (hk : Handles h s) (hn : ¬ Seen h s) (hstep : BagMachine.Step c s e s')
    (hs : Seen (h++[e]) s') : Over s'.inner := by
  have hold : ∀ p ∈ s.calls, ¬ Reports p := fun p hp hr => hn (.inr ⟨p,hp,hr⟩)
  have hlast {id : ℕ} {r : RecvResult T} (hmem : .received id r ∈ h++[e]) (hr : at_end r = true) :
      e = .received id r := by
    rcases List.mem_append.mp hmem with hmem | hmem
    · exact absurd (.inl ⟨id,r,hmem,hr⟩) hn
    · exact (List.mem_singleton.mp hmem).symm
  have hcons {p : Party T} (hp : ¬ Reports p) : ¬ ∃ q ∈ p ::ₘ s.calls, Reports q := by
    simp only [Multiset.mem_cons, exists_eq_or_imp, not_or]
    exact ⟨hp,fun ⟨q,hq,hr⟩ => hold q hq hr⟩
  have hfresh {p : Party T} (hp : ∀ id b x pc, p ≠ .recv id b x (.done pc)) : ¬ Reports p := by
    rintro ⟨id,b,x,r,rfl,-⟩
    exact hp id b x r rfl
  rcases hs with ⟨id,r,hmem,hr⟩ | hq
  · cases hlast hmem hr
    cases hstep with
    | party hp =>
      obtain ⟨b,x,hp⟩ := (returned_done hk.ok hp).1 id r rfl
      exact absurd ⟨_,_,_,_,rfl,hr⟩ (hold _ hp)
  · cases hstep with
    | @party _ m' calls hp =>
      obtain ⟨q,hq,hr⟩ := hq
      exact party_forall (Q := fun p => Reports p → Over m') hk.ok
        (fun _ _ _ _ hm => move_reports hm) (fun _ _ _ _ _ hw hr => absurd hr (waking_reports hw))
        (fun _ _ _ _ hw hr => absurd hr (woken_reports hw)) hp
        (fun p hp hr => absurd hr (hold p hp)) q hq hr
    | call_send => exact absurd hq (hcons (hfresh (by simp)))
    | call_recv => exact absurd hq (hcons (hfresh (by simp)))
    | drop_sender => exact absurd hq (hcons (hfresh (by simp)))
    | drop_receiver => exact absurd hq (hcons (hfresh (by simp)))
    | _ => exact absurd hq (fun ⟨q,hq,hr⟩ => hold q hq hr)

theorem seen_run (hrun : Steps (BagMachine.Step c) mpmc h s) : Seen h s → Over s.inner := by
  refine hrun.carries (fun h s => Seen h s → Over s.inner) ?_ ?_
  · rintro (⟨_,_,h0,-⟩ | ⟨_,h0,-⟩)
    · cases h0
    · simp [mpmc] at h0
  · intro h s e s' hr hi hstep hn
    have hk := handles_run hr
    by_cases hs : Seen h s
    · exact over_step hk (hi hs) hstep
    · exact seen_step hk hs hstep hn

theorem over_claimed (hrun : Steps (BagMachine.Step c) mpmc h s) (ho : Over s.inner) :
    total committed h = total claimed h := by
  have := (slots_run hrun).handed
  simp only [view, ledger, board, ho.empty] at this
  simpa using this

end Flags

section Late

variable {c : Target T} {h k : List (Event T)} {s t : BagMachine.State T} {e : Event T} {n : ℕ}
  {m m' : Inner T} {p p' : Party T}

/-- How far a receive has come that began on an ended channel. -/
def LateRecv (n : ℕ) (k : List (Event T)) : Party T → Prop
  | .recv id b _ pc => n ≤ id → .receiving id b ∈ k ∧ (pc = .claim ∨ pc = .done (ended b))
  | _ => True

/-- How far a send of something has come that began without receivers. -/
def LateSend (n : ℕ) (k : List (Event T)) : Party T → Prop
  | .send id b _ pc => n ≤ id → ∃ d, .sending id b d ∈ k ∧ (d.contents ≠ [] →
      (∃ items data mask, pc = .reserve items data mask ∧ data.remit = some d) ∨
        pc = .done (refused b d))
  | _ => True

theorem late_recv_move (ho : Over m) (hm : PartyMove m p m' p' e) (hl : LateRecv n k p) :
    LateRecv n k p' := by
  cases hm with
  | send => trivial
  | drop hd => cases hd <;> trivial
  | recv hm =>
    intro hle
    obtain ⟨hmem,rfl | rfl⟩ := hl hle
    · refine ⟨hmem,.inr ?_⟩
      cases hm with
      | none _ hcase =>
        rcases hcase with ⟨-,rfl⟩ | ⟨hd,-⟩
        · rfl
        · exact absurd (ho.flag.symm.trans hd) (by decide)
      | claim hne => exact absurd ho.empty hne.ne_empty
    · cases hm

theorem late_send_move (hd : dead m.send = true) (hm : PartyMove m p m' p' e)
    (hl : LateSend n k p) : LateSend n k p' := by
  cases hm with
  | recv => trivial
  | drop hd => cases hd <;> trivial
  | send hm =>
    intro hle
    obtain ⟨d,hmem,hpc⟩ := hl hle
    refine ⟨d,hmem,fun hne => .inr ?_⟩
    rcases hpc hne with ⟨items,data,mask,rfl,hrem⟩ | rfl
    · cases hm with
      | refuse hr =>
        rw [hrem, Option.some.injEq] at hr
        rw [hr]
        rfl
      | full _ h0 => exact absurd (hd.symm.trans h0) (by decide)
      | reserve h0 => exact absurd (hd.symm.trans h0) (by decide)
      | retry h0 => exact absurd (hd.symm.trans h0) (by decide)
    · cases hm

theorem late_recv_waking {w : Futex} {j : ℕ} (hl : LateRecv n k p) (hw : Waking p w j p') :
    LateRecv n k p' := by
  cases hw with
  | recv id b x values =>
    intro hle
    rcases (hl hle).2 with h0 | h0 <;> cases h0
  | _ => trivial

theorem late_send_waking {w : Futex} {j : ℕ} (hl : LateSend n k p) (hw : Waking p w j p') :
    LateSend n k p' := by
  cases hw with
  | send id b x =>
    intro hle
    obtain ⟨d,hmem,hpc⟩ := hl hle
    refine ⟨d,hmem,fun hne => ?_⟩
    rcases hpc hne with ⟨_,_,_,h0,-⟩ | h0 <;> cases h0
  | _ => trivial

theorem late_recv_woken {w : Futex} (hl : LateRecv n k p) (hw : woken w p = some p') :
    LateRecv n k p' := by
  rcases woken_cases hw with ⟨_,_,_,_,-,-,rfl⟩ | ⟨_,_,_,-,rfl,rfl⟩
  · trivial
  · intro hle
    rcases (hl hle).2 with h0 | h0 <;> cases h0

theorem late_send_woken {w : Futex} (hl : LateSend n k p) (hw : woken w p = some p') :
    LateSend n k p' := by
  rcases woken_cases hw with ⟨_,_,_,_,-,rfl,rfl⟩ | ⟨_,_,_,-,-,rfl⟩
  · intro hle
    obtain ⟨d,hmem,hpc⟩ := hl hle
    refine ⟨d,hmem,fun hne => ?_⟩
    rcases hpc hne with ⟨_,_,_,h0,-⟩ | h0 <;> cases h0
  · trivial

theorem LateRecv.mono (hl : LateRecv n k p) : LateRecv n (k++[e]) p := by
  cases p with
  | recv => exact fun hle => (hl hle).imp_left (List.mem_append_left _)
  | _ => trivial

theorem LateSend.mono (hl : LateSend n k p) : LateSend n (k++[e]) p := by
  cases p with
  | send => exact fun hle => (hl hle).imp (fun d hd => hd.imp_left (List.mem_append_left _))
  | _ => trivial

/-- The calls and results of late receives. -/
structure LateRecvs (n : ℕ) (k : List (Event T)) (s : BagMachine.State T) : Prop where
  calls : ∀ p ∈ s.calls, LateRecv n k p
  results : ∀ id r, .received id r ∈ k → n ≤ id → ∃ b, .receiving id b ∈ k ∧ r = ended b

structure LateSends (n : ℕ) (k : List (Event T)) (s : BagMachine.State T) : Prop where
  calls : ∀ p ∈ s.calls, LateSend n k p
  results : ∀ id r, .sent id r ∈ k → n ≤ id → ∃ b d, .sending id b d ∈ k ∧
    (d.contents ≠ [] → r = refused b d)

theorem late_recvs_step (hk : Handles h s) (ho : Over s.inner) (hl : LateRecvs n k s)
    (hstep : BagMachine.Step c s e t) : LateRecvs n (k++[e]) t := by
  have hold : ∀ p ∈ s.calls, LateRecv n (k++[e]) p := fun p hp => (hl.calls p hp).mono
  have hcons {q : Party T} (hq : LateRecv n (k++[e]) q) : ∀ p ∈ q ::ₘ s.calls,
      LateRecv n (k++[e]) p := by
    simp only [Multiset.mem_cons, forall_eq_or_imp]
    exact ⟨hq,hold⟩
  have hres (he : ∀ id r, e = .received id r → n ≤ id → ∃ b, .receiving id b ∈ k ∧ r = ended b) :
      ∀ id r, .received id r ∈ k++[e] → n ≤ id → ∃ b, .receiving id b ∈ k++[e] ∧ r = ended b := by
    intro id r hmem hle
    have : ∃ b, .receiving id b ∈ k ∧ r = ended b := by
      rcases List.mem_append.mp hmem with hmem | hmem
      · exact hl.results id r hmem hle
      · exact he id r (List.mem_singleton.mp hmem).symm hle
    exact this.imp (fun b hb => hb.imp_left (List.mem_append_left _))
  cases hstep with
  | party hp =>
    refine ⟨party_forall hk.ok (fun _ _ _ hq hm => ?_) (fun _ _ _ _ hq hw => ?_)
      (fun _ _ _ hq hw => ?_) hp hold,hres (fun id r he hle => ?_)⟩
    · exact late_recv_move ho hm hq
    · exact late_recv_waking hq hw
    · exact late_recv_woken hq hw
    · obtain ⟨b,x,hmem⟩ := (returned_done hk.ok hp).1 id r he
      obtain ⟨hb,hpc | hpc⟩ := hl.calls _ hmem hle
      · cases hpc
      · cases hpc
        exact ⟨b,hb,rfl⟩
  | call_send => exact ⟨hcons trivial,hres (by simp)⟩
  | call_recv blocking =>
    exact ⟨hcons (fun _ => ⟨by simp,.inl rfl⟩),hres (by simp)⟩
  | drop_sender => exact ⟨hcons trivial,hres (by simp)⟩
  | drop_receiver => exact ⟨hcons trivial,hres (by simp)⟩
  | _ => exact ⟨hold,hres (by simp)⟩

theorem late_sends_step (hk : Handles h s) (hd : dead s.inner.send = true) (hl : LateSends n k s)
    (hstep : BagMachine.Step c s e t) : LateSends n (k++[e]) t := by
  have hold : ∀ p ∈ s.calls, LateSend n (k++[e]) p := fun p hp => (hl.calls p hp).mono
  have hcons {q : Party T} (hq : LateSend n (k++[e]) q) : ∀ p ∈ q ::ₘ s.calls,
      LateSend n (k++[e]) p := by
    simp only [Multiset.mem_cons, forall_eq_or_imp]
    exact ⟨hq,hold⟩
  have hres (he : ∀ id r, e = .sent id r → n ≤ id → ∃ b d, .sending id b d ∈ k ∧
      (d.contents ≠ [] → r = refused b d)) : ∀ id r, .sent id r ∈ k++[e] → n ≤ id →
      ∃ b d, .sending id b d ∈ k++[e] ∧ (d.contents ≠ [] → r = refused b d) := by
    intro id r hmem hle
    have : ∃ b d, .sending id b d ∈ k ∧ (d.contents ≠ [] → r = refused b d) := by
      rcases List.mem_append.mp hmem with hmem | hmem
      · exact hl.results id r hmem hle
      · exact he id r (List.mem_singleton.mp hmem).symm hle
    exact this.imp (fun b => Exists.imp (fun d hb => hb.imp_left (List.mem_append_left _)))
  cases hstep with
  | party hp =>
    refine ⟨party_forall hk.ok (fun _ _ _ hq hm => ?_) (fun _ _ _ _ hq hw => ?_)
      (fun _ _ _ hq hw => ?_) hp hold,hres (fun id r he hle => ?_)⟩
    · exact late_send_move hd hm hq
    · exact late_send_waking hq hw
    · exact late_send_woken hq hw
    · obtain ⟨b,x,hmem⟩ := (returned_done hk.ok hp).2 id r he
      obtain ⟨d,hd,hpc⟩ := hl.calls _ hmem hle
      refine ⟨b,d,hd,fun hne => ?_⟩
      rcases hpc hne with ⟨_,_,_,h0,-⟩ | h0 <;> cases h0
      rfl
  | @call_send x blocking data =>
    refine ⟨hcons (fun _ => ⟨data,by simp,fun hne => .inl ?_⟩),hres (by simp)⟩
    rcases try_send_spec x data with ⟨h0,-⟩ | ⟨-,cont,hw,ht⟩
    · exact absurd h0 hne
    · exact ⟨_,_,_,ht,hw.1⟩
  | call_recv => exact ⟨hcons trivial,hres (by simp)⟩
  | drop_sender => exact ⟨hcons trivial,hres (by simp)⟩
  | drop_receiver => exact ⟨hcons trivial,hres (by simp)⟩
  | _ => exact ⟨hold,hres (by simp)⟩

theorem late_recvs_run (hr : Steps (BagMachine.Step c) mpmc h t) (ho : Over t.inner)
    (hrun : Steps (BagMachine.Step c) t k s) : LateRecvs t.next k s := by
  refine hrun.carries (fun k s => LateRecvs t.next k s) ⟨?_,by simp⟩ ?_
  · intro p hp
    cases p with
    | recv id b x pc =>
      intro hle
      have := (numbered_run hr).calls _ hp id rfl
      omega
    | _ => trivial
  · exact fun k u e v hk hl hstep =>
      late_recvs_step (handles_run (hr.trans hk)) (ho.run hr hk) hl hstep

theorem closed_run (hr : Steps (BagMachine.Step c) mpmc h t) (hd : dead t.inner.send = true)
    (hrun : Steps (BagMachine.Step c) t k s) : dead s.inner.send = true := by
  have h1 := (flags_run hr).2
  have h2 := (flags_run (hr.trans hrun)).2
  rw [List.any_append, ← h1, hd] at h2
  simpa using h2

theorem late_sends_run (hr : Steps (BagMachine.Step c) mpmc h t) (hd : dead t.inner.send = true)
    (hrun : Steps (BagMachine.Step c) t k s) : LateSends t.next k s := by
  refine hrun.carries (fun k s => LateSends t.next k s) ⟨?_,by simp⟩ ?_
  · intro p hp
    cases p with
    | send id b x pc =>
      intro hle
      have := (numbered_run hr).calls _ hp id rfl
      omega
    | _ => trivial
  · exact fun k u e v hk hl hstep =>
      late_sends_step (handles_run (hr.trans hk)) (closed_run hr hd hk) hl hstep

theorem claim_over (ho : Over m) (b : Bool) (goto : RecvPc T → Party T) :
    ∃ m', try_recv_claim b m goto = .go m' (goto (.done (ended b))) .tau := by
  have h0 : m.recv &&& ~~~Status.all = 0 := by
    rw [(bare_and_not_all m.recv).eq_zero_iff]
    simp [ho.empty]
  have hd := ho.flag
  exact ⟨_,by simp only [try_recv_claim, h0, hd, if_true]; rfl⟩

theorem reserve_closed (hd : dead m.send = true) {data : Container T} {d : SendBuffer T}
    (hr : data.remit = some d) (b : Bool) (x : Sender) (items : ℕ) (mask : Word)
    (goto : SendPc T → Party T) : ∃ m', try_send_reserve b x items data mask m goto =
      .go m' (goto (.done (refused b d))) .tau :=
  ⟨_,by simp only [try_send_reserve, hd, hr, if_true]; rfl⟩

/-- What a call does that has not returned: it is done with `r`, or its next
step makes it so. -/
def Ends (c : Target T) (m : Inner T) (p q : Party T) : Prop :=
  p = q ∨ ∃ m', code c m p = .go m' q .tau

theorem late_receive (hr : Steps (BagMachine.Step c) mpmc h t) (ho : Over t.inner)
    (hk : Steps (BagMachine.Step c) t k s) {id : ℕ} {b : Bool} (hb : .receiving id b ∈ k) :
    (∀ r, .received id r ∈ k → r = ended b) ∧ ∀ b' x pc, .recv id b' x pc ∈ s.calls →
      Ends c s.inner (.recv id b' x pc) (.recv id b' x (.done (ended b))) := by
  have hle := (late_number hr hk).2 id (List.mem_filterMap.mpr ⟨_,hb,rfl⟩)
  have hl := late_recvs_run hr ho hk
  have hsame {b' : Bool} (hb' : .receiving id b' ∈ k) : b' = b := by
    have := (numbered_run (hr.trans hk)).unique (List.mem_append_right _ hb)
      (List.mem_append_right _ hb') rfl rfl
    cases this
    rfl
  constructor
  · intro r hres
    obtain ⟨b',hb',rfl⟩ := hl.results id r hres hle
    rw [hsame hb']
  · intro b' x pc hp
    obtain ⟨hb',rfl | rfl⟩ := hl.calls _ hp hle
    · rw [hsame hb']
      exact .inr (claim_over (ho.run hr hk) b _)
    · rw [hsame hb']
      exact .inl rfl

theorem late_send (hr : Steps (BagMachine.Step c) mpmc h t) (hd : dead t.inner.send = true)
    (hk : Steps (BagMachine.Step c) t k s) {id : ℕ} {b : Bool} {d : SendBuffer T}
    (hb : .sending id b d ∈ k) (hne : d.contents ≠ []) :
    (∀ r, .sent id r ∈ k → r = refused b d) ∧ ∀ b' x pc, .send id b' x pc ∈ s.calls →
      Ends c s.inner (.send id b' x pc) (.send id b' x (.done (refused b d))) := by
  have hle := (late_number hr hk).2 id (List.mem_filterMap.mpr ⟨_,hb,rfl⟩)
  have hl := late_sends_run hr hd hk
  have hsame {b' : Bool} {d' : SendBuffer T} (hb' : .sending id b' d' ∈ k) : b' = b ∧ d' = d := by
    have := (numbered_run (hr.trans hk)).unique (List.mem_append_right _ hb)
      (List.mem_append_right _ hb') rfl rfl
    cases this
    exact ⟨rfl,rfl⟩
  constructor
  · intro r hres
    obtain ⟨b',d',hb',hr'⟩ := hl.results id r hres hle
    obtain ⟨rfl,rfl⟩ := hsame hb'
    exact hr' hne
  · intro b' x pc hp
    obtain ⟨d',hb',hpc⟩ := hl.calls _ hp hle
    obtain ⟨rfl,rfl⟩ := hsame hb'
    rcases hpc hne with ⟨items,data,mask,rfl,hrem⟩ | rfl
    · exact .inr (reserve_closed (closed_run hr hd hk) hrem _ x items mask _)
    · exact .inl rfl

/-- Raised flags stay up. Once the end of the channel has been reported, every
committed value has been claimed and every later receive reports the end. Once
the receivers are gone, every later send of something is refused with its
buffer. -/
theorem disconnection_final (hrun : Steps (BagMachine.Step c) mpmc (h++k) s) :
    (.sender_dead ∈ h → dead (~~~s.inner.recv) = true) ∧
    (.receiver_dead ∈ h → dead s.inner.send = true) ∧
    ((∃ id r, .received id r ∈ h ∧ at_end r = true) →
      total committed (h++k) = total claimed (h++k) ∧
      ∀ id b, .receiving id b ∈ k → (∀ r, .received id r ∈ k → r = ended b) ∧
        ∀ b' x pc, .recv id b' x pc ∈ s.calls →
          Ends c s.inner (.recv id b' x pc) (.recv id b' x (.done (ended b)))) ∧
    (.receiver_dead ∈ h → ∀ id b d, .sending id b d ∈ k → d.contents ≠ [] →
      (∀ r, .sent id r ∈ k → r = refused b d) ∧
      ∀ b' x pc, .send id b' x pc ∈ s.calls →
        Ends c s.inner (.send id b' x pc) (.send id b' x (.done (refused b d)))) := by
  obtain ⟨t,hr,hk⟩ := hrun.split
  have hrecv {u : BagMachine.State T} {l : List (Event T)} (hu : Steps (BagMachine.Step c) mpmc l u)
      (hin : .sender_dead ∈ l) : dead (~~~u.inner.recv) = true := by
    rw [(flags_run hu).1, List.any_eq_true]
    exact ⟨_,hin,rfl⟩
  have hsend {u : BagMachine.State T} {l : List (Event T)} (hu : Steps (BagMachine.Step c) mpmc l u)
      (hin : .receiver_dead ∈ l) : dead u.inner.send = true := by
    rw [(flags_run hu).2, List.any_eq_true]
    exact ⟨_,hin,rfl⟩
  refine ⟨fun hin => hrecv hrun (List.mem_append_left _ hin),
    fun hin => hsend hrun (List.mem_append_left _ hin),fun hin => ?_,
    fun hin id b d hb hne => late_send hr (hsend hr hin) hk hb hne⟩
  have ho := seen_run hr (.inl hin)
  exact ⟨over_claimed hrun (ho.run hr hk),fun id b hb => late_receive hr ho hk hb⟩

def two_late_receives : List (Command ℕ) :=
  [Command.drop_sender 0]++List.replicate 3 (Command.act 0)++[Command.call_recv 0 false]++
    List.replicate 2 (Command.act 0)++[Command.call_recv 0 true]++List.replicate 2 (Command.act 0)

theorem disconnection_final_twice : ∃ (h k : List (Event ℕ)) (s : BagMachine.State ℕ),
    Steps (BagMachine.Step .release) mpmc (h++k) s ∧ .received 2 .recv_error ∈ k ∧
      total committed (h++k) = total claimed (h++k) ∧ ∀ r, .received 2 r ∈ k → r = .recv_error := by
  obtain ⟨l,s,hr,hh,hk,he⟩ := reaches (c := .release) two_late_receives
    (fun l _ => .received 1 .disconnected ∈ l.take 7 ∧ .receiving 2 true ∈ l.drop 7 ∧
      .received 2 .recv_error ∈ l.drop 7) (by decide +kernel)
  rw [← List.take_append_drop 7 l] at hr
  obtain ⟨hc,hl⟩ := (disconnection_final hr).2.2.1 ⟨1,_,hh,rfl⟩
  exact ⟨_,_,s,hr,he,hc,(hl 2 true hk).1⟩

end Late

end Lockness.BagFinality
