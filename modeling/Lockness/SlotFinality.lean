import Lockness.SlotDelivery
import Lockness.SlotDisconnect
import Lockness.SlotNumbers

/-!
# Disconnection of the slot is final and loses nothing

The four operations that write over `SENDER_DEAD` or `RECEIVER_DEAD` keep the
flag or belong to calls that borrow the other handle. A receive that begins
under `SENDER_DEAD` does not wait: it takes the committed value or reports the
end, and when it reports the end every committed value has been returned.
-/

set_option autoImplicit false

namespace Lockness.SlotFinality
open Lockness.PoolRuns Lockness.PoolFutex
open Lockness.SlotWords Lockness.SlotWords.SendStatus
open Lockness.SlotMachine Lockness.SlotMoves Lockness.SlotAttempts Lockness.SlotHandles
open Lockness.SlotBoard Lockness.SlotPipeline Lockness.SlotDelivery Lockness.SlotDisconnect
open Lockness.SlotNumbers Lockness.SlotSchedule

variable {c : Target} {T : Type*}

def at_end : RecvResult T → Bool
  | .disconnected => true
  | .recv_error => true
  | _ => false

/-- No sender is left, nothing is committed, and no receive is under way with a value. -/
structure Over (s : State c T) : Prop where
  flag : RecvStatus.dead s.inner.recv = true
  empty : RecvStatus.commit s.inner.recv = false
  idle : ∀ p ∈ s.calls, reading p+returning p = 0

section Flags

variable {h k : List (Event T)} {s s' t : State c T} {e : Event T}

theorem sender_dead_step (hk : Handles s) (hstep : Step s e s') :
    (e = .sender_dead → RecvStatus.dead s'.inner.recv = true) ∧
    (RecvStatus.dead s.inner.recv = true → RecvStatus.dead s'.inner.recv = true) := by
  cases step_moves hstep with
  | move hm =>
    cases hm with
    | @send _ _ x _ _ _ _ hm =>
      have hd := (hk.senders_tallied.down (sender_held hk rfl)).2
      refine ⟨?_,fun h1 => absurd (h1.symm.trans hd) (by decide)⟩
      cases hm with
      | attempt => split <;> simp
      | _ => simp
    | recv hm =>
      rw [(recv_move_frame hm).2.2.2.1]
      cases hm <;> simp
    | drop hm => cases hm <;> simp
  | exit hx =>
    rw [(exit_frame hx).2.1]
    cases hx <;> simp
  | _ => simp

theorem sender_dead_run (hr : Steps Step mpsc h s) (hin : .sender_dead ∈ h) :
    RecvStatus.dead s.inner.recv = true := by
  revert hin
  refine hr.carries (fun h s => .sender_dead ∈ h → RecvStatus.dead s.inner.recv = true)
    (by simp) ?_
  intro h s e s' hr hi hstep hin
  obtain ⟨h1,h2⟩ := sender_dead_step (handles_run hr) hstep
  rcases List.mem_append.mp hin with hin | hin
  · exact h2 (hi hin)
  · exact h1 (List.mem_singleton.mp hin).symm

theorem sender_dead_kept (hr : Steps Step mpsc h t) (hk : Steps Step t k s)
    (hd : RecvStatus.dead t.inner.recv = true) : RecvStatus.dead s.inner.recv = true :=
  hk.carries (fun _ s => RecvStatus.dead s.inner.recv = true) hd
    (fun _ _ _ _ hk hd hstep => (sender_dead_step (handles_run (hr.trans hk)) hstep).2 hd)

theorem receiver_dead_kept (hr : Steps CalmStep mpsc h t) (hk : Steps CalmStep t k s)
    (hd : dead t.inner.send = true) : dead s.inner.send = true := by
  refine hk.carries (fun _ s => dead s.inner.send = true) hd ?_
  intro _ _ _ _ hk hd hstep
  have hr' := hr.trans hk
  rw [step_dead (handles_run hr'.of_when) (open_run hr') hstep, hd, Bool.true_or]

theorem receiver_dead_run (hr : Steps CalmStep mpsc h s) (hin : .receiver_dead ∈ h) :
    dead s.inner.send = true := by
  revert hin
  refine hr.carries (fun h s => .receiver_dead ∈ h → dead s.inner.send = true) (by simp) ?_
  intro h s e s' hr hi hstep hin
  rw [step_dead (handles_run hr.of_when) (open_run hr) hstep]
  rcases List.mem_append.mp hin with hin | hin
  · rw [hi hin, Bool.true_or]
  · rw [← List.mem_singleton.mp hin]
    exact Bool.or_true _

theorem no_sender (hk : Handles s) (hd : RecvStatus.dead s.inner.recv = true) {p : Party c T}
    (hp : p ∈ s.calls) {x : ℕ} : p.sender ≠ some x := by
  intro hx
  have hmem := hk.sender p hp x hx
  have := (hk.senders_tallied.raised hd).2.1
  simp only [senders_tally] at this
  have := Multiset.card_pos_iff_exists_mem.mpr ⟨x,hmem⟩
  omega

end Flags

section Ending

variable {h k : List (Event T)} {s s' t : State c T} {e : Event T} {m m' : Inner c T}
  {ss : Multiset ℕ} {r : Bool} {n : ℕ} {p p' : Party c T} {rest : Multiset (Party c T)}

theorem reading_zero {q : Party c T} (hq : receiving q = 0) : reading q+returning q = 0 := by
  have := reading_le q
  omega

theorem recv_move_over {id : ℕ} {b : Bool} {pc pc' : RecvPc T}
    (hc : RecvStatus.commit m.recv = false) (hcl : clearing (.recv id b pc : Party c T) = 0)
    (h0 : reading (.recv id b pc : Party c T)+returning (.recv id b pc : Party c T) = 0)
    (hm : RecvMove m b pc m' pc' e) : RecvStatus.commit m'.recv = false ∧
      reading (.recv id b pc' : Party c T)+returning (.recv id b pc' : Party c T) = 0 := by
  cases hm with
  | found i hf => exact absurd (hf.symm.trans hc) (by decide)
  | ended => exact ⟨hc,by cases b <;> rfl⟩
  | empty i =>
    refine ⟨hc,?_⟩
    cases b
    · rfl
    · by_cases hi : i < 32 <;> simp [hi,reading,returning]
  | clear => simp [clearing] at hcl
  | read => simp [reading] at h0
  | release => simp [reading] at h0
  | arm => exact ⟨by simp [hc],by split <;> rfl⟩
  | sleep | miss => exact ⟨hc,rfl⟩

theorem over_step (hk : Handles s) (ho : Over s) (hstep : Step s e s') : Over s' := by
  have hflag := (sender_dead_step hk hstep).2 ho.flag
  have hempty := ho.empty
  have hidle := ho.idle
  cases step_moves hstep with
  | move hm =>
    simp only [Multiset.mem_cons, forall_eq_or_imp] at hidle
    cases hm with
    | send hm => exact absurd rfl (no_sender hk ho.flag (Multiset.mem_cons_self _ _))
    | recv hm =>
      have hf := hk.found
      rw [weigh_cons, show RecvStatus.commit _ = false from ho.empty, Bool.toNat_false] at hf
      obtain ⟨h1,h2⟩ := recv_move_over hempty (by omega) hidle.1 hm
      refine ⟨hflag,h1,?_⟩
      simp only [Multiset.mem_cons, forall_eq_or_imp]
      exact ⟨h2,hidle.2⟩
    | drop hm =>
      refine ⟨hflag,?_,?_⟩
      · cases hm with
        | sender_raise => simpa using hempty
        | _ => exact hempty
      · simp only [Multiset.mem_cons, forall_eq_or_imp]
        exact ⟨by cases hm <;> rfl,hidle.2⟩
  | wake hp hw =>
    refine ⟨hflag,hempty,?_⟩
    simp only [Multiset.mem_cons, forall_eq_or_imp] at hidle ⊢
    refine ⟨?_,hw.forall_mem (fun p q hq hz => ?_) hidle.2⟩
    · cases hp with
      | recv => simp [returning] at hidle
      | _ => rfl
    · rcases woken_cases hq with ⟨_,_,_,_,_,rfl,rfl⟩ | ⟨_,_,_,rfl,rfl⟩ <;> rfl
  | spurious hw =>
    refine ⟨hflag,hempty,?_⟩
    simp only [Multiset.mem_cons, forall_eq_or_imp] at hidle ⊢
    refine ⟨?_,hidle.2⟩
    rcases woken_cases hw with ⟨_,_,_,_,_,rfl,rfl⟩ | ⟨_,_,_,rfl,rfl⟩ <;> rfl
  | exit hx =>
    refine ⟨hflag,?_,fun p hp => hidle p (Multiset.mem_cons_of_mem hp)⟩
    rw [(exit_frame hx).2.1]
    exact hempty
  | clone_sender => exact ⟨hflag,hempty,hidle⟩
  | _ =>
    refine ⟨hflag,hempty,?_⟩
    simp only [Multiset.mem_cons, forall_eq_or_imp]
    exact ⟨rfl,hidle⟩

theorem Over.run (hr : Steps Step mpsc h t) (ho : Over t) (hk : Steps Step t k s) : Over s :=
  hk.carries (fun _ s => Over s) ho
    (fun _ _ _ _ hk ho hstep => over_step (handles_run (hr.trans hk)) ho hstep)

def Reports (p : Party c T) : Prop := ∃ id b r, p = .recv id b (.done r) ∧ at_end r = true

theorem move_reports (hk : Handles ⟨m,ss,r,p ::ₘ rest,n⟩) (hm : PartyMove m p m' p' e)
    (hp : Reports p') : Over ⟨m',ss,r,p' ::ₘ rest,n⟩ := by
  obtain ⟨id,b,q,rfl,hq⟩ := hp
  have hrest {id b} {pc : RecvPc T} (hh : Handles ⟨m,ss,r,.recv id b pc ::ₘ rest,n⟩) :
      ∀ p ∈ rest, reading p+returning p = 0 := fun p hp =>
    reading_zero ((weigh_eq_zero_iff receiving rest).mp (receiver_held hh rfl).2 p hp)
  cases hm with
  | @recv _ _ pc _ _ _ hm =>
    generalize hpc : (RecvPc.done q : RecvPc T) = pc' at hm
    cases hm with
    | ended i hc hd =>
      cases hpc
      refine ⟨hd,hc,?_⟩
      simp only [Multiset.mem_cons, forall_eq_or_imp]
      exact ⟨by cases b <;> rfl,hrest hk⟩
    | empty i =>
      cases b
      · cases hpc
        cases hq
      · rw [if_pos rfl] at hpc
        split at hpc <;> cases hpc
    | release =>
      split at hpc <;> cases hpc
      cases hq
    | arm => split at hpc <;> cases hpc
    | _ => cases hpc
  | drop hm => cases hm

def Seen (h : List (Event T)) (s : State c T) : Prop :=
  (∃ id r, .received id r ∈ h ∧ at_end r = true) ∨ ∃ p ∈ s.calls, Reports p

theorem not_reports {q : Party c T} (hq : ∀ id b r, q ≠ .recv id b (.done r)) : ¬ Reports q := by
  rintro ⟨id,b,r,rfl,-⟩
  exact hq id b r rfl

theorem woken_not_reports {w : Futex} {p q : Party c T} (hq : woken w p = some q) :
    ¬ Reports q := by
  rcases woken_cases hq with ⟨_,_,_,_,_,rfl,rfl⟩ | ⟨_,_,_,rfl,rfl⟩ <;> exact not_reports (by simp)

theorem seen_step (hk : Handles s) (hn : ¬ Seen h s) (hstep : Step s e s')
    (hs : Seen (h++[e]) s') : Over s' := by
  have hold : ∀ p ∈ s.calls, ¬ Reports p := fun p hp hr => hn (.inr ⟨p,hp,hr⟩)
  have hnew : (∃ id r, e = .received id r ∧ at_end r = true) ∨ ∃ p ∈ s'.calls, Reports p := by
    refine hs.imp_left ?_
    rintro ⟨id,r,hmem,hr⟩
    rcases List.mem_append.mp hmem with hmem | hmem
    · exact absurd (.inl ⟨id,r,hmem,hr⟩) hn
    · exact ⟨id,r,(List.mem_singleton.mp hmem).symm,hr⟩
  clear hs
  cases step_moves hstep with
  | move hm =>
    simp only [Multiset.mem_cons, forall_eq_or_imp, exists_eq_or_imp] at hold hnew
    rcases hnew with ⟨id,r,rfl,-⟩ | hr | ⟨q,hq,hr⟩
    · cases hm with
      | send hm =>
        generalize he : Event.received id r = e at hm
        cases hm with
        | attempt => split at he <;> cases he
        | _ => cases he
      | recv hm => cases hm
      | drop hm => cases hm
    · exact move_reports hk hm hr
    · exact absurd hr (hold.2 q hq)
  | wake hp hw =>
    simp only [Multiset.mem_cons, forall_eq_or_imp, exists_eq_or_imp] at hold hnew
    have hrest := hw.forall_mem (Q := fun p => ¬ Reports p)
      (fun _ _ hq _ => woken_not_reports hq) hold.2
    rcases hnew with ⟨id,r,he,-⟩ | hr | ⟨q,hq,hr⟩
    · cases he
    · obtain ⟨id,b,r,rfl,hr⟩ := hr
      cases hp
      cases hr
    · exact absurd hr (hrest q hq)
  | spurious hw =>
    simp only [Multiset.mem_cons, forall_eq_or_imp, exists_eq_or_imp] at hold hnew
    rcases hnew with ⟨id,r,he,-⟩ | hr | ⟨q,hq,hr⟩
    · cases he
    · exact absurd hr (woken_not_reports hw)
    · exact absurd hr (hold.2 q hq)
  | exit hx =>
    simp only [Multiset.mem_cons, forall_eq_or_imp] at hold hnew
    rcases hnew with ⟨id,r,rfl,hr⟩ | ⟨q,hq,hr⟩
    · cases hx
      exact absurd ⟨_,_,_,rfl,hr⟩ hold.1
    · exact absurd hr (hold.2 q hq)
  | clone_sender =>
    rcases hnew with ⟨id,r,he,-⟩ | ⟨q,hq,hr⟩
    · cases he
    · exact absurd hr (hold q hq)
  | _ =>
    simp only [Multiset.mem_cons, exists_eq_or_imp] at hnew
    rcases hnew with ⟨id,r,he,-⟩ | hr | ⟨q,hq,hr⟩
    · cases he
    · exact absurd hr (not_reports (by simp))
    · exact absurd hr (hold q hq)

theorem seen_run (hrun : Steps Step mpsc h s) : Seen h s → Over s := by
  refine hrun.carries (fun h s => Seen h s → Over s) ?_ ?_
  · rintro (⟨_,_,h0,-⟩ | ⟨_,h0,-⟩)
    · cases h0
    · simp [mpsc] at h0
  · intro h s e s' hr hi hstep hn
    have hk := handles_run hr
    by_cases hs : Seen h s
    · exact over_step hk (hi hs) hstep
    · exact seen_step hk hs hstep hn

theorem over_returned (ho : Over s) (hp : Pipeline h s) :
    gather committed h = gather returned h := by
  obtain ⟨a,ha,hca⟩ := hp.claimed
  have h0 : weigh (unreturned s.inner.slot) s.calls = 0 :=
    weigh_eq_zero_of_card (unreturned_card s.inner.slot) (weigh_eq_zero _ ho.idle)
  rw [h0, Multiset.coe_eq_zero] at hca
  have hc := hp.committed
  rw [ho.empty, if_neg Bool.false_ne_true, List.append_nil, ha, hca, List.append_nil] at hc
  exact hc

end Ending

section Late

variable {h k : List (Event T)} {s s' t : State c T} {e : Event T} {m m' : Inner c T} {n : ℕ}
  {p p' : Party c T}

/-- Where a receive stands that began under `SENDER_DEAD`: it never waits. -/
def Delivering (b : Bool) (pc : RecvPc T) : Prop :=
  pc = .load 0 ∨ pc = .clear ∨ pc = .read ∨ (∃ v, pc = .release v ∨ pc = .wake v ∨
    pc = .done (.ok v)) ∨ pc = .done (ended b)

/-- Where a send of `d` stands that began under `RECEIVER_DEAD`. -/
def Refusing (b : Bool) (d : T) (pc : SendPc c T) : Prop :=
  pc = .attempt d ∨ (∃ prev, dead prev = true ∧ pc = .check d prev) ∨ pc = .done (refused b d)

def LateRecv (n : ℕ) (k : List (Event T)) : Party c T → Prop
  | .recv id b pc => n ≤ id → .receiving id b ∈ k ∧ Delivering b pc
  | _ => True

def LateSend (n : ℕ) (k : List (Event T)) : Party c T → Prop
  | .send id b _ pc => n ≤ id → ∃ d, .sending id b d ∈ k ∧ (Refusing b d pc ∨ .abort ∈ k)
  | _ => True

theorem LateRecv.mono (hl : LateRecv n k p) : LateRecv n (k++[e]) p := by
  cases p with
  | recv => exact fun hle => (hl hle).imp_left (List.mem_append_left _)
  | _ => trivial

theorem LateSend.mono (hl : LateSend n k p) : LateSend n (k++[e]) p := by
  cases p with
  | send => exact fun hle => (hl hle).imp (fun d hd =>
      ⟨List.mem_append_left _ hd.1,hd.2.imp_right (List.mem_append_left _)⟩)
  | _ => trivial

theorem late_recv_move (hd : RecvStatus.dead m.recv = true) (hm : PartyMove m p m' p' e)
    (hl : LateRecv n k p) : LateRecv n k p' := by
  cases hm with
  | send => trivial
  | drop hd => cases hd <;> trivial
  | @recv id b _ _ _ _ hm =>
    intro hle
    obtain ⟨hmem,hpc⟩ := hl hle
    refine ⟨hmem,?_⟩
    cases hm with
    | found => exact .inr (.inl rfl)
    | ended => exact .inr (.inr (.inr (.inr rfl)))
    | empty _ _ h0 => exact absurd (hd.symm.trans h0) (by decide)
    | clear => exact .inr (.inr (.inl rfl))
    | @read v => exact .inr (.inr (.inr (.inl ⟨v,.inl rfl⟩)))
    | release v =>
      refine .inr (.inr (.inr (.inl ⟨v,.inr ?_⟩)))
      split
      · exact .inl rfl
      · exact .inr rfl
    | arm | sleep | miss => simp [Delivering] at hpc

theorem late_send_move (hd : dead m.send = true) (hm : PartyMove m p m' p' e)
    (hl : LateSend n (k++[e]) p) : LateSend n (k++[e]) p' := by
  cases hm with
  | recv => trivial
  | drop hd => cases hd <;> trivial
  | @send id b x _ _ _ _ hm =>
    intro hle
    obtain ⟨d,hmem,hpc⟩ := hl hle
    refine ⟨d,hmem,?_⟩
    rcases hpc with (rfl | ⟨prev,hp,rfl⟩ | rfl) | ha
    · cases hm
      exact .inl (.inr (.inl ⟨_,hd,rfl⟩))
    · cases hm with
      | abort => exact .inr (by simp)
      | refuse => exact .inl (.inr (.inr rfl))
      | full _ h0 => exact absurd (hp.symm.trans h0) (by decide)
      | own h0 => exact absurd (hp.symm.trans h0) (by decide)
    · cases hm
    · exact .inr ha

theorem late_waking {w : Futex} {j : ℕ} (hw : Waking p w j p') :
    (LateRecv n k p → LateRecv n k p') ∧ (LateSend n k p → LateSend n k p') := by
  cases hw with
  | send id b x =>
    refine ⟨fun _ => trivial,fun hl hle => ?_⟩
    obtain ⟨d,hmem,hpc⟩ := hl hle
    exact ⟨d,hmem,hpc.imp_left (by simp [Refusing])⟩
  | recv id b v =>
    refine ⟨fun hl hle => ⟨(hl hle).1,?_⟩,fun _ => trivial⟩
    exact .inr (.inr (.inr (.inl ⟨v,.inr (.inr rfl)⟩)))
  | _ => exact ⟨fun _ => trivial,fun _ => trivial⟩

theorem late_woken {w : Futex} (hw : woken w p = some p') :
    (LateRecv n k p → LateRecv n k p') ∧ (LateSend n k p → LateSend n k p') := by
  rcases woken_cases hw with ⟨_,_,_,_,_,rfl,rfl⟩ | ⟨_,_,_,rfl,rfl⟩
  · refine ⟨fun _ => trivial,fun hl hle => ?_⟩
    obtain ⟨d,hmem,hpc⟩ := hl hle
    exact ⟨d,hmem,hpc.imp_left (by simp [Refusing])⟩
  · exact ⟨fun hl hle => ⟨(hl hle).1,.inl rfl⟩,fun _ => trivial⟩

theorem step_forall {Q : Party c T → Prop} (hstep : Step s e t)
    (hmove : ∀ m' p p', PartyMove s.inner p m' p' e → Q p → Q p')
    (hwaking : ∀ p w j p', Waking p w j p' → Q p → Q p')
    (hwoken : ∀ p w p', woken w p = some p' → Q p → Q p')
    (hsend : ∀ b h d, e = .sending s.next b d → Q (.send s.next b h (.attempt d)))
    (hrecv : ∀ b, e = .receiving s.next b → Q (.recv s.next b (.load 0)))
    (hdrop : Q (.drop_sender .count) ∧ Q (.drop_receiver .raise))
    (hq : ∀ p ∈ s.calls, Q p) : ∀ p ∈ t.calls, Q p := by
  cases step_moves hstep with
  | move hm =>
    simp only [Multiset.mem_cons, forall_eq_or_imp] at hq ⊢
    exact ⟨hmove _ _ _ hm hq.1,hq.2⟩
  | wake hp hw =>
    simp only [Multiset.mem_cons, forall_eq_or_imp] at hq ⊢
    exact ⟨hwaking _ _ _ _ hp hq.1,hw.forall_mem (fun p q => hwoken p _ q) hq.2⟩
  | spurious hw =>
    simp only [Multiset.mem_cons, forall_eq_or_imp] at hq ⊢
    exact ⟨hwoken _ _ _ hw hq.1,hq.2⟩
  | exit hx => exact fun p hp => hq p (Multiset.mem_cons_of_mem hp)
  | call_send b d hh =>
    simp only [Multiset.mem_cons, forall_eq_or_imp]
    exact ⟨hsend b _ d rfl,hq⟩
  | call_recv b hh =>
    simp only [Multiset.mem_cons, forall_eq_or_imp]
    exact ⟨hrecv b rfl,hq⟩
  | clone_sender => exact hq
  | drop_sender =>
    simp only [Multiset.mem_cons, forall_eq_or_imp]
    exact ⟨hdrop.1,hq⟩
  | drop_receiver =>
    simp only [Multiset.mem_cons, forall_eq_or_imp]
    exact ⟨hdrop.2,hq⟩

theorem returned_done (hstep : Step s e t) :
    (∀ id r, e = .received id r → ∃ b, .recv id b (.done r) ∈ s.calls) ∧
    (∀ id r, e = .sent id r → ∃ b x, .send id b x (.done r) ∈ s.calls) := by
  cases step_moves hstep with
  | move hm =>
    cases hm with
    | send hm =>
      cases hm with
      | attempt => split <;> simp
      | _ => simp
    | recv hm => cases hm <;> simp
    | drop hm => cases hm <;> simp
  | exit hx =>
    cases hx with
    | send id b x r =>
      refine ⟨by simp,?_⟩
      rintro _ _ ⟨⟩
      exact ⟨b,x,Multiset.mem_cons_self _ _⟩
    | recv id b r =>
      refine ⟨?_,by simp⟩
      rintro _ _ ⟨⟩
      exact ⟨b,Multiset.mem_cons_self _ _⟩
    | _ => simp
  | _ => simp

/-- The calls and results of receives that began under `SENDER_DEAD`. -/
structure LateRecvs (n : ℕ) (k : List (Event T)) (s : State c T) : Prop where
  calls : ∀ p ∈ s.calls, LateRecv n k p
  results : ∀ id r, .received id r ∈ k → n ≤ id →
    ∃ b, .receiving id b ∈ k ∧ ((∃ v, r = .ok v) ∨ r = ended b)

structure LateSends (n : ℕ) (k : List (Event T)) (s : State c T) : Prop where
  calls : ∀ p ∈ s.calls, LateSend n k p
  results : ∀ id r, .sent id r ∈ k → n ≤ id → .abort ∉ k →
    ∃ b d, .sending id b d ∈ k ∧ r = refused b d

theorem late_recvs_step (hd : RecvStatus.dead s.inner.recv = true) (hl : LateRecvs n k s)
    (hstep : Step s e t) : LateRecvs n (k++[e]) t := by
  refine ⟨step_forall hstep (fun _ _ _ hm => late_recv_move hd hm)
    (fun _ _ _ _ hw => (late_waking hw).1) (fun _ _ _ hw => (late_woken hw).1)
    (fun _ _ _ _ => trivial) (fun b he => ?_) ⟨trivial,trivial⟩
    (fun p hp => (hl.calls p hp).mono),?_⟩
  · rw [he]
    exact fun _ => ⟨by simp,.inl rfl⟩
  · intro id r hmem hle
    rcases List.mem_append.mp hmem with hmem | hmem
    · exact (hl.results id r hmem hle).imp (fun b hb => hb.imp_left (List.mem_append_left _))
    · obtain ⟨b,hp⟩ := (returned_done hstep).1 id r (List.mem_singleton.mp hmem).symm
      obtain ⟨hb,hpc⟩ := hl.calls _ hp hle
      refine ⟨b,List.mem_append_left _ hb,?_⟩
      simpa [Delivering] using hpc

theorem late_sends_step (hd : dead s.inner.send = true) (hl : LateSends n k s)
    (hstep : Step s e t) : LateSends n (k++[e]) t := by
  refine ⟨step_forall hstep (fun _ _ _ hm => late_send_move hd hm)
    (fun _ _ _ _ hw => (late_waking hw).2) (fun _ _ _ hw => (late_woken hw).2)
    (fun b x d he => ?_) (fun _ _ => trivial) ⟨trivial,trivial⟩
    (fun p hp => (hl.calls p hp).mono),?_⟩
  · rw [he]
    exact fun _ => ⟨d,by simp,.inl (.inl rfl)⟩
  · intro id r hmem hle ha
    have hak : Event.abort ∉ k := fun h0 => ha (List.mem_append_left _ h0)
    rcases List.mem_append.mp hmem with hmem | hmem
    · exact (hl.results id r hmem hle hak).imp
        (fun b => Exists.imp (fun d hd => hd.imp_left (List.mem_append_left _)))
    · obtain ⟨b,x,hp⟩ := (returned_done hstep).2 id r (List.mem_singleton.mp hmem).symm
      obtain ⟨d,hb,hpc⟩ := hl.calls _ hp hle
      refine ⟨b,d,List.mem_append_left _ hb,?_⟩
      simpa [Refusing,hak] using hpc

theorem late_recvs_run (hr : Steps Step mpsc h t) (hd : RecvStatus.dead t.inner.recv = true)
    (hk : Steps Step t k s) : LateRecvs t.next k s := by
  refine hk.carries (fun k s => LateRecvs t.next k s) ⟨?_,by simp⟩ ?_
  · intro p hp
    cases p with
    | recv id b pc =>
      intro hle
      have := (numbered_run hr).calls _ hp id rfl
      omega
    | _ => trivial
  · exact fun k u e v hk hl hstep => late_recvs_step (sender_dead_kept hr hk hd) hl hstep

theorem late_sends_run (hr : Steps CalmStep mpsc h t) (hd : dead t.inner.send = true)
    (hk : Steps CalmStep t k s) : LateSends t.next k s := by
  refine hk.carries (fun k s => LateSends t.next k s) ⟨?_,by simp⟩ ?_
  · intro p hp
    cases p with
    | send id b x pc =>
      intro hle
      have := (numbered_run hr.of_when).calls _ hp id rfl
      omega
    | _ => trivial
  · exact fun k u e v hk hl hstep => late_sends_step (receiver_dead_kept hr hk hd) hl hstep.1

theorem committed_kept (hr : Steps Step mpsc h t) (hd : RecvStatus.dead t.inner.recv = true)
    (hk : Steps Step t k s) : gather committed k = [] := by
  refine hk.carries (fun k _ => gather committed k = []) rfl ?_
  intro k u e v hk h0 hstep
  have hkd := sender_dead_kept hr hk hd
  have hkh := handles_run (hr.trans hk)
  rw [gather_append, h0, List.nil_append]
  cases step_moves hstep with
  | move hm =>
    cases hm with
    | send hm => exact absurd rfl (no_sender hkh hkd (Multiset.mem_cons_self _ _))
    | recv hm => cases hm <;> rfl
    | drop hm => cases hm <;> rfl
  | exit hx => cases hx <;> rfl
  | _ => rfl

theorem late_receive (hr : Steps Step mpsc h t) (hd : RecvStatus.dead t.inner.recv = true)
    (hk : Steps Step t k s) {id : ℕ} {b : Bool} (hb : .receiving id b ∈ k) :
    (∀ r, .received id r ∈ k → (∃ v, r = .ok v) ∨ r = ended b) ∧
      ∀ b' pc, .recv id b' pc ∈ s.calls → Delivering b pc := by
  have hle := (late_number hk).2 id (List.mem_filterMap.mpr ⟨_,hb,rfl⟩)
  have hl := late_recvs_run hr hd hk
  have hsame {b' : Bool} (hb' : .receiving id b' ∈ k) : b' = b := by
    have := (numbered_run (hr.trans hk)).unique (List.mem_append_right _ hb)
      (List.mem_append_right _ hb') rfl rfl
    cases this
    rfl
  constructor
  · intro r hres
    obtain ⟨b',hb',hr'⟩ := hl.results id r hres hle
    rwa [hsame hb'] at hr'
  · intro b' pc hp
    obtain ⟨hb',hpc⟩ := hl.calls _ hp hle
    rwa [hsame hb'] at hpc

theorem late_send (hr : Steps CalmStep mpsc h t) (hd : dead t.inner.send = true)
    (hk : Steps CalmStep t k s) (ha : .abort ∉ k) {id : ℕ} {b : Bool} {d : T}
    (hb : .sending id b d ∈ k) : (∀ r, .sent id r ∈ k → r = refused b d) ∧
      ∀ b' x pc, .send id b' x pc ∈ s.calls → Refusing b d pc := by
  have hle := (late_number hk.of_when).2 id (List.mem_filterMap.mpr ⟨_,hb,rfl⟩)
  have hl := late_sends_run hr hd hk
  have hsame {b' : Bool} {d' : T} (hb' : .sending id b' d' ∈ k) : b' = b ∧ d' = d := by
    have := (numbered_run (hr.of_when.trans hk.of_when)).unique (List.mem_append_right _ hb)
      (List.mem_append_right _ hb') rfl rfl
    cases this
    exact ⟨rfl,rfl⟩
  constructor
  · intro r hres
    obtain ⟨b',d',hb',rfl⟩ := hl.results id r hres hle ha
    obtain ⟨rfl,rfl⟩ := hsame hb'
    rfl
  · intro b' x pc hp
    obtain ⟨d',hb',hpc⟩ := hl.calls _ hp hle
    obtain ⟨rfl,rfl⟩ := hsame hb'
    exact hpc.resolve_right ha

theorem over_receive (hr : Steps CalmStep mpsc h t) (ho : Over t) (hk : Steps CalmStep t k s)
    {id : ℕ} {b : Bool} (hb : .receiving id b ∈ k) : (∀ r, .received id r ∈ k → r = ended b) ∧
      ∀ b' pc, .recv id b' pc ∈ s.calls → pc = .load 0 ∨ pc = .done (ended b) := by
  have hos := ho.run hr.of_when hk.of_when
  obtain ⟨h1,h2⟩ := late_receive hr.of_when ho.flag hk.of_when hb
  have hret : gather returned k = [] := by
    have h3 := over_returned ho (pipeline_run hr)
    have h4 := over_returned hos (pipeline_run (hr.trans hk))
    have h5 := committed_kept hr.of_when ho.flag hk.of_when
    rw [gather, List.flatMap_append, gather, List.flatMap_append] at h4
    change gather committed h++gather committed k = gather returned h++gather returned k at h4
    rw [h5, h3, List.append_nil] at h4
    exact List.self_eq_append_right.mp h4
  constructor
  · intro r hres
    refine (h1 r hres).resolve_left ?_
    rintro ⟨v,rfl⟩
    have : v ∈ gather returned k := List.mem_flatMap.mpr ⟨_,hres,by simp [returned]⟩
    rw [hret] at this
    cases this
  · intro b' pc hp
    have hidle := hos.idle _ hp
    have hcl := le_weigh clearing hp
    have hf := (handles_run (hr.trans hk).of_when).found
    rw [hos.empty, Bool.toNat_false] at hf
    rcases h2 b' pc hp with rfl | rfl | rfl | ⟨v,rfl | rfl | rfl⟩ | rfl
    · exact .inl rfl
    · simp only [clearing] at hcl
      omega
    · cases hidle
    · cases hidle
    · cases hidle
    · cases hidle
    · exact .inr rfl

/-- Raised flags stay up, and what was committed is returned in its order. Under
`SENDER_DEAD` a receive returns a value or reports the end, and never waits; it
reports the end when every committed value has been returned, and all later
receives do so too. Under `RECEIVER_DEAD` a send is refused with its value. -/
theorem slot_disconnection_final (hrun : Steps Step mpsc (h++k) s) (hn : s.calls.card ≤ 2^60)
    (ha : .abort ∉ h++k) :
    (.sender_dead ∈ h → RecvStatus.dead s.inner.recv = true ∧ gather committed k = [] ∧
      ∀ id b, .receiving id b ∈ k → (∀ r, .received id r ∈ k → (∃ v, r = .ok v) ∨ r = ended b) ∧
        ∀ b' pc, .recv id b' pc ∈ s.calls → Delivering b pc) ∧
    (∃ rest, gather committed (h++k) = gather returned (h++k)++rest) ∧
    ((∃ id r, .received id r ∈ h ∧ at_end r = true) →
      gather committed (h++k) = gather returned h ∧
      ∀ id b, .receiving id b ∈ k → (∀ r, .received id r ∈ k → r = ended b) ∧
        ∀ b' pc, .recv id b' pc ∈ s.calls → pc = .load 0 ∨ pc = .done (ended b)) ∧
    (.receiver_dead ∈ h → dead s.inner.send = true ∧
      ∀ id b d, .sending id b d ∈ k → (∀ r, .sent id r ∈ k → r = refused b d) ∧
        ∀ b' x pc, .send id b' x pc ∈ s.calls → Refusing b d pc) := by
  have hcalm := (calm_run hrun ((aborting_le_card s).trans hn)).1
  obtain ⟨t,hr,hk⟩ := hcalm.split
  have hpipe := pipeline_run hcalm
  refine ⟨fun hin => ?_,?_,fun hin => ?_,fun hin => ?_⟩
  · have hd := sender_dead_run hr.of_when hin
    exact ⟨sender_dead_kept hr.of_when hk.of_when hd,committed_kept hr.of_when hd hk.of_when,
      fun id b => late_receive hr.of_when hd hk.of_when⟩
  · obtain ⟨a,hca,-⟩ := hpipe.claimed
    exact ⟨_,by rw [hpipe.committed, hca, List.append_assoc]⟩
  · have ho := seen_run hr.of_when (.inl hin)
    refine ⟨?_,fun id b => over_receive hr ho hk⟩
    rw [← over_returned ho (pipeline_run hr), gather, List.flatMap_append]
    change gather committed h++gather committed k = gather committed h
    rw [committed_kept hr.of_when ho.flag hk.of_when, List.append_nil]
  · have hd := receiver_dead_run hr hin
    exact ⟨receiver_dead_kept hr hk hd,fun id b d => late_send hr hd hk
      (fun h0 => ha (List.mem_append_right _ h0))⟩

/-- The last sender is dropped between the load of a receive and its
`fetch_and`; a second receive sees the end. -/
def drop_amid_receive : List (Command ℕ) :=
  [Command.call_send 0 false 7]++List.replicate 5 (Command.act 0)++
    [Command.call_recv false,Command.act 0,Command.drop_sender 0]++
    List.replicate 3 (Command.act 1)++List.replicate 4 (Command.act 0)++[Command.call_recv true]++
    List.replicate 2 (Command.act 0)++[Command.call_recv false]++List.replicate 2 (Command.act 0)

theorem slot_disconnection_final_amid : ∃ (h k : List (Event ℕ)) (s : State .x86_64 ℕ),
    Steps Step mpsc (h++k) s ∧ .received 3 .recv_error ∈ h ∧ gather returned h = [7] ∧
      gather committed (h++k) = [7] ∧ ∀ r, .received 4 r ∈ k → r = .disconnected := by
  obtain ⟨l,s,hr,hn,ha,hh,hv,hk⟩ := reaches .x86_64 drop_amid_receive
    (fun l s => s.calls.card ≤ 2^60 ∧ .abort ∉ l ∧ .received 3 .recv_error ∈ l.take 19 ∧
      gather returned (l.take 19) = [7] ∧ .receiving 4 false ∈ l.drop 19) (by decide +kernel)
  rw [← List.take_append_drop 19 l] at hr ha
  obtain ⟨hc,hl⟩ := (slot_disconnection_final hr hn ha).2.2.1 ⟨3,_,hh,rfl⟩
  exact ⟨_,_,s,hr,hh,hv,hc.trans hv,(hl 4 false hk).1⟩

end Late
end Lockness.SlotFinality
