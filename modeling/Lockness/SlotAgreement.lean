import Lockness.PoolSimulation
import Lockness.SlotAttempts
import Lockness.SlotSchedule

/-!
# The two builds of the slot agree

The senders' word counts attempts on x86-64 and has one bit for them elsewhere.
As long as the count does not carry, either build follows every run of the
other with the same results, flags and free slots. They may differ in one
thing: the futex compares another part of the word, so that a sender falls
asleep here that there goes on at once, as if it had been woken.
-/

set_option autoImplicit false

namespace Lockness.SlotAgreement
open Lockness.PoolRuns Lockness.PoolFutex Lockness.PoolSimulation
open Lockness.SlotWords Lockness.SlotWords.SendStatus
open Lockness.SlotMachine Lockness.SlotMoves Lockness.SlotAttempts Lockness.SlotSchedule

variable {c d : Target} {T : Type*}

structure WordAgree (w : SendStatusU c) (v : SendStatusU d) : Prop where
  dead : dead w = dead v
  sleeping : sleeping w = sleeping v
  free : reservations w = 0 ↔ reservations v = 0

structure InnerAgree (m : Inner c T) (n : Inner d T) : Prop where
  send : WordAgree m.send n.send
  recv : m.recv = n.recv
  num_senders : m.num_senders = n.num_senders
  slot : m.slot = n.slot
  strong : m.strong = n.strong
  freed : m.freed = n.freed

/-- Two calls of `send` or `try_send` at the same point; or one that is asleep
and one that has just been woken. -/
inductive PcAgree : SendPc c T → SendPc d T → Prop
  | attempt (data : T) : PcAgree (.attempt data) (.attempt data)
  | check (data : T) {prev : SendStatusU c} {prev' : SendStatusU d} : WordAgree prev prev' →
      PcAgree (.check data prev) (.check data prev')
  | abort : PcAgree .abort .abort
  | write (data : T) : PcAgree (.write data) (.write data)
  | commit : PcAgree .commit .commit
  | wake : PcAgree .wake .wake
  | spin (data : T) (i : ℕ) : PcAgree (.spin data i) (.spin data i)
  | sleep (data : T) {w : SendStatusU c} {v : SendStatusU d} : WordAgree w v →
      PcAgree (.sleep data w) (.sleep data v)
  | asleep (data : T) : PcAgree (.asleep data) (.asleep data)
  | early (data : T) : PcAgree (.asleep data) (.rearm data)
  | rearm (data : T) : PcAgree (.rearm data) (.rearm data)
  | done (r : SendResult T) : PcAgree (.done r) (.done r)

inductive PartyAgree : Party c T → Party d T → Prop
  | send (id : ℕ) (b : Bool) (h : ℕ) {pc : SendPc c T} {pc' : SendPc d T} : PcAgree pc pc' →
      PartyAgree (.send id b h pc) (.send id b h pc')
  | recv (id : ℕ) (b : Bool) (pc : RecvPc T) : PartyAgree (.recv id b pc) (.recv id b pc)
  | drop_sender (pc : DropSenderPc) : PartyAgree (.drop_sender pc) (.drop_sender pc)
  | drop_receiver (pc : DropReceiverPc) : PartyAgree (.drop_receiver pc) (.drop_receiver pc)

structure Agree (s : State c T) (t : State d T) : Prop where
  inner : InnerAgree s.inner t.inner
  senders : s.senders = t.senders
  receiver : s.receiver = t.receiver
  calls : Multiset.Rel PartyAgree s.calls t.calls
  next : s.next = t.next

section Words

variable {w : SendStatusU c} {v : SendStatusU d}

theorem WordAgree.count (hw : WordAgree w v) : count w = 0 ↔ count v = 0 := by
  rw [← reservations_eq_zero, ← reservations_eq_zero]
  exact hw.free

theorem wordAgree_of (h1 : SendStatus.dead w = SendStatus.dead v)
    (h2 : SendStatus.sleeping w = SendStatus.sleeping v)
    (h3 : SendStatus.count w = 0 ↔ SendStatus.count v = 0) : WordAgree w v :=
  ⟨h1,h2,by rw [reservations_eq_zero, reservations_eq_zero]; exact h3⟩

theorem WordAgree.attempt (hw : WordAgree w v) (hcw : ¬ Carries w) (hcv : ¬ Carries v) :
    WordAgree (attempt c w) (attempt d v) := by
  obtain ⟨h1,-,h2,h3⟩ := attempt_spec hcw
  obtain ⟨h4,-,h5,h6⟩ := attempt_spec hcv
  exact wordAgree_of (by rw [h2, h5, hw.dead]) (by rw [h3, h6, hw.sleeping])
    ⟨fun h0 => absurd h0 h1,fun h0 => absurd h0 h4⟩

theorem WordAgree.arm (hw : WordAgree w v) : WordAgree (w ||| SLEEPING c) (v ||| SLEEPING d) :=
  wordAgree_of (by simp [hw.dead]) (by simp) (by simpa using hw.count)

theorem WordAgree.won (hw : WordAgree w v) : won w = won v := by
  rw [Bool.eq_iff_iff, won_iff, won_iff, hw.dead, hw.count]

theorem wordAgree_zero : WordAgree (0#c.BITS) (0#d.BITS) :=
  wordAgree_of (by simp) (by simp) (by simp)

theorem wordAgree_dead : WordAgree (RECEIVER_DEAD c) (RECEIVER_DEAD d) :=
  wordAgree_of (by simp) (by simp) (by simp)

end Words

inductive ActAgree : Act c T → Act d T → Prop
  | go {m : Inner c T} {n : Inner d T} {p : Party c T} {q : Party d T} (e : Event T) :
      InnerAgree m n → PartyAgree p q → ActAgree (.go m p e) (.go n q e)
  | wake (w : Futex) (k : ℕ) {p : Party c T} {q : Party d T} : PartyAgree p q →
      ActAgree (.wake w k p) (.wake w k q)
  | blocked : ActAgree .blocked .blocked
  | exit {m : Inner c T} {n : Inner d T} (e : Event T) : InnerAgree m n →
      ActAgree (.exit m e) (.exit n e)
  | ub : ActAgree .ub .ub

section Codes

variable {m : Inner c T} {n : Inner d T}

theorem check_agree (b : Bool) (data : T) {prev : SendStatusU c} {prev' : SendStatusU d}
    (hp : WordAgree prev prev') (ha : aborts c prev = false) (ha' : aborts d prev' = false) :
    PcAgree (try_send_check b data prev) (try_send_check b data prev') := by
  have hr : 0 < reservations prev ↔ 0 < reservations prev' := by
    rw [reservations_pos, reservations_pos, Ne, Ne, hp.count]
  simp only [try_send_check, ha, ha', hp.dead, hr, Bool.false_eq_true, if_false]
  split_ifs
  · exact .done _
  · exact .done _
  · exact .spin _ _
  · exact .done _
  · exact .write _

theorem spin_agree (data : T) (i : ℕ) {w : SendStatusU c} {v : SendStatusU d}
    (hw : WordAgree w v) : PcAgree (send_spin data i w) (send_spin data i v) := by
  simp only [send_spin, hw.free, hw.dead, hw.sleeping]
  split_ifs
  · exact .attempt _
  · exact .done _
  · exact .sleep _ hw
  · exact .spin _ _

theorem send_agree (hm : InnerAgree m n) (id : ℕ) (b : Bool) (h : ℕ) {pc : SendPc c T}
    {pc' : SendPc d T} (hpc : PcAgree pc pc') (hcm : ¬ Carries m.send) (hcn : ¬ Carries n.send)
    (hap : over_limit (.send id b h pc) = 0) (haq : over_limit (.send id b h pc') = 0)
    (hs : ∀ data w, pc ≠ .sleep data w) (hz : ∀ data, pc ≠ .asleep data) :
    ActAgree (send_code m id b h pc) (send_code n id b h pc') := by
  cases hpc with
  | attempt data =>
    simp only [send_code, hm.send.won]
    exact .go _ { hm with send := hm.send.attempt hcm hcn } (.send _ _ _ (.check _ hm.send))
  | @check data prev prev' hp =>
    have ha : aborts c prev = false := by simpa [over_limit] using hap
    have ha' : aborts d prev' = false := by simpa [over_limit] using haq
    simp only [send_code, ha, ha']
    exact .go _ hm (.send _ _ _ (check_agree b data hp ha ha'))
  | abort => exact .blocked
  | write data => exact .go _ { hm with slot := rfl } (.send _ _ _ .commit)
  | commit =>
    simp only [send_code, hm.recv, hm.slot]
    refine .go _ { hm with recv := rfl, slot := rfl } (.send _ _ _ ?_)
    split
    · exact .wake
    · exact .done _
  | wake => exact .wake _ _ (.send _ _ _ (.done _))
  | spin data i =>
    have hw : WordAgree (if i = 0 then m.send ||| SLEEPING c else m.send)
        (if i = 0 then n.send ||| SLEEPING d else n.send) := by
      split
      · exact hm.send.arm
      · exact hm.send
    exact .go _ { hm with send := hw } (.send _ _ _ (spin_agree data i hw))
  | sleep data => exact absurd rfl (hs _ _)
  | asleep data => exact absurd rfl (hz _)
  | early data => exact absurd rfl (hz _)
  | rearm data => exact .go _ { hm with send := hm.send.arm } (.send _ _ _ (.attempt _))
  | done r => exact .exit _ hm

theorem recv_agree (hm : InnerAgree m n) (id : ℕ) (b : Bool) (pc : RecvPc T) :
    ActAgree (recv_code m id b pc) (recv_code n id b pc) := by
  have hr := hm.recv
  cases pc with
  | load i =>
    simp only [recv_code, hr]
    exact .go _ hm (.recv _ _ _)
  | clear =>
    simp only [recv_code, hr, hm.slot]
    exact .go _ { hm with recv := rfl, slot := rfl } (.recv _ _ _)
  | read =>
    simp only [recv_code, hm.slot]
    cases n.slot with
    | none => exact .ub
    | some value => exact .go _ { hm with slot := rfl } (.recv _ _ _)
  | release value =>
    simp only [recv_code, hm.send.sleeping]
    exact .go _ { hm with send := wordAgree_zero } (.recv _ _ _)
  | wake value => exact .wake _ _ (.recv _ _ _)
  | arm =>
    simp only [recv_code, hr]
    exact .go _ { hm with recv := rfl } (.recv _ _ _)
  | sleep =>
    simp only [recv_code, hr]
    exact .go _ hm (.recv _ _ _)
  | asleep => exact .blocked
  | done r => exact .exit _ hm

theorem release_agree (hm : InnerAgree m n) {p : Party c T} {q : Party d T}
    (hp : PartyAgree p q) : ActAgree (release_code m p) (release_code n q) := by
  simp only [release_code, hm.strong]
  split
  · exact .go _ { hm with strong := rfl } hp
  · exact .exit _ { hm with strong := rfl }

theorem free_agree (hm : InnerAgree m n) : ActAgree (free_code m) (free_code n) := by
  have hf : InnerAgree { m with freed := true } { n with freed := true } := { hm with freed := rfl }
  simp only [free_code, drop_inner, hm.recv, hm.slot]
  cases RecvStatus.commit n.recv with
  | false => exact .exit _ { hf with recv := rfl, slot := rfl }
  | true =>
    cases n.slot with
    | none => exact .ub
    | some value => exact .exit _ { hf with recv := rfl, slot := rfl }

theorem drop_sender_agree (hm : InnerAgree m n) (pc : DropSenderPc) :
    ActAgree (drop_sender_code m pc) (drop_sender_code n pc) := by
  cases pc with
  | count =>
    simp only [drop_sender_code, hm.num_senders]
    exact .go _ { hm with num_senders := rfl } (.drop_sender _)
  | raise =>
    simp only [drop_sender_code, hm.recv]
    exact .go _ { hm with recv := rfl } (.drop_sender _)
  | wake => exact .wake _ _ (.drop_sender _)
  | release => exact release_agree hm (.drop_sender _)
  | free => exact free_agree hm

theorem drop_receiver_agree (hm : InnerAgree m n) (pc : DropReceiverPc) :
    ActAgree (drop_receiver_code m pc) (drop_receiver_code n pc) := by
  cases pc with
  | raise =>
    simp only [drop_receiver_code, hm.send.sleeping]
    exact .go _ { hm with send := wordAgree_dead } (.drop_receiver _)
  | wake => exact .wake _ _ (.drop_receiver _)
  | release => exact release_agree hm (.drop_receiver _)
  | free => exact free_agree hm

def Sleepy : Party c T → Prop
  | .send _ _ _ (.sleep _ _) => True
  | .send _ _ _ (.asleep _) => True
  | _ => False

theorem code_agree (hm : InnerAgree m n) {p : Party c T} {q : Party d T} (hpq : PartyAgree p q)
    (hcm : ¬ Carries m.send) (hcn : ¬ Carries n.send) (hap : over_limit p = 0)
    (haq : over_limit q = 0) (hs : ¬ Sleepy p) : ActAgree (code m p) (code n q) := by
  cases hpq with
  | send id b h hpc =>
    refine send_agree hm id b h hpc hcm hcn hap haq ?_ ?_
    · rintro data w rfl
      exact hs trivial
    · rintro data rfl
      exact hs trivial
  | recv id b pc => exact recv_agree hm id b pc
  | drop_sender pc => exact drop_sender_agree hm pc
  | drop_receiver pc => exact drop_receiver_agree hm pc

end Codes

section Steps

variable {s s' : State c T} {t : State d T} {e : Event T}

def visible : Event T → Bool
  | .tau => false
  | _ => true

theorem woken_agree (w : Futex) (p p' : Party c T) (q : Party d T) (hw : woken w p = some p')
    (hpq : PartyAgree p q) :
    (∃ q', woken w q = some q' ∧ PartyAgree p' q') ∨ w = .send ∧ PartyAgree p' q := by
  rcases woken_cases hw with ⟨id,b,h,data,rfl,rfl,rfl⟩ | ⟨id,b,rfl,rfl,rfl⟩
  · cases hpq with
    | send _ _ _ hpc =>
      cases hpc with
      | asleep => exact .inl ⟨_,rfl,.send _ _ _ (.rearm _)⟩
      | early => exact .inr ⟨rfl,.send _ _ _ (.rearm _)⟩
  · cases hpq
    exact .inl ⟨_,rfl,.recv _ _ _⟩

theorem early_agree (w : Futex) (p : Party c T) (q q' : Party d T) (hw : woken w q = some q')
    (hpq : PartyAgree p q) : woken w p ≠ none ∧ (w = .send → PartyAgree p q') := by
  rcases woken_cases hw with ⟨id,b,h,data,rfl,rfl,rfl⟩ | ⟨id,b,rfl,rfl,rfl⟩
  · cases hpq with
    | send _ _ _ hpc =>
      cases hpc
      exact ⟨by simp [woken],fun _ => .send _ _ _ (.early _)⟩
  · cases hpq
    exact ⟨by simp [woken],fun h0 => absurd h0 (by decide)⟩

theorem agree_mem (ha : Agree s t) {q : Party d T} (hq : q ∈ t.calls) :
    ∃ p ∈ s.calls, PartyAgree p q := by
  obtain ⟨rest,hrest⟩ := Multiset.exists_cons_of_mem hq
  obtain ⟨p,ps,hpq,-,hps⟩ := Multiset.rel_cons_right.mp (hrest ▸ ha.calls)
  exact ⟨p,hps ▸ Multiset.mem_cons_self _ _,hpq⟩

theorem party_agree_borrows {p : Party c T} {q : Party d T} (hpq : PartyAgree p q) :
    q.sender = p.sender ∧ q.receives = p.receives := by
  cases hpq <;> exact ⟨rfl,rfl⟩

theorem clone_agree {m m' : Inner c T} {n : Inner d T} (hm : InnerAgree m n)
    (hc : clone_sender m = some m') : ∃ n', clone_sender n = some n' ∧ InnerAgree m' n' := by
  simp only [clone_sender, hm.num_senders, hm.strong] at hc ⊢
  split at hc <;> cases hc
  rename_i hn
  exact ⟨_,if_neg hn,{ hm with num_senders := rfl, strong := rfl }⟩

theorem over_limit_code {m : Inner c T} {p : Party c T} (hp : over_limit p ≠ 0) :
    (∃ p', code m p = .go m p' .abort) ∨ code m p = .blocked := by
  unfold over_limit at hp
  split at hp
  · rename_i id b h data prev
    have ha : aborts c prev = true := by
      by_contra ha
      exact hp (if_neg ha)
    refine .inl ⟨.send id b h (try_send_check b data prev),?_⟩
    simp only [code, send_code, ha, if_true]
  · exact .inr rfl
  · exact absurd rfl hp

theorem not_sleepy (m : Inner c T) {p : Party c T} (hgo : ∀ m' p' e, code m p ≠ .go m' p' e)
    (hb : code m p ≠ .blocked) : ¬ Sleepy p := by
  intro hs
  unfold Sleepy at hs
  split at hs
  · exact hgo _ _ _ rfl
  · exact hb rfl
  · exact hs

theorem awake_agree {m : Inner c T} {n : Inner d T} (hm : InnerAgree m n) {p : Party c T}
    {q : Party d T} {rest : Multiset (Party d T)} (hpq : PartyAgree p q) (hcm : ¬ Carries m.send)
    (hcn : ¬ Carries n.send) (hna : weigh over_limit (q ::ₘ rest) = 0) (hs : ¬ Sleepy p)
    (hgo : ∀ p', code m p ≠ .go m p' .abort) (hb : code m p ≠ .blocked) :
    ActAgree (code m p) (code n q) := by
  refine code_agree hm hpq hcm hcn ?_ ?_ hs
  · by_contra hne
    rcases over_limit_code (m := m) hne with ⟨p',hgo'⟩ | hb'
    · exact hgo _ hgo'
    · exact hb hb'
  · rw [weigh_cons] at hna
    omega

theorem sleep_follows {m : Inner c T} {n : Inner d T} {p p' : Party c T} {q : Party d T}
    {m' : Inner c T} (rest : Multiset (Party d T)) (hpq : PartyAgree p q) (hs : Sleepy p)
    (hc : code m p = .go m' p' e) : m' = m ∧ e = .tau ∧ ∃ q', PartyAgree p' q' ∧
      (PartyStep (program d T) n (q ::ₘ rest) .tau n (q' ::ₘ rest) ∨
        ∃ q₁, PartyStep (program d T) n (q ::ₘ rest) .tau n (q₁ ::ₘ rest) ∧
          PartyStep (program d T) n (q₁ ::ₘ rest) .tau n (q' ::ₘ rest)) := by
  cases hpq with
  | @send id b h pc pc' hpc =>
    cases hpc with
    | @sleep data w v hw =>
      have hgo : code n (.send id b h (.sleep data v)) = .go n (.send id b h
        (if futex d n.send = futex d v then .asleep data else .rearm data)) .tau := rfl
      simp only [code, send_code] at hc
      cases hc
      refine ⟨rfl,rfl,?_⟩
      by_cases hv : futex d n.send = futex d v
      · rw [if_pos hv] at hgo
        split
        · exact ⟨_,.send _ _ _ (.asleep data),.inl (.go hgo)⟩
        · exact ⟨.send id b h (.rearm data),.send _ _ _ (.rearm data),
            .inr ⟨_,.go hgo,.spurious (w := .send) rfl⟩⟩
      · rw [if_neg hv] at hgo
        split
        · exact ⟨_,.send _ _ _ (.early data),.inl (.go hgo)⟩
        · exact ⟨_,.send _ _ _ (.rearm data),.inl (.go hgo)⟩
    | asleep => cases hc
    | early => cases hc
    | _ => cases hs
  | _ => cases hs

theorem party_follows (ha : Agree s t) (hcs : Calm s) (hct : Calm t) (hna : aborting t = 0)
    {m : Inner c T} {calls : Multiset (Party c T)}
    (hp : PartyStep (program c T) s.inner s.calls e m calls) (he : e ≠ .abort) :
    ∃ l t', Steps Step t l t' ∧ l.filter visible = [e].filter visible ∧
      Agree { s with inner := m, calls := calls } t' := by
  obtain ⟨hin,hss,hr,hcalls,hnext⟩ := ha
  obtain ⟨n,ss,r,tcalls,nx⟩ := t
  simp only [aborting] at hna
  simp only at hin hss hr hcalls hnext
  generalize hsc : s.calls = cs at hp hcalls
  have hone {n' : Inner d T} {qs : Multiset (Party d T)} {m' : Inner c T}
      {ps : Multiset (Party c T)} {e : Event T}
      (hq : PartyStep (program d T) n tcalls e n' qs) (hin' : InnerAgree m' n')
      (hps : Multiset.Rel PartyAgree ps qs) : ∃ l t', Steps Step ⟨n,ss,r,tcalls,nx⟩ l t' ∧
        l.filter visible = [e].filter visible ∧ Agree { s with inner := m', calls := ps } t' :=
    ⟨[e],⟨n',ss,r,qs,nx⟩,.single (.party (s := ⟨n,ss,r,tcalls,nx⟩) hq),rfl,
      ⟨hin',hss,hr,hps,hnext⟩⟩
  cases hp with
  | @go m' p p' e rest hc =>
    obtain ⟨q,qs,hpq,hrest,rfl⟩ := Multiset.rel_cons_left.mp hcalls
    have hc : code s.inner p = .go m p' e := hc
    by_cases hs : Sleepy p
    · obtain ⟨rfl,rfl,q',hpq',hone' | ⟨q₁,h1,h2⟩⟩ := sleep_follows (n := n) qs hpq hs hc
      · exact hone hone' hin (hrest.cons hpq')
      · exact ⟨[.tau,.tau],⟨n,ss,r,q' ::ₘ qs,nx⟩,
          .next (.single (.party (s := ⟨n,ss,r,q ::ₘ qs,nx⟩) h1))
            (.party (s := ⟨n,ss,r,q₁ ::ₘ qs,nx⟩) h2),
          rfl,⟨hin,hss,hr,hrest.cons hpq',hnext⟩⟩
    · have hag := awake_agree hin hpq hcs hct hna hs (by simp [hc,he]) (by simp [hc])
      rw [hc] at hag
      generalize hc' : code n q = o at hag
      cases hag with
      | go _ hin' hpq' => exact hone (.go hc') hin' (hrest.cons hpq')
  | @wake p p' w k rest rest' hc hw =>
    obtain ⟨q,qs,hpq,hrest,rfl⟩ := Multiset.rel_cons_left.mp hcalls
    have hc : code s.inner p = .wake w k p' := hc
    have hs : ¬ Sleepy p := not_sleepy s.inner (by simp [hc]) (by simp [hc])
    have hag := awake_agree hin hpq hcs hct hna hs (by simp [hc]) (by simp [hc])
    rw [hc] at hag
    generalize hc' : code n q = o at hag
    cases hag with
    | wake _ _ hpq' =>
      obtain ⟨qs',hw',hrest'⟩ := wake_follows (w = .send) (woken_agree w) (early_agree w) hw hrest
      exact hone (.wake hc' hw') hin (hrest'.cons hpq')
  | @spurious p p' w rest hw =>
    obtain ⟨q,qs,hpq,hrest,rfl⟩ := Multiset.rel_cons_left.mp hcalls
    rcases woken_agree w p p' q hw hpq with ⟨q',hq',hpq'⟩ | ⟨-,hpq'⟩
    · exact hone (.spurious hq') hin (hrest.cons hpq')
    · exact ⟨[],_,.refl,rfl,⟨hin,hss,hr,hrest.cons hpq',hnext⟩⟩
  | @exit m' p e rest hc =>
    obtain ⟨q,qs,hpq,hrest,rfl⟩ := Multiset.rel_cons_left.mp hcalls
    have hc : code s.inner p = .exit m e := hc
    have hs : ¬ Sleepy p := not_sleepy s.inner (by simp [hc]) (by simp [hc])
    have hag := awake_agree hin hpq hcs hct hna hs (by simp [hc]) (by simp [hc])
    rw [hc] at hag
    generalize hc' : code n q = o at hag
    cases hag with
    | exit _ hin' => exact hone (.exit hc') hin' hrest

theorem step_follows (ha : Agree s t) (hcs : Calm s) (hct : Calm t) (hna : aborting t = 0)
    (hstep : Step s e s') (he : e ≠ .abort) : ∃ l t', Steps Step t l t' ∧
      l.filter visible = [e].filter visible ∧ Agree s' t' := by
  have hone {t' : State d T} (ht : Step t e t') (hag : Agree s' t') : ∃ l t', Steps Step t l t' ∧
      l.filter visible = [e].filter visible ∧ Agree s' t' := ⟨[e],t',.single ht,rfl,hag⟩
  have hreceives (h0 : ∀ p ∈ s.calls, p.receives = false) : ∀ q ∈ t.calls, q.receives = false := by
    intro q hq
    obtain ⟨p,hp,hpq⟩ := agree_mem ha hq
    rw [(party_agree_borrows hpq).2, h0 p hp]
  cases hstep with
  | party hp => exact party_follows ha hcs hct hna hp he
  | @call_send h b data hh =>
    rw [ha.next] at hone ⊢
    exact hone (.call_send b data (ha.senders ▸ hh)) { ha with
      calls := ha.calls.cons (.send _ _ _ (.attempt data)), next := rfl }
  | call_recv b hr hfree =>
    rw [ha.next] at hone ⊢
    exact hone (.call_recv b (ha.receiver ▸ hr) (hreceives hfree)) { ha with
      calls := ha.calls.cons (.recv _ _ _), next := rfl }
  | clone_sender hh hc =>
    obtain ⟨n',hc',hin⟩ := clone_agree ha.inner hc
    exact hone (.clone_sender (ha.senders ▸ hh) hc') { ha with
      inner := hin, senders := by rw [ha.next, ha.senders], next := by rw [ha.next] }
  | drop_sender hs hfree =>
    refine hone (.drop_sender (ha.senders ▸ hs) (fun q hq => ?_)) { ha with
      senders := rfl, calls := ha.calls.cons (.drop_sender _) }
    obtain ⟨p,hp,hpq⟩ := agree_mem ha hq
    rw [(party_agree_borrows hpq).1]
    exact hfree p hp
  | drop_receiver hr hfree =>
    exact hone (.drop_receiver (ha.receiver ▸ hr) (hreceives hfree)) { ha with
      receiver := rfl, calls := ha.calls.cons (.drop_receiver _) }

theorem agree_mpsc : Agree (mpsc : State c T) (mpsc : State d T) :=
  ⟨⟨wordAgree_zero,rfl,rfl,rfl,rfl,rfl⟩,rfl,rfl,.zero,rfl⟩

end Steps

abbrev Followed (h : List (Event T)) (s : State c T) (k : List (Event T)) (t : State d T) : Prop :=
  Follows Step Step visible Agree mpsc mpsc h s k t

section Runs

theorem portable_step {s s' : State .portable T} {e : Event T} (hstep : Step s e s')
    (h0 : aborting s = 0) : e ≠ .abort ∧ aborting s' = 0 := by
  simp only [aborting] at h0 ⊢
  cases step_moves hstep with
  | move hm =>
    simp only [weigh_cons] at h0 ⊢
    cases hm with
    | send hm =>
      cases hm with
      | attempt data =>
        refine ⟨by split <;> simp,?_⟩
        simpa [over_limit,aborts] using h0
      | abort ha => cases ha
      | spin _ _ _ hcase =>
        refine ⟨by simp,?_⟩
        rcases hcase with ⟨-,rfl⟩ | ⟨-,-,rfl⟩ | ⟨-,-,-,rfl⟩ | ⟨-,-,rfl⟩ <;> exact h0
      | full =>
        refine ⟨by simp,?_⟩
        split <;> simpa [over_limit,aborts] using h0
      | commit =>
        refine ⟨by simp,?_⟩
        split <;> exact h0
      | _ => exact ⟨by simp,h0⟩
    | recv hm => cases hm <;> exact ⟨by simp,h0⟩
    | drop hm => cases hm <;> exact ⟨by simp,h0⟩
  | wake hp hw => exact ⟨by simp,(quiet_over_limit.weigh_wake hp hw).trans h0⟩
  | spurious hw => exact ⟨by simp,(quiet_over_limit.weigh_spurious hw).trans h0⟩
  | exit hx =>
    rw [weigh_cons] at h0
    exact ⟨by cases hx <;> simp,by simp only; omega⟩
  | _ => exact ⟨by simp,by simpa [over_limit] using h0⟩

theorem portable_run {k : List (Event T)} {t : State .portable T} (hrun : Steps Step mpsc k t) :
    aborting t = 0 :=
  hrun.invariant (fun t => aborting t = 0) rfl (fun _ _ _ h0 hstep => (portable_step hstep h0).2)

theorem portable_calm (t : State .portable T) : Calm t := fun hc => absurd hc.1 (by decide)

/-- As long as nobody aborts, the portable build follows the one for x86-64. -/
theorem portable_follows {h : List (Event T)} {s : State .x86_64 T}
    (hrun : Steps CalmStep mpsc h s) (ha : .abort ∉ h) :
    ∃ (k : List (Event T)) (t : State .portable T), Followed h s k t := by
  have hne : ∀ e ∈ h, e ≠ .abort := fun e he h0 => ha (h0 ▸ he)
  have hok : Steps (When Step (fun u e => Calm u ∧ e ≠ .abort)) mpsc h s :=
    (hrun.labelled hne).mono (fun _ _ _ hs => ⟨hs.1.1,hs.1.2,hs.2⟩)
  refine followed agree_mpsc hok ?_
  rintro h u k t e v hf hstep ⟨hcalm,he⟩
  obtain ⟨-,ht,-,hag⟩ := hf.spec
  exact step_follows hag hcalm (portable_calm t) (portable_run ht) hstep he

/-- The build for x86-64 follows the portable one until a sender aborts. -/
theorem x86_64_follows {k : List (Event T)} {t : State .portable T} (hrun : Steps Step mpsc k t) :
    (∃ (h : List (Event T)) (s : State .x86_64 T), Followed k t h s) ∨
    ∃ k' h, ∃ (t' : State .portable T) (s : State .x86_64 T),
      k' <+: k ∧ Followed k' t' h s ∧ 0 < aborting s := by
  induction hrun with
  | refl => exact .inl ⟨[],mpsc,.start agree_mpsc⟩
  | @next k t e v hr hstep ih =>
    rcases ih with ⟨h,s,hf⟩ | ⟨k',h,t',s,hk,hf,hpos⟩
    · by_cases h0 : aborting s = 0
      · obtain ⟨-,hs,-,hag⟩ := hf.spec
        obtain ⟨l,s',hl,hv,hag'⟩ := step_follows hag (portable_calm t)
          (calm_run hs (by omega)).2 h0 hstep (portable_step hstep (portable_run hr)).1
        exact .inl ⟨h++l,s',.next hf hstep hl hv hag'⟩
      · exact .inr ⟨k,h,t,s,List.prefix_append _ _,hf,Nat.pos_of_ne_zero h0⟩
    · exact .inr ⟨k',h,t',s,hk.trans (List.prefix_append _ _),hf,hpos⟩

/-- As long as nobody aborts the count never carries, and the portable build
follows each step of the run with the same result, flags and slot. The other
way round each step is followed until a sender aborts. -/
theorem builds_agree :
    (∀ (h : List (Event T)) (s : State .x86_64 T), Steps Step mpsc h s → s.calls.card ≤ 2^60 →
      .abort ∉ h → (Steps CalmStep mpsc h s ∧ Calm s) ∧
        ∃ (k : List (Event T)) (t : State .portable T), Followed h s k t) ∧
    ∀ (k : List (Event T)) (t : State .portable T), Steps Step mpsc k t →
      (∃ (h : List (Event T)) (s : State .x86_64 T), Followed k t h s) ∨
      ∃ k' h, ∃ (t' : State .portable T) (s : State .x86_64 T),
        k' <+: k ∧ Followed k' t' h s ∧ 0 < aborting s := by
  refine ⟨fun h s hrun hn ha => ?_,fun k t => x86_64_follows⟩
  have hcalm := calm_run hrun ((aborting_le_card s).trans hn)
  exact ⟨hcalm,portable_follows hcalm.1 ha⟩

/-- Two sends after the receiver is gone, and one before. -/
def attempts : List (Command ℕ) :=
  [Command.call_send 0 false 1]++List.replicate 5 (Command.act 0)++[Command.call_send 0 false 2]++
    List.replicate 3 (Command.act 0)++[Command.drop_receiver]++List.replicate 2 (Command.act 0)++
    [Command.call_send 0 false 3]++List.replicate 3 (Command.act 0)

theorem builds_agree_attempts : ∃ (h : List (Event ℕ)) (s : State .x86_64 ℕ),
    Steps Step mpsc h s ∧ .sent 2 (.full 2) ∈ h ∧ .sent 3 (.disconnected 3) ∈ h ∧ Calm s ∧
      ∃ (k : List (Event ℕ)) (t : State .portable ℕ), Followed h s k t := by
  obtain ⟨h,s,hr,hn,ha,h2,h3⟩ := reaches .x86_64 attempts (fun h s => s.calls.card ≤ 2^60 ∧
    .abort ∉ h ∧ .sent 2 (.full 2) ∈ h ∧ .sent 3 (.disconnected 3) ∈ h) (by decide +kernel)
  obtain ⟨⟨-,hcalm⟩,hf⟩ := builds_agree.1 h s hr hn ha
  exact ⟨h,s,hr,h2,h3,hcalm,hf⟩

end Runs
end Lockness.SlotAgreement
