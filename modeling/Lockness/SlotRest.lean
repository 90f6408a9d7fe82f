import Lockness.PoolRest
import Lockness.SlotAtomic
import Lockness.SlotBlocking
import Lockness.SlotDelivery

/-!
# The slot comes to rest

While nobody calls, clones or drops, and no sleeper wakes by itself, the calls in
flight take a bounded number of turns in any order, but for a receive that spins on
a `SLEEPING` that a wait has left behind. On x86-64 each attempt changes the word,
so that the bound contains the range of the count. Once the others rest, a receive
waits, asleep or spinning, only on an empty slot.
-/

set_option autoImplicit false

namespace Lockness.SlotRest
open Lockness.PoolRuns Lockness.PoolFutex Lockness.PoolRest
open Lockness.SlotWords Lockness.SlotWords.SendStatus
open Lockness.SlotMachine Lockness.SlotMoves Lockness.SlotAttempts Lockness.SlotHandles
open Lockness.SlotBoard Lockness.SlotTorch Lockness.SlotSleep Lockness.SlotBlocking
open Lockness.SlotSchedule (Command reaches)

variable {c : Target} {T : Type*} {m m' : Inner c T} {p p' : Party c T} {e : Event T}

section Gauge

/-- What the word can count: on x86-64 all attempts, else one reservation. -/
def most : Target → ℕ
  | .x86_64 => 2^62-1
  | .portable => 1

def stage_sender : DropSenderPc → ℕ
  | .count => 5
  | .raise => 4
  | .wake => 3
  | .release => 2
  | .free => 1

def stage_receiver (c : Target) : DropReceiverPc → ℕ
  | .raise => most c+7
  | .wake => 3
  | .release => 2
  | .free => 1

def stage : Party c T → ℕ
  | .send _ _ _ .abort => 0
  | .send _ _ _ (.write _) => 8
  | .send _ _ _ .commit => 7
  | .send _ _ _ .wake => 3
  | .send _ _ _ (.done _) => 1
  | .send _ _ _ _ => 9
  | .recv _ _ .clear => most c+10
  | .recv _ _ .read => most c+8
  | .recv _ _ (.release _) => most c+7
  | .recv _ _ (.wake _) => 3
  | .recv _ _ (.done _) => 1
  | .recv _ _ _ => most c+12
  | .drop_sender pc => stage_sender pc
  | .drop_receiver pc => stage_receiver c pc

def slack (m : Inner c T) : ℕ :=
  (!sleeping m.send).toNat+(!RecvStatus.sleeping m.recv).toNat+(most c-count m.send)

def effort (m : Inner c T) : Party c T → ℕ
  | .send _ _ _ (.attempt _) => if count m.send = 0 then 5 else 60
  | .send _ _ _ (.check _ _) => 50
  | .send _ _ _ (.spin _ spin) => min spin 32+10
  | .send _ _ _ (.sleep _ expected) => if futex c m.send = futex c expected then 1 else 70
  | .send _ _ _ (.rearm _) => 65
  | .recv _ _ (.load i) => if m.recv = RecvStatus.SLEEPING then 45 else
      if RecvStatus.commit m.recv ∨ RecvStatus.dead m.recv then 3 else 40-i
  | .recv _ _ .arm => if m.recv = RecvStatus.SLEEPING then 45 else 5
  | .recv _ _ .sleep => if m.recv = RecvStatus.SLEEPING then 1 else 50
  | _ => 0

def gauge (c : Target) (T : Type*) : Gauge (Inner c T) (Party c T) where
  slack := slack
  stage := stage
  effort := effort
  most := 70

/-- The receive spins: `SLEEPING` is set, and it is not about to sleep. -/
def stray (m : Inner c T) : Party c T → Bool
  | .recv _ true (.load _) => m.recv = RecvStatus.SLEEPING
  | .recv _ true .arm => m.recv = RecvStatus.SLEEPING
  | _ => false

theorem effort_le (m : Inner c T) (p : Party c T) : effort m p ≤ 70 := by
  unfold effort
  split <;> try split_ifs
  all_goals omega

def Short : Party c T → Prop
  | .send _ _ _ (.spin _ spin) => spin ≤ 32
  | _ => True

end Gauge

section Words

theorem contains_or {n : ℕ} {w flag : BitVec n} (h : SlotWords.contains w flag = true) :
    w ||| flag = w := by
  have hbit : w &&& flag = flag := by simpa [SlotWords.contains] using h
  ext i hi
  have hi := congrArg (fun x => x.getLsbD i) hbit
  simp only [BitVec.getLsbD_and] at hi
  rw [BitVec.getElem_or, ← BitVec.getLsbD_eq_getElem, ← BitVec.getLsbD_eq_getElem, ← hi]
  cases w.getLsbD i <;> rfl

theorem recv_sleeping_eq (w : BitVec 32) : RecvStatus.sleeping w = w.getLsbD 1 :=
  contains_twoPow w 1 (by decide)

theorem sleeping_raised (w : BitVec 32) :
    RecvStatus.sleeping (w ||| RecvStatus.SENDER_DEAD) = RecvStatus.sleeping w := by
  have h : RecvStatus.SENDER_DEAD.getLsbD 1 = false := by decide
  rw [recv_sleeping_eq, recv_sleeping_eq, BitVec.getLsbD_or, h, Bool.or_false]

theorem sleeping_armed (w : BitVec 32) :
    RecvStatus.sleeping (w ||| RecvStatus.SLEEPING) = true := by
  have h : RecvStatus.SLEEPING.getLsbD 1 = true := by decide
  rw [recv_sleeping_eq, BitVec.getLsbD_or, h, Bool.or_true]

theorem attempt_counts {w : SendStatusU c} (hw : ¬ Carries w) (hle : count w ≤ most c) :
    attempt c w = w ∧ count w ≠ 0 ∨ count (attempt c w) = count w+1 ∧ count w < most c := by
  obtain ⟨hne,hnext,-⟩ := attempt_spec hw
  cases c with
  | x86_64 =>
    have hlt : count w+1 ≠ 2^62 := fun h => hw ⟨rfl,h⟩
    have hcount := count_eq w
    have hcount' := count_eq (attempt .x86_64 w)
    have hnat : (w+1).toNat = (w.toNat+1)%2^64 := BitVec.toNat_add w 1
    simp only [attempt, Target.BITS, hnat] at hcount hcount'
    simp only [most, attempt] at hle ⊢
    omega
  | portable =>
    simp only [most] at hle ⊢
    by_cases h0 : count w = 0
    · omega
    · have hodd : w.getLsbD 0 = true := by
        have hcount := count_eq w
        simp only [Target.BITS] at hcount
        rw [← BitVec.testBit_toNat, Nat.testBit_zero, decide_eq_true_iff]
        omega
      exact .inl ⟨contains_or ((contains_twoPow w 0 (by decide)).trans hodd),h0⟩

theorem word_ext {v w : SendStatusU c} (hc : count v = count w) (hd : dead v = dead w)
    (hs : sleeping v = sleeping w) : v = w := by
  rw [count_eq, count_eq] at hc
  rw [dead_eq, dead_eq, ← BitVec.testBit_toNat, ← BitVec.testBit_toNat,
    Nat.testBit_eq_decide_div_mod_eq, Nat.testBit_eq_decide_div_mod_eq, decide_eq_decide] at hd
  rw [sleeping_eq, sleeping_eq, ← BitVec.testBit_toNat, ← BitVec.testBit_toNat,
    Nat.testBit_eq_decide_div_mod_eq, Nat.testBit_eq_decide_div_mod_eq, decide_eq_decide] at hs
  have hv := v.isLt
  have hw := w.isLt
  apply BitVec.eq_of_toNat_eq
  cases c <;> simp only [Target.BITS] at hc hd hs hv hw <;> omega

end Words

section Turns

variable {id : ℕ} {b : Bool}

theorem forward (h : slack m'+stage p' < slack m+stage p) : Descends (gauge c T) m p m' p' :=
  .inl h

theorem again (hs : m'.send = m.send) (hr : m'.recv = m.recv) (hst : stage p' = stage p)
    (he : effort m p' < effort m p) : Descends (gauge c T) m p m' p' := by
  refine .inr ⟨?_,fun q => ?_,he⟩
  · simp only [gauge, slack, hs, hr, hst]
  · simp only [gauge]
    unfold effort
    rw [hs, hr]

theorem arming {w : SendStatusU c} (hc : count w = count m.send) (hd : dead w = dead m.send)
    (hl : sleeping m.send = true → sleeping w = true) (hst : stage p' ≤ stage p)
    (he : w = m.send → stage p' = stage p → effort m p' < effort m p) :
    Descends (gauge c T) m p { m with send := w } p' := by
  by_cases hw : w = m.send
  · rcases hst.lt_or_eq with hlt | heq
    · exact forward (by simp only [slack, hw]; omega)
    · exact again hw rfl heq (he hw heq)
  · have hne : sleeping m.send = false ∧ sleeping w = true := by
      cases hv : sleeping m.send with
      | true => exact absurd (word_ext hc hd ((hl hv).trans hv.symm)) hw
      | false =>
        cases hw' : sleeping w with
        | true => exact ⟨rfl,rfl⟩
        | false => exact absurd (word_ext hc hd (hw'.trans hv.symm)) hw
    exact forward (by simp only [slack, hne.1, hne.2, hc]; simp; omega)

theorem send_descends {x : ℕ} {pc pc' : SendPc c T} (hcalm : ¬ Carries m.send)
    (hle : count m.send ≤ most c) (hsh : Short (.send id b x pc)) (hm : SendMove m b pc m' pc' e) :
    Descends (gauge c T) m (.send id b x pc) m' (.send id b x pc') := by
  cases hm with
  | attempt data =>
    rcases attempt_counts hcalm hle with ⟨hsame,h0⟩ | ⟨hnext,hlt⟩
    · exact again hsame rfl rfl (by simp [effort,h0])
    · have hsl := (attempt_spec hcalm).2.2.2
      exact forward (by simp only [slack, hsl, hnext, stage]; omega)
  | abort => exact forward (by simp [stage])
  | refuse => exact forward (by simp [stage])
  | full =>
    cases b with
    | false => exact forward (by simp [stage])
    | true => exact again rfl rfl rfl (by simp [effort])
  | own => exact forward (by simp [stage])
  | write => exact forward (by simp [slack,stage])
  | commit =>
    refine forward ?_
    have := Bool.toNat_le (!RecvStatus.sleeping RecvStatus.COMMIT)
    cases RecvStatus.sleeping m.recv <;> simp only [slack, stage] <;> simp <;> omega
  | @spin data spin w pc' hc hd hl hcase =>
    have hspin : min spin 32 = spin := min_eq_left hsh
    refine arming hc hd hl ?_ (fun hw hst => ?_)
    · rcases hcase with ⟨-,rfl⟩ | ⟨-,-,rfl⟩ | ⟨-,-,-,rfl⟩ | ⟨-,-,rfl⟩ <;> simp [stage]
    · rcases hcase with ⟨h0,rfl⟩ | ⟨-,-,rfl⟩ | ⟨-,-,-,rfl⟩ | ⟨h0,-,rfl⟩
      · simp only [effort, ← hc, h0, if_true]
        omega
      · simp [effort]
      · simp only [effort, hw, if_true]
        omega
      · simp only [effort]
        omega
  | sleep hf => exact again rfl rfl rfl (by simp [effort,hf])
  | miss hf => exact again rfl rfl rfl (by simp [effort,hf])
  | rearm =>
    refine arming (count_or_SLEEPING _) (dead_or_SLEEPING _) (fun _ => sleeping_or_SLEEPING _)
      le_rfl
      (fun _ _ => ?_)
    simp only [effort]
    split_ifs <;> omega

theorem load_descends {i : ℕ} (hi : i ≤ 32) (h0 : m.recv ≠ RecvStatus.SLEEPING)
    (hc : RecvStatus.commit m.recv = false) (hd : RecvStatus.dead m.recv = false) :
    Descends (gauge c T) m (.recv id b (.load i)) m
      (.recv id b (if b then if i < 32 then .load (i+1) else .arm else .done .empty)) := by
  cases b with
  | false => exact forward (by simp [stage])
  | true =>
    rw [if_pos rfl]
    split
    · exact again rfl rfl rfl (by simp [effort,h0,hc,hd]; omega)
    · exact again rfl rfl rfl (by simp [effort,h0,hc,hd]; omega)

theorem arm_descends (hr : m.recv.toNat < 8) (h0 : m.recv ≠ RecvStatus.SLEEPING) :
    Descends (gauge c T) m (.recv id b .arm) { m with recv := m.recv ||| RecvStatus.SLEEPING }
      (.recv id b (if m.recv ≠ 0 then .load 0 else .sleep)) := by
  have hstage : stage (.recv id b (if m.recv ≠ 0 then .load 0 else .sleep) : Party c T) =
      stage (.recv id b .arm : Party c T) := by
    split <;> rfl
  cases hs : RecvStatus.sleeping m.recv with
  | false => exact forward (by simp only [slack, hs, sleeping_armed, hstage]; simp)
  | true =>
    have hne : m.recv ≠ 0 := by
      intro h
      rw [h] at hs
      revert hs
      decide
    have hseen : RecvStatus.commit m.recv = true ∨ RecvStatus.dead m.recv = true := by
      by_contra hno
      simp only [not_or, Bool.not_eq_true] at hno
      rcases quiet_word hr hno.1 hno.2 with h | h
      · exact hne h
      · exact h0 h
    rw [if_pos hne]
    exact again rfl (contains_or hs) rfl (by simp [effort,h0,hseen])

theorem stray_idles {pc pc' : RecvPc T} (hs : stray m (.recv id b pc) = true)
    (hm : RecvMove m b pc m' pc' e) : Idles (gauge c T) m (.recv id b pc) m' (.recv id b pc') ∧
      stray m' (.recv id b pc') = true := by
  have hword : m.recv = RecvStatus.SLEEPING ∧ b = true ∧ ((∃ i, pc = .load i) ∨ pc = .arm) := by
    cases b <;> cases pc <;> simp_all [stray]
  obtain ⟨h0,rfl,⟨i,rfl⟩ | rfl⟩ := hword
  · cases hm with
    | found _ hc => simp [h0] at hc
    | ended _ _ hd => simp [h0] at hd
    | empty =>
      rw [if_pos rfl]
      split <;> exact ⟨⟨rfl,rfl,by simp [gauge,effort,h0]⟩,by simp [stray,h0]⟩
  · cases hm with
    | arm =>
      have hne : m.recv ≠ 0 := by
        rw [h0]
        decide
      have hsame : m.recv ||| RecvStatus.SLEEPING = m.recv := by
        rw [h0]
        decide
      rw [if_pos hne, hsame]
      exact ⟨⟨rfl,rfl,by simp [gauge,effort,h0]⟩,by simp [stray,h0]⟩

theorem recv_descends {pc pc' : RecvPc T} (hok : RecvOk b pc) (hr : m.recv.toNat < 8)
    (hs : stray m (.recv id b pc) = false) (hm : RecvMove m b pc m' pc' e) :
    Descends (gauge c T) m (.recv id b pc) m' (.recv id b pc') := by
  cases hm with
  | found => exact forward (by simp [stage])
  | ended => exact forward (by simp [stage])
  | empty i hc hd =>
    cases b with
    | false => exact forward (by simp [stage])
    | true => exact load_descends hok (by simpa [stray] using hs) hc hd
  | clear =>
    refine forward ?_
    have := Bool.toNat_le (!RecvStatus.sleeping (m.recv &&& RecvStatus.SENDER_DEAD))
    simp only [slack, stage]
    omega
  | read => exact forward (by simp [slack,stage])
  | release =>
    refine forward ?_
    cases sleeping m.send <;> simp [slack,stage] <;> omega
  | arm =>
    obtain rfl : b = true := hok
    exact arm_descends hr (by simpa [stray] using hs)
  | sleep hw => exact again rfl rfl rfl (by simp [effort,hw])
  | miss hw =>
    refine again rfl rfl rfl ?_
    simp only [effort, if_neg hw]
    split_ifs <;> omega

theorem drop_descends (hm : DropMove m p m' p' e) : Descends (gauge c T) m p m' p' := by
  refine forward ?_
  cases hm with
  | sender_count =>
    simp only [slack, stage]
    split_ifs <;> simp [stage_sender]
  | sender_raise =>
    simp only [slack, stage, sleeping_raised]
    split_ifs <;> simp [stage_sender]
  | receiver_raise =>
    cases sleeping m.send <;> simp [slack,stage,stage_receiver] <;> omega
  | last_sender => simp [slack,stage,stage_sender]
  | last_receiver => simp [slack,stage,stage_receiver]

theorem go_descends (hok : Ok p) (hsh : Short p) (hr : m.recv.toNat < 8) (hcalm : ¬ Carries m.send)
    (hle : count m.send ≤ most c) (hs : stray m p = false) (hc : code m p = .go m' p' e) :
    Descends (gauge c T) m p m' p' := by
  cases code_moves hc with
  | send hm => exact send_descends hcalm hle hsh hm
  | recv hm => exact recv_descends hok hr hs hm
  | drop hm => exact drop_descends hm

theorem go_idles (hs : stray m p = true) (hc : code m p = .go m' p' e) :
    Idles (gauge c T) m p m' p' ∧ stray m' p' = true := by
  cases code_moves hc with
  | send => cases hs
  | recv hm => exact stray_idles hs hm
  | drop hm => cases hm <;> cases hs

theorem waking_stage {w : Futex} {n : ℕ} (hw : Waking p w n p') : stage p' < stage p := by
  cases hw <;> simp [stage,stage_sender,stage_receiver]

theorem woken_stage {w : Futex} (hw : woken w p = some p') : stage p' = stage p := by
  rcases woken_cases hw with ⟨_,_,_,_,-,rfl,rfl⟩ | ⟨_,_,-,rfl,rfl⟩ <;> rfl

theorem exit_stage (hx : Exit m p m' e) : slack m' = slack m ∧ 0 < stage p := by
  obtain ⟨hsend,hrecv,-⟩ := exit_frame hx
  refine ⟨by rw [slack, slack, hsend, hrecv],?_⟩
  cases hx <;> simp [stage,stage_sender,stage_receiver]

end Turns

section Runs

variable {h : List (Event T)} {k : List (Bool × Event T)} {s s' t : State c T} {x : Bool × Event T}

structure Fit (s : State c T) : Prop where
  recv : s.inner.recv.toNat < 8
  send : count s.inner.send ≤ most c
  short : ∀ p ∈ s.calls, Short p

theorem count_attempt_le {w : SendStatusU c} (hw : ¬ Carries w) (hle : count w ≤ most c) :
    count (attempt c w) ≤ most c := by
  rcases attempt_counts hw hle with ⟨hsame,-⟩ | ⟨hnext,hlt⟩
  · rw [hsame]
    exact hle
  · omega

theorem fit_move (hcalm : ¬ Carries m.send) (hr : m.recv.toNat < 8) (hle : count m.send ≤ most c)
    (hm : PartyMove m p m' p' e) : m'.recv.toNat < 8 ∧ count m'.send ≤ most c := by
  cases hm with
  | send hm =>
    cases hm with
    | attempt => exact ⟨hr,count_attempt_le hcalm hle⟩
    | commit => exact ⟨committed_word.1,hle⟩
    | spin hw => exact ⟨hr,hw.trans_le hle⟩
    | rearm => exact ⟨hr,(count_or_SLEEPING _).trans_le hle⟩
    | _ => exact ⟨hr,hle⟩
  | recv hm =>
    cases hm with
    | clear => exact ⟨(cleared_word hr).1,hle⟩
    | release => exact ⟨hr,(count_zero c).trans_le (Nat.zero_le _)⟩
    | arm => exact ⟨(armed_word hr).1,hle⟩
    | _ => exact ⟨hr,hle⟩
  | drop hm =>
    cases hm with
    | sender_raise => exact ⟨(raised_word hr).1,hle⟩
    | receiver_raise => exact ⟨hr,count_RECEIVER_DEAD.trans_le (Nat.zero_le _)⟩
    | _ => exact ⟨hr,hle⟩

theorem short_move (hs : Short p) (hm : PartyMove m p m' p' e) : Short p' := by
  cases hm with
  | @send id b x pc pc' m' e hm =>
    cases hm with
    | full => cases b <;> simp [Short]
    | commit => split_ifs <;> trivial
    | @spin data spin w pc' _ _ _ hcase =>
      have hs : spin ≤ 32 := hs
      rcases hcase with ⟨-,rfl⟩ | ⟨-,-,rfl⟩ | ⟨-,-,-,rfl⟩ | ⟨-,-,rfl⟩
      · trivial
      · trivial
      · trivial
      · exact (Nat.sub_le _ _).trans hs
    | _ => trivial
  | recv => trivial
  | drop hm => cases hm <;> trivial

theorem short_wake {n : ℕ} {w : Futex} {rest rest' : Multiset (Party c T)}
    (hw : Wake (woken w) n rest rest') (hs : ∀ q ∈ rest, Short q) : ∀ q ∈ rest', Short q := by
  refine hw.forall_mem (fun p q hpq _ => ?_) hs
  rcases woken_cases hpq with ⟨_,_,_,_,-,-,rfl⟩ | ⟨_,_,-,-,rfl⟩ <;> trivial

theorem fit_step (hf : Fit s) (hstep : CalmStep s e s') : Fit s' := by
  obtain ⟨hstep,hcalm⟩ := hstep
  obtain ⟨hr,hle,hs⟩ := hf
  have hcons {q : Party c T} {calls : Multiset (Party c T)} (hq : Short q)
      (hc : ∀ r ∈ calls, Short r) : ∀ r ∈ q ::ₘ calls, Short r := by
    simp only [Multiset.mem_cons, forall_eq_or_imp]
    exact ⟨hq,hc⟩
  cases step_moves hstep with
  | @move m m' ss r n p p' rest e hm =>
    obtain ⟨hr',hle'⟩ := fit_move hcalm hr hle hm
    obtain ⟨hp,hrest⟩ := Multiset.forall_mem_cons.mp hs
    exact ⟨hr',hle',hcons (short_move hp hm) hrest⟩
  | @wake m ss r n k w p p' rest rest' hp hw =>
    have hrest := (Multiset.forall_mem_cons.mp hs).2
    exact ⟨hr,hle,hcons (by cases hp <;> trivial) (short_wake hw hrest)⟩
  | @spurious m ss r n w p q rest hw =>
    have hrest := (Multiset.forall_mem_cons.mp hs).2
    refine ⟨hr,hle,hcons ?_ hrest⟩
    rcases woken_cases hw with ⟨_,_,_,_,-,-,rfl⟩ | ⟨_,_,-,-,rfl⟩ <;> trivial
  | @exit m m' ss r n p rest e hx =>
    obtain ⟨hsend,hrecv,-⟩ := exit_frame hx
    exact ⟨hrecv ▸ hr,hsend ▸ hle,(Multiset.forall_mem_cons.mp hs).2⟩
  | call_send => exact ⟨hr,hle,hcons trivial hs⟩
  | call_recv => exact ⟨hr,hle,hcons trivial hs⟩
  | clone_sender => exact ⟨hr,hle,hs⟩
  | drop_sender => exact ⟨hr,hle,hcons trivial hs⟩
  | drop_receiver => exact ⟨hr,hle,hcons trivial hs⟩

theorem fit_run (hrun : Steps CalmStep mpsc h s) : Fit s :=
  hrun.invariant Fit ⟨by simp [mpsc],by simp [mpsc],by simp [mpsc]⟩
    (fun _ _ _ hf hs => fit_step hf hs)

/-- A step that some call in flight takes by itself, and whether that call spins. -/
inductive Inside (s : State c T) : Bool × Event T → State c T → Prop
  | turn {p : Party c T} {e : Event T} {m : Inner c T} {calls : Multiset (Party c T)} :
      Turn (program c T) s.inner s.calls p e m calls →
      Inside s (stray s.inner p,e) { s with inner := m, calls := calls }

def turns_left (s : State c T) : ℕ := rank (gauge c T) s.inner s.calls

theorem Inside.step (hs : Inside s x t) : Step s x.2 t := by
  cases hs with
  | turn ht => exact .party ht.step

theorem Inside.card_le (hs : Inside s x t) : t.calls.card ≤ s.calls.card := by
  cases hs with
  | turn ht => exact ht.card_le

theorem turns_left_step (hk : Handles s) (hf : Fit s) (hcalm : Calm s) (hs : Inside s x t) :
    (!x.1).toNat+turns_left t ≤ turns_left s := by
  have hb (m : Inner c T) (q : Party c T) : (gauge c T).effort m q ≤ (gauge c T).most :=
    effort_le m q
  have hone (b : Bool) (i j : ℕ) (hlt : i < j) : (!b).toNat+i ≤ j := by
    have := Bool.toNat_le (!b)
    omega
  cases hs with
  | @turn p e m calls ht =>
    have hp := ht.mem
    simp only [turns_left]
    generalize hcalls : s.calls = cs at ht ⊢
    cases ht with
    | go hc =>
      cases hst : stray s.inner p with
      | true =>
        rw [rank_idle (go_idles hst hc).1]
        simp
      | false => exact hone _ _ _ (rank_go
          (go_descends (hk.ok _ hp) (hf.short _ hp) hf.recv hcalm hf.send hst hc)
          (fun q _ => hb _ q))
    | wake hc hw =>
      exact hone _ _ _ (rank_wake (waking_stage (code_wakes hc)) hw
        (fun _ _ hq => woken_stage hq) (fun q _ => hb _ q))
    | exit hc =>
      obtain ⟨hsl,hst⟩ := exit_stage (code_exits hc)
      exact hone _ _ _ (rank_exit hsl.le hst (fun q _ => hb _ q))

theorem inside_run (hrun : Steps Step mpsc h s) (hn : s.calls.card ≤ 2^60)
    (hk : Steps Inside s k t) : (∃ h', Steps Step mpsc h' t) ∧ t.calls.card ≤ s.calls.card ∧
      k.countP (fun x => !x.1)+turns_left t ≤ turns_left s := by
  refine hk.carries (fun k t => (∃ h', Steps Step mpsc h' t) ∧ t.calls.card ≤ s.calls.card ∧
    k.countP (fun x => !x.1)+turns_left t ≤ turns_left s) ⟨⟨h,hrun⟩,le_rfl,by simp⟩ ?_
  rintro k u x v - ⟨⟨h',hu⟩,hcard,hle⟩ hstep
  obtain ⟨hcalm,hnow⟩ := calm_run hu ((aborting_le_card u).trans (hcard.trans hn))
  have hlt := turns_left_step (handles_run hu) (fit_run hcalm) hnow hstep
  refine ⟨⟨_,hu.next hstep.step⟩,hstep.card_le.trans hcard,?_⟩
  rw [List.countP_append, List.countP_singleton]
  cases hx : x.1 <;> simp only [hx] at hlt ⊢ <;> simp at hlt ⊢ <;> omega

/-- A call that has nothing to do: it sleeps, has aborted, or spins. -/
def still (m : Inner c T) : Party c T → Bool
  | .send _ _ _ .abort => true
  | .send _ _ _ (.asleep _) => true
  | .recv _ _ .asleep => true
  | p => stray m p

def Resting (s : State c T) : Prop := ∀ p ∈ s.calls, still s.inner p = true

instance (s : State c T) : Decidable (Resting s) := Multiset.decidableForallMultiset

theorem blocked_still (hc : code m p = .blocked) : still m p = true := by
  cases p with
  | send id b x pc => cases pc <;> first | rfl | cases hc
  | recv id b pc =>
    cases pc with
    | read =>
      rw [code, recv_code] at hc
      split at hc <;> cases hc
    | asleep => rfl
    | _ => cases hc
  | drop_sender pc =>
    cases pc with
    | release =>
      rw [code, drop_sender_code, release_code] at hc
      split at hc <;> cases hc
    | free =>
      rw [code, drop_sender_code, free_code] at hc
      split at hc <;> cases hc
    | _ => cases hc
  | drop_receiver pc =>
    cases pc with
    | release =>
      rw [code, drop_receiver_code, release_code] at hc
      split at hc <;> cases hc
    | free =>
      rw [code, drop_receiver_code, free_code] at hc
      split at hc <;> cases hc
    | _ => cases hc

theorem stray_still (hs : stray m p = true) : still m p = true := by
  unfold still
  split <;> first | rfl | exact hs

theorem unrested_inside (hrun : Steps Step mpsc h s) (hn : s.calls.card ≤ 2^60)
    (hq : ¬ Resting s) : ∃ e t, Inside s (false,e) t := by
  simp only [Resting] at hq
  push Not at hq
  obtain ⟨p,hp,hstill⟩ := hq
  have hcalm := (calm_run hrun ((aborting_le_card s).trans hn)).1
  obtain ⟨e,m',calls,ht⟩ := exists_turn (P := program c T) hp
    (fun hc => hstill (blocked_still hc)) (SlotDelivery.no_ub (slots_run hcalm) hp)
  have hstray : stray s.inner p = false := by
    cases hs : stray s.inner p with
    | false => rfl
    | true => exact absurd (stray_still hs) hstill
  have hin := Inside.turn ht
  rw [hstray] at hin
  exact ⟨e,_,hin⟩

theorem resting_inside (hq : Resting s) (hs : Inside s x t) :
    x.1 = true ∧ Resting t ∧ t.inner = s.inner := by
  cases hs with
  | @turn p e m calls ht =>
    have hstill := hq p ht.mem
    have hstray : stray s.inner p = true := by
      unfold still at hstill
      split at hstill <;> first | exact hstill | exact absurd rfl ht.not_blocked
    refine ⟨hstray,?_⟩
    simp only [Resting] at hq ⊢
    generalize s.calls = cs at ht hq
    cases ht with
    | go hc =>
      obtain ⟨⟨rfl,-⟩,hstays⟩ := go_idles hstray hc
      refine ⟨?_,rfl⟩
      simp only [Multiset.mem_cons, forall_eq_or_imp] at hq ⊢
      exact ⟨stray_still hstays,hq.2⟩
    | wake hc => cases code_wakes hc <;> simp [stray] at hstray
    | exit hc => cases code_exits hc <;> simp [stray] at hstray

theorem rests (hrun : Steps Step mpsc h s) (hn : s.calls.card ≤ 2^60) :
    ∃ k t, Steps Inside s k t ∧ Resting t := by
  generalize hleft : turns_left s = n
  induction n using Nat.strong_induction_on generalizing h s with
  | _ n ih =>
    by_cases hq : Resting s
    · exact ⟨[],s,.refl,hq⟩
    · obtain ⟨e,t,hstep⟩ := unrested_inside hrun hn hq
      have hone := Steps.single hstep
      obtain ⟨⟨h',ht⟩,hcard,hlt⟩ := inside_run hrun hn hone
      rw [List.countP_singleton] at hlt
      have hlt : turns_left t < n := by
        simp only [Bool.not_false, if_true] at hlt
        omega
      obtain ⟨k,u,hk,hu⟩ := ih _ hlt ht (hcard.trans hn) rfl
      exact ⟨_,u,hone.trans hk,hu⟩

theorem stage_le (p : Party c T) : stage p ≤ most c+12 := by
  cases p with
  | send id b x pc => cases pc <;> simp [stage]
  | recv id b pc => cases pc <;> simp [stage]
  | drop_sender pc => cases pc <;> simp [stage,stage_sender]
  | drop_receiver pc => cases pc <;> simp [stage,stage_receiver]

/-- How many turns a number of calls can take that nobody joins. -/
def most_turns (c : Target) (calls : ℕ) : ℕ :=
  (most c+2+(most c+12)*calls)*(70*calls+1)+70*calls

theorem turns_left_le (s : State c T) : turns_left s ≤ most_turns c s.calls.card := by
  refine rank_le (G := gauge c T) ?_ (fun q _ => stage_le q) (fun q _ => effort_le _ q)
  have h1 := Bool.toNat_le (!sleeping s.inner.send)
  have h2 := Bool.toNat_le (!RecvStatus.sleeping s.inner.recv)
  simp only [gauge, slack]
  omega

theorem still_quiet (hs : still m p = true) : footprint p = .idle ∧ recv_wakes p = 0 ∧
    wakes p = 0 ∧ rearming p = 0 ∧ trying p = 0 := by
  cases p with
  | send id b x pc => cases pc <;> first | exact ⟨rfl,rfl,rfl,rfl,rfl⟩ | simp [still,stray] at hs
  | recv id b pc => cases pc <;> first | exact ⟨rfl,rfl,rfl,rfl,rfl⟩ | simp [still,stray] at hs
  | drop_sender => simp [still,stray] at hs
  | drop_receiver => simp [still,stray] at hs

theorem still_recv {id : ℕ} {b : Bool} {pc : RecvPc T} (hs : still m (.recv id b pc) = true) :
    pc = .asleep ∨ m.recv = RecvStatus.SLEEPING := by
  cases b <;> cases pc <;> simp_all [still,stray]

theorem watched_rest (hw : Watched s.inner s.calls) (hq : Resting s) {id : ℕ} {b : Bool}
    {pc : RecvPc T} (hp : .recv id b pc ∈ s.calls) : s.inner.recv = RecvStatus.SLEEPING := by
  rcases still_recv (hq _ hp) with rfl | hs
  · have ha : Asleep .recv s := ⟨_,hp,rfl⟩
    rcases hw ((asleep_iff .recv s).mp ha) with hs | hs
    · exact hs
    · rw [weigh_eq_zero _ (fun q h => (still_quiet (hq q h)).2.1)] at hs
      exact absurd hs (lt_irrefl 0)
  · exact hs

theorem torch_rest (ho : OpenOrDead s) (hi : PoolSlots.Inv (view h s))
    (ht : PoolTorch.Inv (torch s.inner s.calls)) (hq : Resting s) (hr : s.receiver = true)
    (ha : Asleep .send s) : RecvStatus.commit s.inner.recv = true := by
  have hdead := open_alive ho hr
  have hcount : count s.inner.send ≠ 0 := by
    intro h0
    have hbusy := ht.busy ((asleep_iff .send s).mp ha) (by simp [torch,free,hdead,h0])
    simp only [torch, weigh_eq_zero _ (fun q h => (still_quiet (hq q h)).2.2.1),
      weigh_eq_zero _ (fun q h => (still_quiet (hq q h)).2.2.2.1),
      weigh_eq_zero _ (fun q h => (still_quiet (hq q h)).2.2.2.2)] at hbusy
    exact absurd hbusy (lt_irrefl 0)
  have hitem := SlotAtomic.full_alone hi hdead hcount (fun q h => (still_quiet (hq q h)).1)
  cases hc : RecvStatus.commit s.inner.recv with
  | true => rfl
  | false => simp [SlotAtomic.content,hc] at hitem

theorem rest_receive (hrun : Steps Step mpsc h s) (hq : Resting s) {id : ℕ} {b : Bool}
    {pc : RecvPc T} (hp : .recv id b pc ∈ s.calls) : s.inner.recv = RecvStatus.SLEEPING :=
  watched_rest (watched_run hrun) hq hp

theorem rest_send (hrun : Steps Step mpsc h s) (hn : s.calls.card ≤ 2^60) (hq : Resting s)
    (hr : s.receiver = true) (ha : Asleep .send s) : RecvStatus.commit s.inner.recv = true := by
  have hcalm := (calm_run hrun ((aborting_le_card s).trans hn)).1
  exact torch_rest (open_run hcalm) (slots_run hcalm) (torch_run hcalm).1 hq hr ha

/-- Left alone, the calls of any reachable state come to rest: they take boundedly many
turns, whoever takes them, besides the rounds of a receive that spins, and until then
somebody has a turn. At rest a receive waits on an empty slot, and a send on a full one. -/
theorem slot_comes_to_rest (hrun : Steps Step mpsc h s) (hn : s.calls.card ≤ 2^60) :
    (∀ k t, Steps Inside s k t →
      k.countP (fun x => !x.1) ≤ most_turns c s.calls.card ∧
      (Resting t ↔ ∀ x u, Inside t x u → x.1 = true) ∧
      (Resting t → ∀ id b pc, .recv id b pc ∈ t.calls →
        RecvStatus.commit t.inner.recv = false ∧ RecvStatus.dead t.inner.recv = false ∧
          (t.receiver = true → ¬ Asleep .send t)) ∧
      (Resting t → t.receiver = true → Asleep .send t →
        RecvStatus.commit t.inner.recv = true)) ∧
    ∃ k t, Steps Inside s k t ∧ Resting t := by
  refine ⟨fun k t hk => ?_,rests hrun hn⟩
  obtain ⟨⟨h',ht⟩,hcard,hlen⟩ := inside_run hrun hn hk
  have hmost := turns_left_le s
  refine ⟨by omega,⟨fun hq x u hx => (resting_inside hq hx).1,fun hall => ?_⟩,?_,
    rest_send ht (hcard.trans hn)⟩
  · by_contra hq
    obtain ⟨e,u,hu⟩ := unrested_inside ht (hcard.trans hn) hq
    cases hall _ u hu
  · intro hq id b pc hp
    have hs := rest_receive ht hq hp
    refine ⟨by simp [hs],by simp [hs],fun hr ha => ?_⟩
    have hc := rest_send ht (hcard.trans hn) hq hr ha
    simp [hs] at hc

def three_calls : List (Command ℕ) :=
  [Command.clone_sender 0,Command.call_send 0 true 7,Command.call_send 1 true 8,
    Command.call_recv true]

theorem slot_comes_to_rest_three : ∃ (h : List (Event ℕ)) (s : State .portable ℕ),
    Steps Step mpsc h s ∧ s.calls.card = 3 ∧
      ∃ k t, Steps Inside s k t ∧ Resting t ∧ k.countP (fun x => !x.1) ≤ 9072 := by
  obtain ⟨h,s,hr,h3⟩ := reaches .portable three_calls (fun _ s => s.calls.card = 3)
    (by decide +kernel)
  have hn : s.calls.card ≤ 2^60 := by
    rw [h3]
    decide
  obtain ⟨hall,k,t,hk,hq⟩ := slot_comes_to_rest hr hn
  have hlen := (hall k t hk).1
  rw [h3] at hlen
  exact ⟨h,s,hr,h3,k,t,hk,hq,hlen⟩

end Runs
end Lockness.SlotRest
