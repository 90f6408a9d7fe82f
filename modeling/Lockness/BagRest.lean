import Lockness.BagProgress
import Lockness.BagSleep
import Lockness.PoolRest

/-!
# The bag comes to rest

While nobody calls, clones or drops, and no sleeper wakes by itself, the calls in
flight take a bounded number of turns in any order. Then all that are left are
asleep. A reservation that is refused because of others, a wake-up, an armed bit:
each tells that somebody else has made progress.
-/

set_option autoImplicit false

namespace Lockness.BagRest
open Lockness.PoolRuns Lockness.PoolFutex Lockness.PoolRest Lockness.BagMasks Lockness.BagRequest
open Lockness.BagMachine Lockness.BagMoves Lockness.BagInversion Lockness.BagHandles
open Lockness.BagBoard Lockness.BagOwnership Lockness.BagSleep
open Lockness.BagSchedule (Command reaches)
open Lockness.BagProgress (slots_card_le_thirty clear_extra_bits_free)

variable {T : Type*} {c : Target T} {m m' : Inner T} {p p' : Party T} {e : Event T}

def stage_drop : DropPc → ℕ
  | .count => 5
  | .raise => 4
  | .wake => 3
  | .release => 2
  | .free => 1

def stage : Party T → ℕ
  | .send _ _ _ (.write _ _ todo) => (slots (N := 30) todo).card+5
  | .send _ _ _ .wake => 3
  | .send _ _ _ (.done _) => 1
  | .send _ _ _ _ => 40
  | .recv _ _ _ (.read _ todo _) => (slots (N := 30) todo).card+6
  | .recv _ _ _ (.wake _) => 3
  | .recv _ _ _ (.done _) => 1
  | .recv _ _ _ _ => 40
  | .drop_sender pc => stage_drop pc
  | .drop_receiver pc => stage_drop pc

def slack (m : Inner T) : ℕ := (!sleeping m.send).toNat+(!sleeping (~~~m.recv)).toNat

/-- The tries of a call on words that stay: a request that the word refuses, the spin
loop, and falling asleep. -/
def effort (m : Inner T) : Party T → ℕ
  | .send _ _ _ (.reserve _ _ mask) => if slots (N := 30) m.send = Finset.univ then 50
    else if slots (N := 30) mask ⊆ slots m.send then 8 else 7
  | .send _ _ _ (.spin _ spin) => min spin 32+10
  | .send _ _ _ (.sleep _ expected) => if m.send = expected then 1 else 60
  | .send _ _ _ (.rearm _) => 55
  | .recv _ _ _ .claim => if slots (N := 30) m.recv = ∅ then 50 else 5
  | .recv _ _ _ (.spin spin) => min spin 32+10
  | .recv _ _ _ (.sleep expected) => if m.recv = expected then 1 else 60
  | .recv _ _ _ .rearm => 55
  | _ => 0

def gauge (T : Type*) : Gauge (Inner T) (Party T) where
  slack := slack
  stage := stage
  effort := effort
  most := 60

theorem effort_le (m : Inner T) (p : Party T) : effort m p ≤ 60 := by
  unfold effort
  split <;> try split_ifs
  all_goals omega

def Short : Party T → Prop
  | .send _ _ _ (.spin _ spin) => spin ≤ 32
  | .recv _ _ _ (.spin spin) => spin ≤ 32
  | _ => True

section Turns

variable {id : ℕ} {b : Bool}

theorem forward (h : slack m'+stage p' < slack m+stage p) : Descends (gauge T) m p m' p' := .inl h

theorem again (hs : m'.send = m.send) (hr : m'.recv = m.recv) (hst : stage p' = stage p)
    (he : effort m p' < effort m p) : Descends (gauge T) m p m' p' := by
  refine .inr ⟨?_,fun q => ?_,he⟩
  · simp only [gauge, slack, hs, hr, hst]
  · simp only [gauge]
    unfold effort
    rw [hs, hr]

theorem stage_try_send (x : Sender) (d : SendBuffer T) :
    stage (.send id b x (try_send x d)) ≤ 40 := by
  rcases try_send_spec x d with ⟨-,ht⟩ | ⟨-,_,-,ht⟩ <;> rw [ht] <;> simp [stage]

theorem effort_try_send (m : Inner T) (x : Sender) (d : SendBuffer T) :
    effort m (.send id b x (try_send x d)) ≤ 50 ∧ (slots (N := 30) m.send ≠ Finset.univ →
      effort m (.send id b x (try_send x d)) ≤ 8) := by
  rcases try_send_spec x d with ⟨-,ht⟩ | ⟨-,_,-,ht⟩ <;> rw [ht]
  · simp [effort]
  · simp only [effort]
    constructor
    · split_ifs <;> omega
    · intro hne
      rw [if_neg hne]
      split_ifs <;> omega

theorem armed_or_same {v w : Word} (hs : slots (N := 30) w = slots v) (hd : dead w = dead v)
    (hl : sleeping v = true → sleeping w = true) :
    w = v ∨ sleeping v = false ∧ sleeping w = true := by
  cases hv : sleeping v with
  | true => exact .inl (word_ext hs hd ((hl hv).trans hv.symm))
  | false =>
    cases hw : sleeping w with
    | true => exact .inr ⟨rfl,rfl⟩
    | false => exact .inl (word_ext hs hd (hw.trans hv.symm))

theorem arming (h : m'.send = m.send ∧ m'.recv = m.recv ∨ slack m' < slack m)
    (hst : stage p' ≤ stage p) (he : m'.send = m.send → m'.recv = m.recv →
      stage p' = stage p → effort m p' < effort m p) : Descends (gauge T) m p m' p' := by
  rcases h with ⟨hs,hr⟩ | hlt
  · rcases hst.lt_or_eq with hlt | heq
    · exact forward (by simp only [slack, hs, hr]; omega)
    · exact again hs hr heq (he hs hr heq)
  · exact forward (by omega)

theorem arming_send {w : Word} (hs : slots (N := 30) w = slots m.send)
    (hd : dead w = dead m.send) (hl : sleeping m.send = true → sleeping w = true) :
    w = m.send ∧ m.recv = m.recv ∨ slack { m with send := w } < slack m := by
  rcases armed_or_same hs hd hl with hw | ⟨h0,h1⟩
  · exact .inl ⟨hw,rfl⟩
  · exact .inr (by simp [slack,h0,h1])

theorem arming_recv {w : Word} (hs : slots (N := 30) w = slots m.recv)
    (hd : dead (~~~w) = dead (~~~m.recv))
    (hl : sleeping (~~~m.recv) = true → sleeping (~~~w) = true) :
    m.send = m.send ∧ w = m.recv ∨ slack { m with recv := w } < slack m := by
  rcases armed_or_same (by simp [hs]) hd hl with hw | ⟨h0,h1⟩
  · exact .inl ⟨rfl,BitVec.not_inj.mp hw⟩
  · exact .inr (by simp only [slack, h0, h1]; simp)

theorem send_descends {x : Sender} {d : SendBuffer T} {pc pc' : SendPc T} (hok : SendOk b d pc)
    (hsh : Short (.send id b x pc)) (hm : SendMove m b x pc m' pc' e)
    (hne : ∀ data w, pc ≠ .sleep data w) :
    Descends (gauge T) m (.send id b x pc) m' (.send id b x pc') := by
  cases hm with
  | refuse _ _ _ _ _ hl => exact forward (by simp [slack,hl,stage])
  | full _ _ hs =>
    cases b with
    | false => exact forward (by simp [stage])
    | true => exact again rfl rfl rfl (by simp [effort,hs])
  | @reserve _ _ mask reserved w _ _ _ _ _ hl =>
    have := slots_card_le_thirty reserved
    exact forward (by simp only [slack, hl, stage]; omega)
  | @retry items data mask hd hsub hu =>
    have hfree := clear_extra_bits_free m.send items (x.bias%2 = 0)
    have hbare : Bare (~~~(m.send ||| Status.all)) := bare_not_all m.send
    have hsome := clear_extra_bits_nonempty _ items (x.bias%2 = 0) hbare hok.2.2.1
      (by simpa using hu)
    refine again rfl rfl rfl ?_
    rw [effort, effort, if_neg hu, if_neg hu, if_pos hsub, if_neg]
    · omega
    · intro h
      obtain ⟨i,hi⟩ := Finset.nonempty_iff_ne_empty.mpr hsome
      exact Finset.mem_compl.mp (hfree hi) (h hi)
  | write hi ht =>
    refine forward ?_
    simp only [slack, stage, ht]
    have := Finset.card_erase_lt_of_mem hi
    omega
  | @commit data reserved todo w ht =>
    refine forward ?_
    have := Bool.toNat_le (sleeping w)
    cases sleeping (~~~m.recv) <;> simp only [slack, stage, ht] <;> simp <;> omega
  | @spin data spin pc' w hs hd hl hcase =>
    have hspin : min spin 32 = spin := min_eq_left hsh
    refine arming (arming_send hs hd hl) ?_ (fun hw _ hst => ?_)
    · rcases hcase with ⟨-,rfl⟩ | ⟨-,-,rfl⟩ | ⟨-,-,-,rfl⟩ | ⟨-,rfl⟩
      · exact stage_try_send x data
      all_goals simp [stage]
    · rcases hcase with ⟨hne,rfl⟩ | ⟨-,-,rfl⟩ | ⟨-,-,-,rfl⟩ | ⟨h0,rfl⟩
      · have htry : effort m (.send id b x (try_send x data)) ≤ 8 :=
          (effort_try_send m x data).2 (hs ▸ hne)
        exact htry.trans_lt (by simp only [effort]; omega)
      · simp [effort]
      · have hw : w = m.send := hw
        simp only [effort, hw, if_true]
        omega
      · simp only [effort]
        omega
  | sleep => exact absurd rfl (hne _ _)
  | miss => exact absurd rfl (hne _ _)
  | rearm hs hd hl =>
    refine arming (arming_send hs hd (fun _ => hl)) (stage_try_send x _) (fun _ _ _ => ?_)
    exact (effort_try_send m x _).1.trans_lt (show 50 < 55 by omega)

theorem recv_descends {x : ℕ} {pc pc' : RecvPc T} (hsh : Short (.recv id b x pc))
    (hm : RecvMove m b pc m' pc' e) (hne : ∀ w, pc ≠ .sleep w) :
    Descends (gauge T) m (.recv id b x pc) m' (.recv id b x pc') := by
  cases hm with
  | none hs hcase =>
    rcases hcase with ⟨-,rfl⟩ | ⟨-,rfl⟩
    · exact forward (by simp [stage])
    · cases b with
      | false => exact forward (by simp [stage])
      | true => exact again rfl rfl rfl (by simp [effort,hs])
  | @claim claimed w _ _ _ _ hl =>
    have := slots_card_le_thirty claimed
    exact forward (by simp only [slack, hl, stage]; omega)
  | read hi ht =>
    refine forward ?_
    simp only [slack, stage, ht]
    have := Finset.card_erase_lt_of_mem hi
    omega
  | @release claimed todo w values ht =>
    refine forward ?_
    have := Bool.toNat_le (!sleeping w)
    cases sleeping m.send <;> simp only [slack, stage, ht] <;> simp <;> omega
  | @spin spin pc' w hs hd hl hcase =>
    have hspin : min spin 32 = spin := min_eq_left hsh
    refine arming (arming_recv hs hd hl) ?_ (fun _ hw hst => ?_)
    · rcases hcase with ⟨-,rfl⟩ | ⟨-,-,rfl⟩ | ⟨-,-,-,rfl⟩ | ⟨-,rfl⟩ <;> simp [stage]
    · rcases hcase with ⟨hne,rfl⟩ | ⟨-,-,rfl⟩ | ⟨-,-,-,rfl⟩ | ⟨h0,rfl⟩
      · simp only [effort, if_neg (hs ▸ hne).ne_empty]
        omega
      · simp [effort]
      · have hw : w = m.recv := hw
        simp only [effort, hw, if_true]
        omega
      · simp only [effort]
        omega
  | sleep => exact absurd rfl (hne _)
  | miss => exact absurd rfl (hne _)
  | rearm hs hd hl =>
    refine arming (arming_recv hs hd (fun _ => hl)) le_rfl (fun _ _ _ => ?_)
    simp only [effort]
    split_ifs <;> omega

theorem drop_descends (hm : DropMove m p m' p' e) : Descends (gauge T) m p m' p' := by
  refine forward ?_
  cases hm with
  | sender_count | receiver_count =>
    simp only [slack, stage]
    split_ifs <;> simp [stage_drop]
  | sender_raise _ _ hl =>
    simp only [slack, stage, hl]
    split_ifs <;> simp [stage_drop]
  | receiver_raise _ _ hl =>
    simp only [slack, stage, hl]
    split_ifs <;> simp [stage_drop]
  | last_sender | last_receiver => simp [slack,stage,stage_drop]

theorem sleep_descends (hc : code c m p = .go m' p' e)
    (hp : (∃ id b x d w, p = .send id b x (.sleep d w)) ∨ ∃ id b x w, p = .recv id b x (.sleep w)) :
    Descends (gauge T) m p m' p' := by
  rcases hp with ⟨id,b,x,d,w,rfl⟩ | ⟨id,b,x,w,rfl⟩
  · simp only [code, send_code, Outcome.go.injEq] at hc
    obtain ⟨rfl,rfl,-⟩ := hc
    by_cases hw : m.send = w <;> simp only [hw, if_true, if_false] <;>
      exact again rfl rfl rfl (by simp [effort,hw])
  · simp only [code, recv_code, Outcome.go.injEq] at hc
    obtain ⟨rfl,rfl,-⟩ := hc
    by_cases hw : m.recv = w <;> simp only [hw, if_true, if_false] <;>
      exact again rfl rfl rfl (by simp [effort,hw])

theorem go_descends (hok : Ok p) (hsh : Short p) (hc : code c m p = .go m' p' e) :
    Descends (gauge T) m p m' p' := by
  by_cases hp : (∃ id b x d w, p = .send id b x (.sleep d w)) ∨
      ∃ id b x w, p = .recv id b x (.sleep w)
  · exact sleep_descends hc hp
  · push Not at hp
    cases code_moves hok hc with
    | send hm =>
      obtain ⟨-,d,hok⟩ := hok
      exact send_descends hok hsh hm (fun data w h => hp.1 _ _ _ data w (by rw [h]))
    | recv hm => exact recv_descends hsh hm (fun w h => hp.2 _ _ _ w (by rw [h]))
    | drop hm => exact drop_descends hm

theorem waking_stage {w : Futex} {n : ℕ} (hw : Waking p w n p') : stage p' < stage p := by
  cases hw <;> simp [stage,stage_drop]

theorem woken_stage {w : Futex} (hw : woken w p = some p') : stage p' = stage p := by
  rcases woken_cases hw with ⟨_,_,_,_,-,rfl,rfl⟩ | ⟨_,_,_,-,rfl,rfl⟩ <;> rfl

theorem exit_stage (hx : Exit c m p m' e) : slack m' = slack m ∧ 0 < stage p := by
  cases hx with
  | sender_free hd => exact ⟨by rw [(drop_inner_spec hd).1]; rfl,by simp [stage,stage_drop]⟩
  | receiver_free hd => exact ⟨by rw [(drop_inner_spec hd).1]; rfl,by simp [stage,stage_drop]⟩
  | _ => exact ⟨rfl,by simp [stage,stage_drop]⟩

end Turns

section Runs

variable {h k : List (Event T)} {s t : BagMachine.State T}

/-- A step that some call in flight takes by itself. -/
inductive Inside (c : Target T) (s : BagMachine.State T) : Event T → BagMachine.State T → Prop
  | turn {p : Party T} {e : Event T} {m : Inner T} {calls : Multiset (Party T)} :
      Turn (program c) s.inner s.calls p e m calls →
      Inside c s e { s with inner := m, calls := calls }

def turns_left (s : BagMachine.State T) : ℕ := rank (gauge T) s.inner s.calls

theorem Inside.step (hs : Inside c s e t) : BagMachine.Step c s e t := by
  cases hs with
  | turn ht => exact .party ht.step

theorem short_try_send (id : ℕ) (b : Bool) (x : Sender) (d : SendBuffer T) :
    Short (.send id b x (try_send x d)) := by
  rcases try_send_spec x d with ⟨-,ht⟩ | ⟨-,_,-,ht⟩ <;> rw [ht] <;> trivial

theorem short_move (hs : Short p) (hm : PartyMove m p m' p' e) : Short p' := by
  cases hm with
  | @send id b x pc pc' m' e hm =>
    cases hm with
    | full => cases b <;> simp [Short]
    | commit => split_ifs <;> trivial
    | @spin data spin pc' w _ _ _ hcase =>
      have hs : spin ≤ 32 := hs
      rcases hcase with ⟨-,rfl⟩ | ⟨-,-,rfl⟩ | ⟨-,-,-,rfl⟩ | ⟨-,rfl⟩
      · exact short_try_send id b x data
      · trivial
      · trivial
      · exact (Nat.sub_le _ _).trans hs
    | rearm => exact short_try_send id b x _
    | _ => trivial
  | @recv id b x pc pc' m' e hm =>
    cases hm with
    | none _ hcase => rcases hcase with ⟨-,rfl⟩ | ⟨-,rfl⟩ <;> cases b <;> simp [Short]
    | release => split_ifs <;> trivial
    | @spin spin pc' w _ _ _ hcase =>
      have hs : spin ≤ 32 := hs
      rcases hcase with ⟨-,rfl⟩ | ⟨-,-,rfl⟩ | ⟨-,-,-,rfl⟩ | ⟨-,rfl⟩
      · trivial
      · trivial
      · trivial
      · exact (Nat.sub_le _ _).trans hs
    | _ => trivial
  | drop hd => cases hd <;> trivial

theorem short_step (hk : Handles h s) (hs : ∀ p ∈ s.calls, Short p)
    (hstep : BagMachine.Step c s e t) : ∀ p ∈ t.calls, Short p := by
  have hcons {q : Party T} (hq : Short q) : ∀ p ∈ q ::ₘ s.calls, Short p := by
    simp only [Multiset.mem_cons, forall_eq_or_imp]
    exact ⟨hq,hs⟩
  cases hstep with
  | party hp =>
    refine party_forall hk.ok (fun _ _ _ hq hm => short_move hq hm) (fun _ _ _ _ _ hw => ?_)
      (fun _ _ _ _ hw => ?_) hp hs
    · cases hw <;> trivial
    · rcases woken_cases hw with ⟨_,_,_,_,-,-,rfl⟩ | ⟨_,_,_,-,-,rfl⟩ <;> trivial
  | call_send => exact hcons (short_try_send _ _ _ _)
  | call_recv => exact hcons trivial
  | drop_sender => exact hcons trivial
  | drop_receiver => exact hcons trivial
  | _ => exact hs

theorem short_run (hrun : Steps (BagMachine.Step c) mpmc h s) : ∀ p ∈ s.calls, Short p :=
  hrun.carries (fun _ s => ∀ p ∈ s.calls, Short p) (by simp [mpmc])
    (fun _ _ _ _ hr hs hstep => short_step (handles_run hr) hs hstep)

theorem turns_left_lt (hk : Handles h s) (hs : ∀ p ∈ s.calls, Short p) (hstep : Inside c s e t) :
    turns_left t < turns_left s := by
  cases hstep with
  | turn ht =>
    have hb (m : Inner T) (q : Party T) : (gauge T).effort m q ≤ (gauge T).most := effort_le m q
    simp only [turns_left]
    generalize hcalls : s.calls = cs at ht ⊢
    cases ht with
    | go hc =>
      have hp : _ ∈ s.calls := hcalls ▸ Multiset.mem_cons_self _ _
      exact rank_go (go_descends (hk.ok _ hp) (hs _ hp) hc) (fun q _ => hb _ q)
    | wake hc hw =>
      exact rank_wake (waking_stage (code_wakes hc)) hw (fun _ _ hq => woken_stage hq)
        (fun q _ => hb _ q)
    | exit hc =>
      obtain ⟨hsl,hst⟩ := exit_stage (code_exits hc)
      exact rank_exit hsl.le hst (fun q _ => hb _ q)

theorem inside_run (hrun : Steps (BagMachine.Step c) mpmc h s) (hk : Steps (Inside c) s k t) :
    k.length+turns_left t ≤ turns_left s := by
  refine hk.carries (fun k t => k.length+turns_left t ≤ turns_left s) (by simp) ?_
  intro k u e v hr hle hstep
  have hu := hrun.trans (hr.mono (fun _ _ _ => Inside.step))
  have hlt := turns_left_lt (handles_run hu) (short_run hu) hstep
  rw [List.length_append, List.length_singleton]
  omega

theorem blocked_asleep (hc : code c m p = .blocked) :
    (woken .send p).isSome ∨ (woken .recv p).isSome := by
  cases p with
  | send id b x pc =>
    cases pc with
    | reserve items data mask =>
      exact absurd hc (ne_blocked (try_send_reserve_inward items data mask))
    | write data reserved todo =>
      exact absurd hc (ne_blocked (try_send_write_inward data reserved todo))
    | asleep => exact .inl rfl
    | _ => cases hc
  | recv id b x pc =>
    cases pc with
    | claim => exact absurd hc (ne_blocked try_recv_claim_inward)
    | read claimed todo values =>
      exact absurd hc (ne_blocked (try_recv_read_inward claimed todo values))
    | asleep => exact .inr rfl
    | _ => cases hc
  | drop_sender pc =>
    cases pc with
    | release =>
      simp only [code, drop_sender_code, release_code] at hc
      split at hc <;> cases hc
    | free =>
      simp only [code, drop_sender_code, free_code] at hc
      split at hc <;> cases hc
    | _ => cases hc
  | drop_receiver pc =>
    cases pc with
    | release =>
      simp only [code, drop_receiver_code, release_code] at hc
      split at hc <;> cases hc
    | free =>
      simp only [code, drop_receiver_code, free_code] at hc
      split at hc <;> cases hc
    | _ => cases hc

theorem awake_inside (hrun : Steps (BagMachine.Step c) mpmc h s) (hq : ¬ Quiescent s) :
    ∃ e t, Inside c s e t := by
  simp only [Quiescent] at hq
  push Not at hq
  obtain ⟨p,hp,hsend,hrecv⟩ := hq
  have hb : code c s.inner p ≠ .blocked := by
    intro hc
    rcases blocked_asleep hc with h0 | h0
    · exact hsend h0
    · exact hrecv h0
  obtain ⟨e,m',calls,ht⟩ := exists_turn (P := program c) hp hb
    (no_ub (handles_run hrun) (slots_run hrun) hp)
  exact ⟨e,_,.turn ht⟩

theorem quiescent_inside (hq : Quiescent s) (hstep : Inside c s e t) : False := by
  cases hstep with
  | turn ht =>
    generalize hcalls : s.calls = cs at ht
    have hmem {p : Party T} {rest : Multiset (Party T)} (hc : s.calls = p ::ₘ rest) :
        code c s.inner p = .blocked := by
      rcases hq p (by simp [hc]) with h0 | h0
      all_goals
        obtain ⟨q,hw⟩ := Option.isSome_iff_exists.mp h0
        rcases woken_cases hw with ⟨_,_,_,_,-,rfl,-⟩ | ⟨_,_,_,-,rfl,-⟩ <;> rfl
    cases ht with
    | go hc => cases (hmem hcalls).symm.trans hc
    | wake hc => cases (hmem hcalls).symm.trans hc
    | exit hc => cases (hmem hcalls).symm.trans hc

theorem rests (hrun : Steps (BagMachine.Step c) mpmc h s) :
    ∃ k t, Steps (Inside c) s k t ∧ Quiescent t := by
  generalize hn : turns_left s = n
  induction n using Nat.strong_induction_on generalizing h s with
  | _ n ih =>
    by_cases hq : Quiescent s
    · exact ⟨[],s,.refl,hq⟩
    · obtain ⟨e,t,hstep⟩ := awake_inside hrun hq
      have hlt := turns_left_lt (handles_run hrun) (short_run hrun) hstep
      obtain ⟨k,u,hk,hu⟩ := ih _ (hn ▸ hlt) (hrun.next hstep.step) rfl
      exact ⟨_,u,(Steps.single hstep).trans hk,hu⟩

theorem stage_le (p : Party T) : stage p ≤ 40 := by
  cases p with
  | send id b x pc =>
    cases pc with
    | write data reserved todo =>
      have := slots_card_le_thirty todo
      simp only [stage]
      omega
    | _ => simp [stage]
  | recv id b x pc =>
    cases pc with
    | read claimed todo values =>
      have := slots_card_le_thirty todo
      simp only [stage]
      omega
    | _ => simp [stage]
  | drop_sender pc | drop_receiver pc => cases pc <;> simp [stage,stage_drop]

theorem turns_left_le (s : BagMachine.State T) : turns_left s ≤
    (2+40*s.calls.card)*(60*s.calls.card+1)+60*s.calls.card := by
  refine rank_le (G := gauge T) ?_ (fun q _ => stage_le q) (fun q _ => effort_le _ q)
  have h1 := Bool.toNat_le (!sleeping s.inner.send)
  have h2 := Bool.toNat_le (!sleeping (~~~s.inner.recv))
  simp only [gauge, slack]
  omega

theorem rest_empty (hrun : Steps (BagMachine.Step c) mpmc h s) (hq : Quiescent s)
    (ha : Asleep .recv s) : slots (N := 30) s.inner.send = ∅ ∧ ¬ Asleep .send s := by
  have hr : s.receivers ≠ 0 := by
    obtain ⟨p,hp,hsome⟩ := ha
    obtain ⟨q,hw⟩ := Option.isSome_iff_exists.mp hsome
    rcases woken_cases hw with ⟨_,_,_,_,h0,-⟩ | ⟨_,_,x,-,rfl,-⟩
    · cases h0
    · intro h0
      have hmem := (handles_run hrun).receiver _ hp x rfl
      simp [h0] at hmem
  have hempty : slots (N := 30) s.inner.send = ∅ := by
    have hwork := (quiescent_asleep hrun hq ha).2
    rw [← quiescent_ready hrun hq hr]
    simpa [BagTorch.work] using hwork
  refine ⟨hempty,fun hs => ?_⟩
  have hwork := (quiescent_asleep hrun hq hs).2
  simp [BagTorch.work,hempty] at hwork

/-- Left alone, the calls of any reachable state come to rest after boundedly many turns,
whoever takes them; until then somebody has a turn. -/
theorem comes_to_rest (hrun : Steps (BagMachine.Step c) mpmc h s) :
    (∀ k t, Steps (Inside c) s k t →
      k.length ≤ (2+40*s.calls.card)*(60*s.calls.card+1)+60*s.calls.card ∧
      (Quiescent t ↔ ∀ e u, ¬ Inside c t e u) ∧
      (Quiescent t → Asleep .recv t →
        slots (N := 30) t.inner.send = ∅ ∧ ¬ Asleep .send t)) ∧
    ∃ k t, Steps (Inside c) s k t ∧ Quiescent t := by
  refine ⟨fun k t hk => ?_,rests hrun⟩
  have ht := hrun.trans (hk.mono (fun _ _ _ => Inside.step))
  have hlen := inside_run hrun hk
  have hmost := turns_left_le s
  refine ⟨by omega,⟨fun hq e u => quiescent_inside hq,fun hno => ?_⟩,rest_empty ht⟩
  by_contra hq
  obtain ⟨e,u,hstep⟩ := awake_inside ht hq
  exact hno e u hstep

def three_calls : List (Command ℕ) :=
  [Command.call_send 0 true (.vec [1,2,3]),Command.call_recv 0 true,
    Command.call_send 0 true (.value 4)]

theorem comes_to_rest_three : ∃ (h : List (Event ℕ)) (s : BagMachine.State ℕ),
    Steps (BagMachine.Step .release) mpmc h s ∧ s.calls.card = 3 ∧
      ∃ k t, Steps (Inside .release) s k t ∧ Quiescent t ∧ k.length ≤ 22262 := by
  obtain ⟨h,s,hr,h3⟩ := reaches (c := .release) three_calls
    (fun _ s => s.calls.card = 3) (by decide +kernel)
  obtain ⟨hall,k,t,hk,hq⟩ := comes_to_rest hr
  have hlen := (hall k t hk).1
  rw [h3] at hlen
  exact ⟨h,s,hr,h3,k,t,hk,hq,hlen⟩

end Runs

end Lockness.BagRest
