import Lockness.SlotSleep

/-!
# How receivers and senders fall asleep

`recv` goes to sleep if its word was empty before it set `SLEEPING`. A commit and
a receive clear that bit, but the wait that returns does not. When it returns for
any other reason than a commit or the death of the senders, the bit is left
behind, and `recv` spins until somebody commits.

A send falls asleep if the part of its word that the futex compares is as it
was. That part has the flags, but on x86-64 not the count.
-/

set_option autoImplicit false

namespace Lockness.SlotBlocking
open Lockness.PoolRuns Lockness.PoolFutex Lockness.PoolSchedule Lockness.SlotWords
open Lockness.SlotMachine
open Lockness.SlotMoves Lockness.SlotAttempts Lockness.SlotHandles Lockness.SlotTorch
open Lockness.SlotSchedule Lockness.SlotSleep

variable {c : Target} {T : Type*}

def settling : Party c T → ℕ
  | .recv _ _ .sleep => 1
  | _ => 0

/-- The word has its three flags only, and `SLEEPING` alone belongs to a receiver that sleeps or
is about to. -/
def Armed (m : Inner c T) (calls : Multiset (Party c T)) : Prop :=
  m.recv.toNat < 8 ∧
    (m.recv = RecvStatus.SLEEPING → 0 < weigh settling calls+weigh (sleeps (woken .recv)) calls)

/-- A step in which no wait of the receiver returns while its word is `SLEEPING` alone. -/
def Punctual (s : State c T) (e : Event T) (s' : State c T) : Prop :=
  Step s e s' ∧ (Asleep .recv s → ¬ Asleep .recv s' → s.inner.recv ≠ RecvStatus.SLEEPING)

/-- `recv` goes on to sleep when its tries are used up and there is nothing to see. -/
def Blocks (s : State c T) : Prop :=
  ∀ id blocking, .recv id blocking .arm ∈ s.calls → RecvStatus.commit s.inner.recv = false →
    RecvStatus.dead s.inner.recv = false → recv_code s.inner id blocking .arm =
      .go { s.inner with recv := RecvStatus.SLEEPING } (.recv id blocking .sleep) .tau

section Word

theorem recv_small {w : BitVec 32} (hw : w.toNat < 8) : ∃ n < 8, w = BitVec.ofNat 32 n :=
  ⟨w.toNat,hw,by simp⟩

theorem quiet_word {w : BitVec 32} (hw : w.toNat < 8) (hc : RecvStatus.commit w = false)
    (hd : RecvStatus.dead w = false) : w = 0 ∨ w = RecvStatus.SLEEPING := by
  obtain ⟨n,hn,rfl⟩ := recv_small hw
  revert n
  decide

theorem fresh_word : (0 : BitVec 32).toNat < 8 ∧ (0 : BitVec 32) ≠ RecvStatus.SLEEPING := by decide

theorem committed_word : RecvStatus.COMMIT.toNat < 8 ∧ RecvStatus.COMMIT ≠ RecvStatus.SLEEPING := by
  decide

theorem armed_word {w : BitVec 32} (hw : w.toNat < 8) : (w ||| RecvStatus.SLEEPING).toNat < 8 ∧
    (w ||| RecvStatus.SLEEPING = RecvStatus.SLEEPING → w = 0 ∨ w = RecvStatus.SLEEPING) := by
  obtain ⟨n,hn,rfl⟩ := recv_small hw
  revert n
  decide

theorem raised_word {w : BitVec 32} (hw : w.toNat < 8) : (w ||| RecvStatus.SENDER_DEAD).toNat < 8 ∧
    w ||| RecvStatus.SENDER_DEAD ≠ RecvStatus.SLEEPING := by
  obtain ⟨n,hn,rfl⟩ := recv_small hw
  revert n
  decide

theorem cleared_word {w : BitVec 32} (hw : w.toNat < 8) : (w &&& RecvStatus.SENDER_DEAD).toNat < 8 ∧
    w &&& RecvStatus.SENDER_DEAD ≠ RecvStatus.SLEEPING := by
  obtain ⟨n,hn,rfl⟩ := recv_small hw
  revert n
  decide

end Word

section Armed

variable {m m' : Inner c T} {ss : Multiset ℕ} {r : Bool} {n : ℕ} {p p' : Party c T}
  {rest rest' calls calls' : Multiset (Party c T)} {e : Event T} {s s' : State c T}

theorem quiet_settling : Quiet (settling : Party c T → ℕ) := by
  constructor
  · intro w p q h
    rcases woken_cases h with ⟨_,_,_,_,_,rfl,rfl⟩ | ⟨_,_,_,rfl,rfl⟩ <;> rfl
  · intro w n p q h
    cases h <;> rfl

theorem settling_le (p : Party c T) : settling p+sleeps (woken .recv) p ≤ receiving p := by
  cases p with
  | recv id b pc => cases pc <;> simp [settling,sleeps,woken,receiving]
  | _ => exact le_rfl

theorem only_settling (hk : Handles ⟨m,ss,r,p ::ₘ rest,n⟩) (hp : receiving p = 1) :
    weigh settling rest+weigh (sleeps (woken .recv)) rest = 0 := by
  have h1 : weigh (fun q => settling q+sleeps (woken .recv) q) rest ≤ weigh receiving rest :=
    weigh_le (fun q _ => settling_le q)
  rw [weigh_add, (receiver_held hk hp).2] at h1
  omega

theorem Armed.keep (ha : Armed m calls) (hm : m'.recv = m.recv)
    (hs : weigh settling calls' = weigh settling calls)
    (hw : 0 < weigh (sleeps (woken .recv)) calls → weigh (sleeps (woken .recv)) calls' = 0 →
      m.recv ≠ RecvStatus.SLEEPING) : Armed m' calls' := by
  obtain ⟨hlt,hsl⟩ := ha
  refine ⟨hm ▸ hlt,fun h0 => ?_⟩
  rw [hm] at h0
  have h1 := hsl h0
  by_contra hn
  exact hw (by omega) (by omega) h0

theorem armed_send {id x : ℕ} {b : Bool} {pc pc' : SendPc c T}
    (ha : Armed m (.send id b x pc ::ₘ rest)) (hm : SendMove m b pc m' pc' e) :
    Armed m' (.send id b x pc' ::ₘ rest) := by
  have hs : weigh (sleeps (woken .recv)) (.send id b x pc' ::ₘ rest) =
      weigh (sleeps (woken .recv)) (.send id b x pc ::ₘ rest) := by simp [sleeps,woken]
  cases hm with
  | commit => exact ⟨committed_word.1,fun h0 => absurd h0 committed_word.2⟩
  | _ =>
    refine ha.keep rfl ?_ (fun h0 h1 => absurd (hs ▸ h1) h0.ne')
    rw [weigh_cons, weigh_cons]
    rfl

theorem armed_drop (ha : Armed m (p ::ₘ rest)) (hm : DropMove m p m' p' e) :
    Armed m' (p' ::ₘ rest) := by
  cases hm with
  | sender_raise =>
    obtain ⟨hlt,hne⟩ := raised_word ha.1
    exact ⟨hlt,fun h0 => absurd h0 hne⟩
  | _ =>
    refine ha.keep rfl ?_ (fun h0 h1 => ?_)
    · rw [weigh_cons, weigh_cons]
      rfl
    · rw [weigh_cons] at h0 h1
      exact absurd h1 h0.ne'

theorem armed_recv {id : ℕ} {b : Bool} {pc pc' : RecvPc T}
    (hk : Handles ⟨m,ss,r,.recv id b pc ::ₘ rest,n⟩) (ha : Armed m (.recv id b pc ::ₘ rest))
    (hm : RecvMove m b pc m' pc' e) : Armed m' (.recv id b pc' ::ₘ rest) := by
  obtain ⟨hlt,hsl⟩ := ha
  have hrest := only_settling hk rfl
  have hnone (hpc : settling (.recv id b pc : Party c T)+
      sleeps (woken .recv) (.recv id b pc : Party c T) = 0) : m.recv ≠ RecvStatus.SLEEPING := by
    intro h0
    have h1 := hsl h0
    rw [weigh_cons, weigh_cons] at h1
    omega
  cases hm with
  | clear =>
    obtain ⟨hlt',hne⟩ := cleared_word hlt
    exact ⟨hlt',fun h0 => absurd h0 hne⟩
  | arm =>
    obtain ⟨hlt',hor⟩ := armed_word hlt
    refine ⟨hlt',fun h0 => ?_⟩
    have hz := (hor h0).resolve_right (hnone rfl)
    rw [if_neg (not_not_intro hz), weigh_cons]
    simp [settling]
  | sleep hs =>
    refine ⟨hlt,fun _ => ?_⟩
    rw [weigh_cons, weigh_cons]
    simp [settling,sleeps,woken]
  | miss hne => exact ⟨hlt,fun h0 => absurd h0 hne⟩
  | _ => exact ⟨hlt,fun h0 => absurd h0 (hnone rfl)⟩

theorem not_asleep (h0 : weigh (sleeps (woken .recv)) s.calls = 0) : ¬ Asleep .recv s := by
  rw [asleep_iff, h0]
  exact lt_irrefl 0

theorem armed_step (hk : Handles s) (ha : Armed s.inner s.calls) (hstep : Punctual s e s') :
    Armed s'.inner s'.calls := by
  obtain ⟨hstep,hwait⟩ := hstep
  have hpunct (h0 : 0 < weigh (sleeps (woken .recv)) s.calls)
      (h1 : weigh (sleeps (woken .recv)) s'.calls = 0) : s.inner.recv ≠ RecvStatus.SLEEPING :=
    hwait ((asleep_iff .recv s).mpr h0) (not_asleep h1)
  cases step_moves hstep with
  | move hm =>
    cases hm with
    | send hm => exact armed_send ha hm
    | recv hm => exact armed_recv hk ha hm
    | drop hm => exact armed_drop ha hm
  | wake hp hw => exact ha.keep rfl (quiet_settling.weigh_wake hp hw) hpunct
  | spurious hw => exact ha.keep rfl (quiet_settling.weigh_spurious hw) hpunct
  | exit hx =>
    refine ha.keep (exit_frame hx).2.1 ?_ hpunct
    cases hx <;> simp [settling]
  | clone_sender => exact ha
  | _ => exact ha.keep rfl (by simp [settling]) hpunct

end Armed

variable {h : List (Event T)} {s : State c T}

theorem armed_run (hrun : Steps Punctual mpsc h s) : Handles s ∧ Armed s.inner s.calls :=
  hrun.invariant (fun s => Handles s ∧ Armed s.inner s.calls)
    ⟨handles_start,fresh_word.1,fun h0 => absurd h0 fresh_word.2⟩
    (fun _ _ _ hi hs => ⟨handles_step hi.1 hs.1,armed_step hi.1 hi.2 hs⟩)

/-- In every run in which no wait of the receiver returns before a commit or the death of the
senders, `recv` goes to sleep instead of spinning. -/
theorem blocks_while_punctual (hrun : Steps Punctual mpsc h s) : Blocks s := by
  intro id b hmem hc hd
  obtain ⟨hk,hlt,hsl⟩ := armed_run hrun
  obtain ⟨m,ss,r,calls,n⟩ := s
  obtain ⟨rest,rfl⟩ := Multiset.exists_cons_of_mem hmem
  have h0 : m.recv = 0 := by
    refine (quiet_word hlt hc hd).resolve_right (fun hs => ?_)
    have h1 := hsl hs
    have h2 := only_settling hk rfl
    rw [weigh_cons, weigh_cons] at h1
    simp only [settling, sleeps, woken] at h1
    exact absurd h1 (by simp; omega)
  simp [recv_code,h0]

def arms : Party c T → Bool
  | .recv _ _ .arm => true
  | _ => false

def Spent (s : State c T) : Prop := ∃ p ∈ s.calls, arms p = true

instance (s : State c T) : Decidable (Spent s) := Multiset.decidableExistsMultiset

theorem spent_arms (hs : Spent s) : ∃ id b, .recv id b .arm ∈ s.calls := by
  obtain ⟨p,hp,ha⟩ := hs
  unfold arms at ha
  split at ha
  · exact ⟨_,_,hp⟩
  · cases ha

def on_time (k : Config c T) (a : Command T) : Option (Event T × Config c T) :=
  (exec k a).bind (fun r => if Asleep .recv k.state ∧ ¬ Asleep .recv r.2.state ∧
    k.inner.recv = RecvStatus.SLEEPING then none else some r)

theorem on_time_sound (k : Config c T) (a : Command T) (e : Event T) (k' : Config c T)
    (h : on_time k a = some (e,k')) : Punctual k.state e k'.state := by
  simp only [on_time, Option.bind_eq_some_iff] at h
  obtain ⟨r,hr,h⟩ := h
  split at h <;> cases h
  rename_i hok
  exact ⟨exec_sound k a e k' hr,fun h1 h2 h3 => hok ⟨h1,h2,h3⟩⟩

/-- The receiver sleeps until a value is sent, takes it, and finds no other one. -/
theorem blocks_while_punctual_again : ∃ (h k : List (Event ℕ)) (s t : State .x86_64 ℕ),
    Steps Punctual mpsc h s ∧ Asleep .recv s ∧ Steps Punctual s k t ∧
      .received 1 (.ok 7) ∈ k ∧ Spent t ∧ Blocks t := by
  obtain ⟨h,k,s,t,hs,ha,ht,hr,hsp⟩ := script_reaches_twice on_time_sound
    (start : Config .x86_64 ℕ) ([Command.call_recv true]++List.replicate 35 (Command.act 0))
    ([Command.call_send 0 false 7]++List.replicate 5 (Command.act 1)++
      List.replicate 6 (Command.act 0)++[Command.call_recv true]++
      List.replicate 33 (Command.act 0))
    (fun _ s => Asleep .recv s) (fun k t => .received 1 (.ok 7) ∈ k ∧ Spent t)
    (by decide +kernel)
  exact ⟨h,k,s,t,hs,ha,ht,hr,hsp,blocks_while_punctual (hs.trans ht)⟩

/-- The wake-up of a commit arrives when the receiver has taken the value and sleeps again. -/
def late_wake : List (Command ℕ) :=
  [Command.call_recv true]++List.replicate 34 (Command.act 0)++
    [Command.call_send 0 false 7]++List.replicate 4 (Command.act 1)++
    List.replicate 6 (Command.act 0)++[Command.call_recv true]++
    List.replicate 35 (Command.act 1)++[Command.act 0]++List.replicate 33 (Command.act 1)

theorem spins_after_late_wake : ∃ (h : List (Event ℕ)) (s : State .x86_64 ℕ),
    Steps Step mpsc h s ∧ ¬ Blocks s := by
  obtain ⟨h,s,hr,hs,hw⟩ := reaches .x86_64 late_wake
    (fun _ s => Spent s ∧ s.inner.recv = RecvStatus.SLEEPING) (by decide +kernel)
  refine ⟨h,s,hr,fun hb => ?_⟩
  obtain ⟨id,b,ha⟩ := spent_arms hs
  have hrun := hb id b ha (by rw [hw]; decide) (by rw [hw]; decide)
  simp [recv_code,hw,RecvStatus.SLEEPING] at hrun

section Senders

variable {id : ℕ}

/-- The futex call that a send makes next puts it to sleep. -/
def Enqueues (s : State c T) (id : ℕ) : Prop :=
  ∃ b x d expected, .send id b x (.sleep d expected) ∈ s.calls ∧
    send_code s.inner id b x (.sleep d expected) = .go s.inner (.send id b x (.asleep d)) .tau

structure Taken (w : SendStatusU c) : Prop where
  reserved : SendStatus.reservations w ≠ 0
  sleeping : SendStatus.sleeping w = true
  alive : SendStatus.dead w = false

theorem enqueues_word (hrun : Steps Step mpsc h s) (hq : Enqueues s id) :
    ∃ expected : SendStatusU c, Taken expected ∧
      SendStatus.futex c s.inner.send = SendStatus.futex c expected := by
  obtain ⟨b,x,d,expected,hmem,hgo⟩ := hq
  obtain ⟨_,_,_,hc,hd,hs⟩ := (handles_run hrun).ok _ hmem
  refine ⟨expected,⟨mt (SendStatus.reservations_eq_zero expected).mp hc,hs,hd⟩,?_⟩
  by_contra hne
  rw [send_code, if_neg hne] at hgo
  cases hgo

/-- A send falls asleep under the flags that it expects, and behind a reservation, but that on
x86-64 another send may be about to make it. -/
theorem enqueued_behind (hrun : Steps Step mpsc h s) (hq : Enqueues s id) :
    SendStatus.sleeping s.inner.send = true ∧ SendStatus.dead s.inner.send = false ∧
    (SendStatus.reservations s.inner.send ≠ 0 ∨ c = .x86_64 ∧
      (aborting s ≤ 2^60 → ∃ id' b x d, .send id' b x (.attempt d) ∈ s.calls)) := by
  obtain ⟨expected,ht,hf⟩ := enqueues_word hrun hq
  obtain ⟨hd,hs⟩ := SendStatus.futex_flags hf
  rw [ht.alive] at hd
  rw [ht.sleeping] at hs
  refine ⟨hs,hd,?_⟩
  by_cases h0 : SendStatus.reservations s.inner.send = 0
  swap
  · exact .inl h0
  cases c with
  | portable =>
    obtain rfl : expected = s.inner.send := hf.symm
    exact absurd h0 ht.reserved
  | x86_64 =>
    refine .inr ⟨rfl,fun hab => ?_⟩
    have hclaimed := (torch_run (calm_run hrun hab).1).2 hs
      ((SendStatus.reservations_eq_zero _).mp h0)
    obtain ⟨p,hp,htry⟩ := (weigh_pos_iff _ _).mp hclaimed
    unfold trying at htry
    split at htry
    · exact ⟨_,_,_,_,hp⟩
    · exact absurd htry (lt_irrefl 0)

def enqueues (m : Inner c T) : Party c T → Bool
  | .send _ _ _ (.sleep _ expected) => SendStatus.futex c m.send = SendStatus.futex c expected
  | _ => false

theorem enqueues_some (hs : ∃ p ∈ s.calls, enqueues s.inner p = true) : ∃ id, Enqueues s id := by
  obtain ⟨p,hp,hq⟩ := hs
  unfold enqueues at hq
  split at hq
  · refine ⟨_,_,_,_,_,hp,?_⟩
    rw [send_code, if_pos (of_decide_eq_true hq)]
  · cases hq

instance (s : State c T) : Decidable (∃ p ∈ s.calls, enqueues s.inner p = true) :=
  Multiset.decidableExistsMultiset

theorem enqueued_behind_first : ∃ (h : List (Event ℕ)) (s : State .portable ℕ) (id : ℕ),
    Steps Step mpsc h s ∧ Enqueues s id ∧ SendStatus.sleeping s.inner.send = true := by
  obtain ⟨h,s,hr,hs⟩ := reaches .portable
    ([Command.call_send 0 false 1]++List.replicate 5 (Command.act 0)++
      [Command.call_send 0 true 2]++List.replicate 35 (Command.act 0))
    (fun _ (s : State .portable ℕ) => ∃ p ∈ s.calls, enqueues s.inner p = true) (by decide +kernel)
  obtain ⟨id,hq⟩ := enqueues_some hs
  exact ⟨h,s,id,hr,hq,(enqueued_behind hr hq).1⟩

/-- A send is about to sleep when the receive frees the slot, and another send that it has woken
sets `SLEEPING` again. -/
def rearmed : List (Command ℕ) :=
  [Command.clone_sender 0,Command.call_send 0 false 1]++List.replicate 5 (Command.act 0)++
    [Command.call_send 0 true 2]++List.replicate 36 (Command.act 0)++
    [Command.call_send 1 true 3]++List.replicate 3 (Command.act 1)++
    [Command.call_recv false]++List.replicate 5 (Command.act 2)++[Command.act 1]

theorem enqueued_beside_free : ∃ (h : List (Event ℕ)) (s : State .x86_64 ℕ) (id : ℕ),
    Steps Step mpsc h s ∧ Enqueues s id ∧ ¬ Taken s.inner.send := by
  obtain ⟨h,s,hr,hs,h0⟩ := reaches .x86_64 rearmed
    (fun _ (s : State .x86_64 ℕ) => (∃ p ∈ s.calls, enqueues s.inner p = true) ∧
      SendStatus.reservations s.inner.send = 0) (by decide +kernel)
  obtain ⟨id,hq⟩ := enqueues_some hs
  exact ⟨h,s,id,hr,hq,fun ht => ht.reserved h0⟩

end Senders

end Lockness.SlotBlocking
