import Lockness.PoolTally
import Lockness.SlotAttempts

/-!
# Handles, counters and flags of the slot

The senders' counter and the count of the `Arc` follow the handles, and so
`SENDER_DEAD` and the drop of the allocation are left to the last one. The one
receiver is there, about to raise `RECEIVER_DEAD`, or has raised it. A receive
that goes for the value has seen `COMMIT`, which nobody else takes back.
-/

set_option autoImplicit false

namespace Lockness.SlotHandles
open Lockness.PoolRuns Lockness.PoolFutex Lockness.PoolTally
open Lockness.SlotWords Lockness.SlotWords.SendStatus
open Lockness.SlotMachine Lockness.SlotMoves Lockness.SlotAttempts

variable {c : Target} {T : Type*}

def receiving : Party c T → ℕ
  | .recv _ _ _ => 1
  | _ => 0

def clearing : Party c T → ℕ
  | .recv _ _ .clear => 1
  | _ => 0

def closing : Party c T → ℕ
  | .drop_receiver .raise => 1
  | _ => 0

def leaving : Party c T → ℕ
  | .drop_sender .count => 1
  | _ => 0

def raising : Party c T → ℕ
  | .drop_sender .raise => 1
  | _ => 0

def unreleased : Party c T → ℕ
  | .drop_sender pc => if pc = .free then 0 else 1
  | .drop_receiver pc => if pc = .free then 0 else 1
  | _ => 0

def freeing : Party c T → ℕ
  | .drop_sender .free => 1
  | .drop_receiver .free => 1
  | _ => 0

def senders_tally (s : State c T) : Tally where
  num := s.inner.num_senders
  holders := s.senders.card+weigh leaving s.calls
  leaked := 0
  last := weigh raising s.calls
  flag := RecvStatus.dead s.inner.recv

def arc_tally (s : State c T) : Tally where
  num := s.inner.strong
  holders := s.senders.card+s.receiver.toNat+weigh unreleased s.calls
  leaked := 0
  last := weigh freeing s.calls
  flag := s.inner.freed

structure Handles (s : State c T) : Prop where
  ok : ∀ p ∈ s.calls, Ok p
  sender : ∀ p ∈ s.calls, ∀ x, p.sender = some x → x ∈ s.senders
  receiver : weigh receiving s.calls ≤ s.receiver.toNat
  found : weigh clearing s.calls ≤ (RecvStatus.commit s.inner.recv).toNat
  senders_le : s.inner.num_senders ≤ 2^31
  senders_tallied : PoolTally.Inv (senders_tally s)
  arc_tallied : PoolTally.Inv (arc_tally s)

/-- The receiver is there, or about to raise its flag, or it has done so. -/
def OpenOrDead (s : State c T) : Prop :=
  s.receiver.toNat+weigh closing s.calls+(dead s.inner.send).toNat = 1

section Weights

theorem quiet_of_drops {f : Party c T → ℕ} (hs : ∀ id b h pc, f (.send id b h pc) = 0)
    (hr : ∀ id b pc, f (.recv id b pc) = 0)
    (hd : f (.drop_sender .wake) = f (.drop_sender .release))
    (hr' : f (.drop_receiver .wake) = f (.drop_receiver .release)) : Quiet f := by
  constructor
  · intro w p q h
    rcases woken_cases h with ⟨_,_,_,_,_,rfl,rfl⟩ | ⟨_,_,_,rfl,rfl⟩
    · rw [hs, hs]
    · rw [hr, hr]
  · intro w n p q h
    cases h with
    | send => rw [hs, hs]
    | recv => rw [hr, hr]
    | drop_sender => exact hd.symm
    | drop_receiver => exact hr'.symm

theorem quiet_closing : Quiet (closing : Party c T → ℕ) :=
  quiet_of_drops (fun _ _ _ _ => rfl) (fun _ _ _ => rfl) rfl rfl

theorem quiet_leaving : Quiet (leaving : Party c T → ℕ) :=
  quiet_of_drops (fun _ _ _ _ => rfl) (fun _ _ _ => rfl) rfl rfl

theorem quiet_raising : Quiet (raising : Party c T → ℕ) :=
  quiet_of_drops (fun _ _ _ _ => rfl) (fun _ _ _ => rfl) rfl rfl

theorem quiet_unreleased : Quiet (unreleased : Party c T → ℕ) :=
  quiet_of_drops (fun _ _ _ _ => rfl) (fun _ _ _ => rfl) rfl rfl

theorem quiet_freeing : Quiet (freeing : Party c T → ℕ) :=
  quiet_of_drops (fun _ _ _ _ => rfl) (fun _ _ _ => rfl) rfl rfl

theorem quiet_receiving : Quiet (receiving : Party c T → ℕ) := by
  constructor
  · intro w p q h
    rcases woken_cases h with ⟨_,_,_,_,_,rfl,rfl⟩ | ⟨_,_,_,rfl,rfl⟩ <;> rfl
  · intro w n p q h
    cases h <;> rfl

theorem quiet_clearing : Quiet (clearing : Party c T → ℕ) := by
  constructor
  · intro w p q h
    rcases woken_cases h with ⟨_,_,_,_,_,rfl,rfl⟩ | ⟨_,_,_,rfl,rfl⟩ <;> rfl
  · intro w n p q h
    cases h <;> rfl

theorem clearing_le (p : Party c T) : clearing p ≤ receiving p := by
  cases p with
  | recv id b pc => cases pc <;> simp [clearing,receiving]
  | _ => exact le_rfl

theorem receiving_eq_zero {p : Party c T} (hp : p.receives = false) : receiving p = 0 := by
  cases p <;> first | rfl | cases hp

end Weights

section Frames

variable {m m' : Inner c T} {b : Bool} {e : Event T}

theorem send_move_frame {pc pc' : SendPc c T} (hm : SendMove m b pc m' pc' e) :
    m'.num_senders = m.num_senders ∧ m'.strong = m.strong ∧ m'.freed = m.freed ∧
      (RecvStatus.dead m.recv = false → RecvStatus.dead m'.recv = false) ∧
      (RecvStatus.commit m.recv = true → RecvStatus.commit m'.recv = true) := by
  cases hm with
  | commit => exact ⟨rfl,rfl,rfl,fun _ => RecvStatus.dead_COMMIT,fun _ => RecvStatus.commit_COMMIT⟩
  | _ => exact ⟨rfl,rfl,rfl,id,id⟩

theorem send_move_dead {pc pc' : SendPc c T} (hcalm : ¬ Carries m.send)
    (hm : SendMove m b pc m' pc' e) : dead m'.send = dead m.send := by
  cases hm with
  | attempt => exact (attempt_spec hcalm).2.2.1
  | spin _ hd => exact hd
  | rearm => exact dead_or_SLEEPING _
  | _ => rfl

theorem recv_move_frame {pc pc' : RecvPc T} (hm : RecvMove m b pc m' pc' e) :
    m'.num_senders = m.num_senders ∧ m'.strong = m.strong ∧ m'.freed = m.freed ∧
      RecvStatus.dead m'.recv = RecvStatus.dead m.recv ∧
      (dead m.send = false → dead m'.send = false) := by
  cases hm with
  | clear => exact ⟨rfl,rfl,rfl,by simp,id⟩
  | release => exact ⟨rfl,rfl,rfl,rfl,fun _ => dead_zero c⟩
  | arm => exact ⟨rfl,rfl,rfl,by simp,id⟩
  | _ => exact ⟨rfl,rfl,rfl,rfl,id⟩

theorem recv_move_clearing {pc pc' : RecvPc T} (hm : RecvMove m b pc m' pc' e) (id : ℕ) :
    clearing (.recv id b pc' : Party c T) ≤ (RecvStatus.commit m'.recv).toNat := by
  cases hm with
  | found i hc =>
    rw [hc]
    exact le_rfl
  | empty i =>
    split
    · split <;> exact Nat.zero_le _
    · exact Nat.zero_le _
  | release => split <;> exact Nat.zero_le _
  | arm => split <;> exact Nat.zero_le _
  | _ => exact Nat.zero_le _

theorem move_borrows {p p' : Party c T} (hm : PartyMove m p m' p' e) :
    p'.sender = p.sender ∧ receiving p' = receiving p := by
  cases hm with
  | drop hm => cases hm <;> exact ⟨rfl,rfl⟩
  | _ => exact ⟨rfl,rfl⟩

theorem woken_borrows {w : Futex} {p q : Party c T} (h : woken w p = some q) :
    q.sender = p.sender ∧ (Ok p → Ok q) := by
  rcases woken_cases h with ⟨_,_,_,_,_,rfl,rfl⟩ | ⟨_,_,_,rfl,rfl⟩
  · exact ⟨rfl,id⟩
  · exact ⟨rfl,fun _ => Nat.zero_le _⟩

theorem waking_borrows {w : Futex} {n : ℕ} {p q : Party c T} (h : Waking p w n q) :
    q.sender = p.sender ∧ (Ok p → Ok q) := by
  cases h with
  | send => exact ⟨rfl,fun ⟨d,_⟩ => ⟨d,.inl rfl⟩⟩
  | recv => exact ⟨rfl,fun _ => by simp [Ok,RecvOk]⟩
  | _ => exact ⟨rfl,id⟩

end Frames

section Party

variable {m m' : Inner c T} {ss : Multiset ℕ} {r : Bool} {n : ℕ} {p p' : Party c T}
  {rest : Multiset (Party c T)} {e : Event T}

theorem sender_held (hk : Handles ⟨m,ss,r,p ::ₘ rest,n⟩) {x : ℕ} (hx : p.sender = some x) :
    0 < m.num_senders := by
  have hmem := hk.sender p (by simp) x hx
  have := Multiset.card_pos_iff_exists_mem.mpr ⟨x,hmem⟩
  exact hk.senders_tallied.num_pos (Nat.add_pos_left this _)

theorem receiver_held (hk : Handles ⟨m,ss,r,p ::ₘ rest,n⟩) (hp : receiving p = 1) :
    r = true ∧ weigh receiving rest = 0 := by
  have h1 := hk.receiver
  simp only [weigh_cons, hp] at h1
  cases r
  · simp at h1
  · simp at h1 ⊢
    omega

theorem receive_open (hk : Handles ⟨m,ss,r,p ::ₘ rest,n⟩) (ho : OpenOrDead ⟨m,ss,r,p ::ₘ rest,n⟩)
    (hp : receiving p = 1) : dead m.send = false := by
  obtain ⟨rfl,-⟩ := receiver_held hk hp
  simp only [OpenOrDead, Bool.toNat_true] at ho
  cases hd : dead m.send
  · rfl
  · rw [hd, Bool.toNat_true] at ho
    omega

theorem wrapping_sub_one_eq {n : ℕ} (h0 : 0 < n) : wrapping_sub_one n = n-1 := by
  rw [wrapping_sub_one, if_neg (by omega)]

theorem move_senders (hk : Handles ⟨m,ss,r,p ::ₘ rest,n⟩) (hm : PartyMove m p m' p' e) :
    m'.num_senders ≤ m.num_senders ∧ PoolTally.Move (senders_tally ⟨m,ss,r,p ::ₘ rest,n⟩)
      (senders_tally ⟨m',ss,r,p' ::ₘ rest,n⟩) := by
  cases hm with
  | send hm =>
    obtain ⟨hn,-,-,hd,-⟩ := send_move_frame hm
    have hd0 := (hk.senders_tallied.down (sender_held hk rfl)).2
    refine ⟨hn.le,.rest ?_⟩
    simp only [senders_tally, weigh_cons, hn] at hd0 ⊢
    simp [leaving,raising,hd0,hd hd0]
  | recv hm =>
    obtain ⟨hn,-,-,hd,-⟩ := recv_move_frame hm
    refine ⟨hn.le,.rest ?_⟩
    simp [senders_tally,hn,hd,leaving,raising]
  | drop hm =>
    cases hm with
    | sender_count =>
      have h0 : 0 < m.num_senders := hk.senders_tallied.num_pos (by simp [senders_tally,leaving])
      have hn := wrapping_sub_one_eq h0
      refine ⟨by simp [hn],?_⟩
      by_cases h1 : 1 < m.num_senders
      · apply Move.leave <;> simp [senders_tally,leaving,raising,hn,h1,h1.ne']
        omega
      · have h1' : m.num_senders = 1 := by omega
        rw [h1'] at hn
        apply Move.leave <;> simp [senders_tally,leaving,raising,hn,h1']
        all_goals omega
    | sender_raise =>
      refine ⟨le_rfl,?_⟩
      apply Move.mark <;> cases RecvStatus.sleeping m.recv <;>
        simp [senders_tally,leaving,raising]
      all_goals omega
    | receiver_raise =>
      refine ⟨le_rfl,.rest ?_⟩
      simp [senders_tally,leaving,raising]
    | last_sender | last_receiver => exact ⟨le_rfl,.rest (by simp [senders_tally,leaving,raising])⟩

theorem move_arc (hm : PartyMove m p m' p' e) :
    PoolTally.Move (arc_tally ⟨m,ss,r,p ::ₘ rest,n⟩) (arc_tally ⟨m',ss,r,p' ::ₘ rest,n⟩) := by
  cases hm with
  | send hm =>
    obtain ⟨-,hn,hf,-⟩ := send_move_frame hm
    apply Move.rest
    simp [arc_tally,hn,hf,unreleased,freeing]
  | recv hm =>
    obtain ⟨-,hn,hf,-⟩ := recv_move_frame hm
    apply Move.rest
    simp [arc_tally,hn,hf,unreleased,freeing]
  | drop hm =>
    cases hm with
    | last_sender h1 =>
      apply Move.leave <;> simp [arc_tally,h1,unreleased,freeing] <;> omega
    | last_receiver h1 =>
      apply Move.leave <;> simp [arc_tally,h1,unreleased,freeing] <;> omega
    | sender_count =>
      apply Move.rest
      by_cases h1 : 1 < m.num_senders <;> simp [arc_tally,unreleased,freeing,h1]
    | sender_raise =>
      apply Move.rest
      cases h1 : RecvStatus.sleeping m.recv <;> simp [arc_tally,unreleased,freeing]
    | receiver_raise =>
      apply Move.rest
      cases h1 : sleeping m.send <;> simp [arc_tally,unreleased,freeing]

theorem move_found (hk : Handles ⟨m,ss,r,p ::ₘ rest,n⟩) (hm : PartyMove m p m' p' e) :
    weigh clearing (p' ::ₘ rest) ≤ (RecvStatus.commit m'.recv).toNat := by
  have h := hk.found
  simp only [weigh_cons] at h ⊢
  cases hm with
  | send hm =>
    obtain ⟨-,-,-,-,hc⟩ := send_move_frame hm
    cases h0 : RecvStatus.commit m.recv
    · rw [h0] at h
      simp only [clearing, Bool.toNat_false] at h ⊢
      omega
    · rw [hc h0]
      rw [h0] at h
      exact h
  | @recv id _ _ _ _ _ hm =>
    have hle : weigh clearing rest ≤ weigh receiving rest := weigh_le (fun p _ => clearing_le p)
    rw [(receiver_held hk rfl).2] at hle
    have := recv_move_clearing hm id
    omega
  | drop hm =>
    cases hm with
    | sender_raise => simpa [clearing] using h
    | _ => exact h

theorem handles_move (hk : Handles ⟨m,ss,r,p ::ₘ rest,n⟩) (hm : PartyMove m p m' p' e) :
    Handles ⟨m',ss,r,p' ::ₘ rest,n⟩ := by
  obtain ⟨hn,hs⟩ := move_senders hk hm
  obtain ⟨hb,hr⟩ := move_borrows hm
  have hrest : ∀ q ∈ rest, q ∈ p ::ₘ rest := fun q hq => Multiset.mem_cons_of_mem hq
  refine ⟨?_,?_,?_,move_found hk hm,hn.trans hk.senders_le,hk.senders_tallied.move hs,
    hk.arc_tallied.move (move_arc hm)⟩
  · simp only [Multiset.mem_cons, forall_eq_or_imp]
    exact ⟨party_move_ok (hk.ok p (by simp)) hm,fun q hq => hk.ok q (hrest q hq)⟩
  · simp only [Multiset.mem_cons, forall_eq_or_imp]
    exact ⟨fun x hx => hk.sender p (by simp) x (hb ▸ hx),fun q hq => hk.sender q (hrest q hq)⟩
  · simpa [hr] using hk.receiver

end Party

section Steps

variable {s s' : State c T} {e : Event T}

theorem Handles.with_calls {m : Inner c T} {ss : Multiset ℕ} {r : Bool} {n n' : ℕ}
    {calls calls' : Multiset (Party c T)} (hk : Handles ⟨m,ss,r,calls,n⟩)
    (hok : ∀ p ∈ calls', Ok p) (hsender : ∀ p ∈ calls', ∀ x, p.sender = some x → x ∈ ss)
    (hreceiver : weigh receiving calls' ≤ r.toNat)
    (hfound : weigh clearing calls' ≤ weigh clearing calls)
    (hleaving : weigh leaving calls' = weigh leaving calls)
    (hraising : weigh raising calls' = weigh raising calls)
    (hunreleased : weigh unreleased calls' = weigh unreleased calls)
    (hfreeing : weigh freeing calls' = weigh freeing calls) : Handles ⟨m,ss,r,calls',n'⟩ := by
  refine ⟨hok,hsender,hreceiver,hfound.trans hk.found,hk.senders_le,?_,?_⟩
  · simpa only [senders_tally,hleaving,hraising] using hk.senders_tallied
  · simpa only [arc_tally,hunreleased,hfreeing] using hk.arc_tallied

theorem handles_wake {m : Inner c T} {ss : Multiset ℕ} {r : Bool} {n k : ℕ} {w : Futex}
    {p p' : Party c T} {rest rest' : Multiset (Party c T)}
    (hk : Handles ⟨m,ss,r,p ::ₘ rest,n⟩) (hp : Waking p w k p')
    (hw : Wake (woken w) k rest rest') : Handles ⟨m,ss,r,p' ::ₘ rest',n⟩ := by
  have hrest : ∀ q ∈ rest, q ∈ p ::ₘ rest := fun q hq => Multiset.mem_cons_of_mem hq
  refine hk.with_calls ?_ ?_ ((quiet_receiving.weigh_wake hp hw).trans_le hk.receiver)
    (quiet_clearing.weigh_wake hp hw).le (quiet_leaving.weigh_wake hp hw)
    (quiet_raising.weigh_wake hp hw)
    (quiet_unreleased.weigh_wake hp hw) (quiet_freeing.weigh_wake hp hw)
  · simp only [Multiset.mem_cons, forall_eq_or_imp]
    exact ⟨(waking_borrows hp).2 (hk.ok p (by simp)),
      hw.forall_mem (fun _ _ h => (woken_borrows h).2) (fun q hq => hk.ok q (hrest q hq))⟩
  · simp only [Multiset.mem_cons, forall_eq_or_imp]
    refine ⟨fun x hx => hk.sender p (by simp) x ((waking_borrows hp).1 ▸ hx),
      hw.forall_mem (fun _ _ h hq x hx => hq x ((woken_borrows h).1 ▸ hx))
        (fun q hq => hk.sender q (hrest q hq))⟩

theorem handles_spurious {m : Inner c T} {ss : Multiset ℕ} {r : Bool} {n : ℕ} {w : Futex}
    {p q : Party c T} {rest : Multiset (Party c T)} (hk : Handles ⟨m,ss,r,p ::ₘ rest,n⟩)
    (hw : woken w p = some q) : Handles ⟨m,ss,r,q ::ₘ rest,n⟩ := by
  have hrest : ∀ q ∈ rest, q ∈ p ::ₘ rest := fun q hq => Multiset.mem_cons_of_mem hq
  refine hk.with_calls ?_ ?_ ((quiet_receiving.weigh_spurious hw).trans_le hk.receiver)
    (quiet_clearing.weigh_spurious hw).le (quiet_leaving.weigh_spurious hw)
    (quiet_raising.weigh_spurious hw)
    (quiet_unreleased.weigh_spurious hw) (quiet_freeing.weigh_spurious hw)
  · simp only [Multiset.mem_cons, forall_eq_or_imp]
    exact ⟨(woken_borrows hw).2 (hk.ok p (by simp)),fun x hx => hk.ok x (hrest x hx)⟩
  · simp only [Multiset.mem_cons, forall_eq_or_imp]
    exact ⟨fun x hx => hk.sender p (by simp) x ((woken_borrows hw).1 ▸ hx),
      fun x hx => hk.sender x (hrest x hx)⟩

theorem handles_exit {m m' : Inner c T} {ss : Multiset ℕ} {r : Bool} {n : ℕ} {p : Party c T}
    {rest : Multiset (Party c T)} (hk : Handles ⟨m,ss,r,p ::ₘ rest,n⟩) (hx : Exit m p m' e) :
    Handles ⟨m',ss,r,rest,n⟩ := by
  obtain ⟨-,hrecv,hnum,-⟩ := exit_frame hx
  have hrest : ∀ q ∈ rest, q ∈ p ::ₘ rest := fun q hq => Multiset.mem_cons_of_mem hq
  have hkeep : weigh leaving rest = weigh leaving (p ::ₘ rest) ∧
      weigh raising rest = weigh raising (p ::ₘ rest) := by
    cases hx <;> simp [leaving,raising]
  refine ⟨fun q hq => hk.ok q (hrest q hq),fun q hq => hk.sender q (hrest q hq),?_,?_,
    hnum.trans_le hk.senders_le,?_,hk.arc_tallied.move ?_⟩
  · have := hk.receiver
    simp only [weigh_cons] at this ⊢
    omega
  · have := hk.found
    simp only [weigh_cons, hrecv] at this ⊢
    omega
  · simpa only [senders_tally, hnum, hrecv, hkeep.1, hkeep.2] using hk.senders_tallied
  · cases hx with
    | send => exact .rest (by simp [arc_tally,unreleased,freeing])
    | recv => exact .rest (by simp [arc_tally,unreleased,freeing])
    | sender_release h1 =>
      apply Move.leave <;> simp [arc_tally,unreleased,freeing,h1]
      omega
    | receiver_release h1 =>
      apply Move.leave <;> simp [arc_tally,unreleased,freeing,h1]
      omega
    | sender_free hd =>
      obtain ⟨rfl,-⟩ := drop_inner_spec hd
      apply Move.mark <;> simp [arc_tally,unreleased,freeing]
      omega
    | receiver_free hd =>
      obtain ⟨rfl,-⟩ := drop_inner_spec hd
      apply Move.mark <;> simp [arc_tally,unreleased,freeing]
      omega

theorem handles_step (hk : Handles s) (hstep : Step s e s') : Handles s' := by
  cases step_moves hstep with
  | move hm => exact handles_move hk hm
  | wake hp hw => exact handles_wake hk hp hw
  | spurious hw => exact handles_spurious hk hw
  | exit hx => exact handles_exit hk hx
  | call_send blocking data hh =>
    refine hk.with_calls ?_ (PoolTally.Uses.call_some hk.sender rfl hh)
      (by simpa [receiving] using hk.receiver) (by simp [clearing]) (by simp [leaving])
      (by simp [raising]) (by simp [unreleased]) (by simp [freeing])
    simp only [Multiset.mem_cons, forall_eq_or_imp]
    exact ⟨⟨data,rfl⟩,hk.ok⟩
  | call_recv blocking hfree =>
    refine hk.with_calls ?_ (PoolTally.Uses.call_none hk.sender rfl) ?_ (by simp [clearing])
      (by simp [leaving]) (by simp [raising]) (by simp [unreleased]) (by simp [freeing])
    · simp only [Multiset.mem_cons, forall_eq_or_imp]
      exact ⟨Nat.zero_le _,hk.ok⟩
    · rw [weigh_cons, weigh_eq_zero _ (fun p hp => receiving_eq_zero (hfree p hp))]
      exact le_rfl
  | clone_sender hh hlt =>
    have hpos := Multiset.card_pos_iff_exists_mem.mpr ⟨_,hh⟩
    have hn := hk.senders_tallied.num_pos (Nat.add_pos_left hpos _)
    have ha := hk.arc_tallied.num_pos (by simp only [arc_tally]; omega)
    refine ⟨hk.ok,PoolTally.Uses.clone hk.sender _,hk.receiver,hk.found,by simp only; omega,
      hk.senders_tallied.move (.enter hn ?_),hk.arc_tallied.move (.enter ha ?_)⟩
    · simp [senders_tally]
      omega
    · simp [arc_tally]
      omega
  | drop_sender hfree =>
    refine ⟨?_,(PoolTally.Uses.drop hk.sender hfree).call_none rfl,
      by simpa [receiving] using hk.receiver,by simpa [clearing] using hk.found,hk.senders_le,
      hk.senders_tallied.move (.rest ?_),hk.arc_tallied.move (.rest ?_)⟩
    · simp only [Multiset.mem_cons, forall_eq_or_imp]
      exact ⟨trivial,hk.ok⟩
    · simp [senders_tally,leaving,raising]
      omega
    · simp [arc_tally,unreleased,freeing]
      omega
  | drop_receiver hfree =>
    refine ⟨?_,PoolTally.Uses.call_none hk.sender rfl,?_,by simpa [clearing] using hk.found,
      hk.senders_le,hk.senders_tallied.move (.rest ?_),hk.arc_tallied.move (.rest ?_)⟩
    · simp only [Multiset.mem_cons, forall_eq_or_imp]
      exact ⟨trivial,hk.ok⟩
    · rw [weigh_cons, weigh_eq_zero _ (fun p hp => receiving_eq_zero (hfree p hp))]
      exact le_rfl
    · simp [senders_tally,leaving,raising]
    · simp [arc_tally,unreleased,freeing]
      omega

theorem handles_start : Handles (mpsc : State c T) := by
  refine ⟨by simp [mpsc],by simp [mpsc],by simp [mpsc],by simp [mpsc],by simp [mpsc],⟨?_,?_⟩,
    ⟨?_,?_⟩⟩
  all_goals simp [mpsc,senders_tally,arc_tally]

/-- Handles, counters and flags agree in every reachable state. -/
theorem handles_run {h : List (Event T)} (hrun : Steps Step mpsc h s) : Handles s :=
  hrun.invariant Handles handles_start (fun _ _ _ hk hs => handles_step hk hs)

theorem move_open {m m' : Inner c T} {ss : Multiset ℕ} {r : Bool} {n : ℕ} {p p' : Party c T}
    {rest : Multiset (Party c T)} (hk : Handles ⟨m,ss,r,p ::ₘ rest,n⟩)
    (h : OpenOrDead ⟨m,ss,r,p ::ₘ rest,n⟩) (hcalm : ¬ Carries m.send)
    (hm : PartyMove m p m' p' e) : OpenOrDead ⟨m',ss,r,p' ::ₘ rest,n⟩ := by
  simp only [OpenOrDead, weigh_cons] at h ⊢
  cases hm with
  | send hm =>
    rw [send_move_dead hcalm hm]
    exact h
  | recv hm =>
    have hd := receive_open hk (by simpa only [OpenOrDead, weigh_cons] using h) rfl
    rw [(recv_move_frame hm).2.2.2.2 hd]
    rw [hd] at h
    exact h
  | drop hm =>
    cases hm with
    | receiver_raise =>
      have hd : dead m.send = false := by
        cases hd : dead m.send
        · rfl
        · simp [hd,closing] at h
      simp only [hd, closing, Bool.toNat_false] at h
      have hz : r.toNat = 0 ∧ weigh closing rest = 0 := by omega
      cases sleeping m.send <;> simp only [closing, hz, dead_RECEIVER_DEAD] <;> rfl
    | sender_count => simpa [closing] using h
    | sender_raise => simpa [closing] using h
    | last_sender => simpa [closing] using h
    | last_receiver => simpa [closing] using h

theorem open_step (hk : Handles s) (ho : OpenOrDead s) (hstep : CalmStep s e s') :
    OpenOrDead s' := by
  obtain ⟨hstep,hcalm⟩ := hstep
  cases step_moves hstep with
  | move hm => exact move_open hk ho hcalm hm
  | wake hp hw => simpa only [OpenOrDead, quiet_closing.weigh_wake hp hw] using ho
  | spurious hw => simpa only [OpenOrDead, quiet_closing.weigh_spurious hw] using ho
  | exit hx =>
    have hsend := (exit_frame hx).1
    simp only [OpenOrDead, weigh_cons, hsend] at ho ⊢
    cases hx <;> simpa [closing] using ho
  | drop_receiver =>
    simp only [OpenOrDead, weigh_cons, closing, Bool.toNat_false, Bool.toNat_true] at ho ⊢
    omega
  | _ => simpa [OpenOrDead,closing] using ho

theorem open_run {h : List (Event T)} (hrun : Steps CalmStep mpsc h s) : OpenOrDead s :=
  hrun.carries (fun _ s => OpenOrDead s) (by simp [OpenOrDead,mpsc])
    (fun _ _ _ _ hr ho hs => open_step (handles_run hr.of_when) ho hs)

theorem open_alive (ho : OpenOrDead s) (hr : s.receiver = true) : dead s.inner.send = false := by
  rw [OpenOrDead, hr, Bool.toNat_true] at ho
  cases hd : dead s.inner.send
  · rfl
  · rw [hd, Bool.toNat_true] at ho
    omega

end Steps
end Lockness.SlotHandles
