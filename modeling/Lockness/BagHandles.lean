import Lockness.PoolTally
import Lockness.BagInversion

/-!
# Handles, counters and flags of the bag

Three counters follow the handles: `num_senders`, `num_receivers` and the
count of the `Arc`. Each is an instance of one discipline, and so each flag is
raised by the last handle only: `COUNTERPARTY_DEAD` in either word, and the
drop of the shared allocation. A call borrows a handle that is still counted.
-/

set_option autoImplicit false

namespace Lockness.BagHandles
open Lockness.PoolRuns Lockness.PoolFutex Lockness.PoolTally Lockness.BagMasks
open Lockness.BagMachine Lockness.BagMoves Lockness.BagInversion

variable {T : Type*}

def leak : Event T → ℕ
  | .clone_panic => 1
  | _ => 0

def leaks (h : List (Event T)) : ℕ := (h.map leak).sum

def dropping_sender (q : DropPc) : Party T → ℕ
  | .drop_sender pc => if pc = q then 1 else 0
  | _ => 0

def dropping_receiver (q : DropPc) : Party T → ℕ
  | .drop_receiver pc => if pc = q then 1 else 0
  | _ => 0

def unreleased : Party T → ℕ
  | .drop_sender pc => if pc = .free then 0 else 1
  | .drop_receiver pc => if pc = .free then 0 else 1
  | _ => 0

def freeing (p : Party T) : ℕ := dropping_sender .free p+dropping_receiver .free p

def senders_tally (h : List (Event T)) (s : State T) : Tally where
  num := s.inner.num_senders
  holders := s.senders.card+weigh (dropping_sender .count) s.calls
  leaked := leaks h
  last := weigh (dropping_sender .raise) s.calls
  flag := dead (~~~s.inner.recv)

def receivers_tally (s : State T) : Tally where
  num := s.inner.num_receivers
  holders := s.receivers.card+weigh (dropping_receiver .count) s.calls
  leaked := 0
  last := weigh (dropping_receiver .raise) s.calls
  flag := dead s.inner.send

def arc_tally (s : State T) : Tally where
  num := s.inner.strong
  holders := s.senders.card+s.receivers.card+weigh unreleased s.calls
  leaked := 0
  last := weigh freeing s.calls
  flag := s.inner.freed

structure Known (s : State T) : Prop where
  ok : ∀ p ∈ s.calls, Ok p
  bias : ∀ x ∈ s.senders, x.bias < 30
  sender : ∀ p ∈ s.calls, ∀ x, p.sender = some x → x ∈ s.senders
  receiver : ∀ p ∈ s.calls, ∀ x, p.receiver = some x → x ∈ s.receivers

structure Handles (h : List (Event T)) (s : State T) : Prop extends Known s where
  senders_le : s.inner.num_senders ≤ 2^31
  receivers_le : s.inner.num_receivers ≤ 2^31
  senders_tallied : PoolTally.Inv (senders_tally h s)
  receivers_tallied : PoolTally.Inv (receivers_tally s)
  arc_tallied : PoolTally.Inv (arc_tally s)

section Frames

variable {m m' : Inner T} {blocking : Bool} {e : Event T}

theorem send_move_frame {h : Sender} {pc pc' : SendPc T} (hm : SendMove m blocking h pc m' pc' e) :
    m'.num_senders = m.num_senders ∧ m'.num_receivers = m.num_receivers ∧
      m'.strong = m.strong ∧ m'.freed = m.freed := by
  cases hm <;> exact ⟨rfl,rfl,rfl,rfl⟩

theorem recv_move_frame {pc pc' : RecvPc T} (hm : RecvMove m blocking pc m' pc' e) :
    m'.num_senders = m.num_senders ∧ m'.num_receivers = m.num_receivers ∧
      m'.strong = m.strong ∧ m'.freed = m.freed := by
  cases hm <;> exact ⟨rfl,rfl,rfl,rfl⟩

theorem send_move_dead {h : Sender} {pc pc' : SendPc T} (hm : SendMove m blocking h pc m' pc' e) :
    dead m'.send = dead m.send ∧
      (dead (~~~m.recv) = false → dead (~~~m'.recv) = false) := by
  cases hm <;> simp_all

theorem recv_move_dead {pc pc' : RecvPc T} (hm : RecvMove m blocking pc m' pc' e) :
    dead (~~~m'.recv) = dead (~~~m.recv) ∧ (dead m.send = false → dead m'.send = false) := by
  cases hm <;> simp_all

theorem party_move_leak {p p' : Party T} (hm : PartyMove m p m' p' e) : leak e = 0 := by
  cases hm with
  | send h => cases h <;> rfl
  | recv h => cases h <;> rfl
  | drop h => cases h <;> rfl

theorem exit_leak {c : Target T} {p : Party T} (hx : Exit c m p m' e) : leak e = 0 := by
  cases hx <;> rfl

theorem leaks_append (h : List (Event T)) (e : Event T) :
    leaks (h++[e]) = leaks h+leak e := by
  simp [leaks]

end Frames

theorem wrapping_sub_one_eq {n : ℕ} (h0 : 0 < n) : wrapping_sub_one n = n-1 := by
  rw [wrapping_sub_one, if_neg (by omega)]

theorem wrapping_add_one_eq {n : ℕ} (h : n < 2^31) : wrapping_add_one n = n+1 := by
  rw [wrapping_add_one, if_neg (by omega)]

section Party

variable {h : List (Event T)} {s : State T} {p p' : Party T} {rest : Multiset (Party T)}
  {m' : Inner T} {e : Event T}

theorem Handles.sender_pos (hk : Handles h s) {p : Party T} (hp : p ∈ s.calls) {x : Sender}
    (hx : p.sender = some x) : 0 < s.inner.num_senders := by
  have := Multiset.card_pos_iff_exists_mem.mpr ⟨x,hk.sender p hp x hx⟩
  exact hk.senders_tallied.num_pos (by simp only [senders_tally]; omega)

theorem Handles.receiver_pos (hk : Handles h s) {p : Party T} (hp : p ∈ s.calls) {x : ℕ}
    (hx : p.receiver = some x) : 0 < s.inner.num_receivers := by
  have := Multiset.card_pos_iff_exists_mem.mpr ⟨x,hk.receiver p hp x hx⟩
  exact hk.receivers_tallied.num_pos (by simp only [receivers_tally]; omega)

theorem party_senders (hk : Handles h s) (hs : s.calls = p ::ₘ rest)
    (hm : PartyMove s.inner p m' p' e) : PoolTally.Move (senders_tally h s)
      (senders_tally (h++[e]) { s with inner := m', calls := p' ::ₘ rest }) := by
  have hl := party_move_leak hm
  cases hm with
  | @send id blocking x pc pc' m' e hm =>
    obtain ⟨hn,-⟩ := send_move_frame hm
    have hmem : Party.send id blocking x pc ∈ s.calls := by simp [hs]
    have hd := (hk.senders_tallied.down (hk.sender_pos hmem rfl)).2
    have hd' := (send_move_dead hm).2 hd
    apply Move.rest
    simp only [senders_tally, hs, weigh_cons, leaks_append, hl, hn, dropping_sender] at hd ⊢
    simp [hd,hd']
  | recv hm =>
    obtain ⟨hn,-⟩ := recv_move_frame hm
    apply Move.rest
    simp [senders_tally,hs,leaks_append,hl,hn,dropping_sender,(recv_move_dead hm).1]
  | drop hm =>
    cases hm with
    | sender_count =>
      have h0 : 0 < s.inner.num_senders := hk.senders_tallied.num_pos (by
        simp [senders_tally,hs,dropping_sender])
      have hn := wrapping_sub_one_eq h0
      by_cases h1 : 1 < s.inner.num_senders
      · apply Move.leave <;>
          simp [senders_tally,hs,leaks_append,hl,hn,dropping_sender,h1,h1.ne']
        omega
      · have h1' : s.inner.num_senders = 1 := by omega
        rw [h1'] at hn
        apply Move.leave <;>
          simp [senders_tally,hs,leaks_append,hl,hn,dropping_sender,h1']
        all_goals omega
    | sender_raise hsl hd hsleep =>
      apply Move.mark
      · cases hx : sleeping (~~~s.inner.recv) <;>
          simp [senders_tally,hs,dropping_sender] <;> omega
      · rfl
      · cases hx : sleeping (~~~s.inner.recv) <;> simp [senders_tally,hs,dropping_sender]
      · simp [senders_tally,leaks_append,hl]
      · exact hd
    | _ =>
      apply Move.rest
      simp [senders_tally,hs,leaks_append,hl,dropping_sender]

theorem party_receivers (hk : Handles h s) (hs : s.calls = p ::ₘ rest)
    (hm : PartyMove s.inner p m' p' e) : PoolTally.Move (receivers_tally s)
      (receivers_tally { s with inner := m', calls := p' ::ₘ rest }) := by
  cases hm with
  | send hm =>
    obtain ⟨-,hn,-⟩ := send_move_frame hm
    apply Move.rest
    simp [receivers_tally,hs,hn,dropping_receiver,(send_move_dead hm).1]
  | @recv id blocking x pc pc' m' e hm =>
    obtain ⟨-,hn,-⟩ := recv_move_frame hm
    have hmem : Party.recv id blocking x pc ∈ s.calls := by simp [hs]
    have hd := (hk.receivers_tallied.down (hk.receiver_pos hmem rfl)).2
    have hd' := (recv_move_dead hm).2 hd
    apply Move.rest
    simp only [receivers_tally, hs, weigh_cons, hn, dropping_receiver] at hd ⊢
    simp [hd,hd']
  | drop hm =>
    cases hm with
    | receiver_count =>
      have h0 : 0 < s.inner.num_receivers := hk.receivers_tallied.num_pos (by
        simp [receivers_tally,hs,dropping_receiver])
      have hn := wrapping_sub_one_eq h0
      by_cases h1 : 1 < s.inner.num_receivers
      · apply Move.leave <;> simp [receivers_tally,hs,hn,dropping_receiver,h1,h1.ne']
        omega
      · have h1' : s.inner.num_receivers = 1 := by omega
        rw [h1'] at hn
        apply Move.leave <;> simp [receivers_tally,hs,hn,dropping_receiver,h1']
        all_goals omega
    | receiver_raise hsl hd hsleep =>
      apply Move.mark
      · cases hx : sleeping s.inner.send <;>
          simp [receivers_tally,hs,dropping_receiver] <;> omega
      · rfl
      · cases hx : sleeping s.inner.send <;> simp [receivers_tally,hs,dropping_receiver]
      · rfl
      · exact hd
    | _ =>
      apply Move.rest
      simp [receivers_tally,hs,dropping_receiver]

theorem party_arc (hs : s.calls = p ::ₘ rest)
    (hm : PartyMove s.inner p m' p' e) : PoolTally.Move (arc_tally s)
      (arc_tally { s with inner := m', calls := p' ::ₘ rest }) := by
  cases hm with
  | send hm =>
    obtain ⟨-,-,hn,hf⟩ := send_move_frame hm
    apply Move.rest
    simp [arc_tally,hs,hn,hf,unreleased,freeing,dropping_sender,dropping_receiver]
  | recv hm =>
    obtain ⟨-,-,hn,hf⟩ := recv_move_frame hm
    apply Move.rest
    simp [arc_tally,hs,hn,hf,unreleased,freeing,dropping_sender,dropping_receiver]
  | drop hm =>
    cases hm with
    | last_sender h1 =>
      apply Move.leave <;>
        simp [arc_tally,hs,h1,unreleased,freeing,dropping_sender,dropping_receiver] <;> omega
    | last_receiver h1 =>
      apply Move.leave <;>
        simp [arc_tally,hs,h1,unreleased,freeing,dropping_sender,dropping_receiver] <;> omega
    | _ =>
      apply Move.rest
      simp only [arc_tally, hs, weigh_cons, unreleased, freeing, dropping_sender,
        dropping_receiver]
      split <;> simp

end Party

/-- A weight that no call, no wake-up and no return from sleep touches. -/
structure Quiet (f : Party T → ℕ) : Prop where
  send : ∀ id blocking h pc, f (.send id blocking h pc) = 0
  recv : ∀ id blocking h pc, f (.recv id blocking h pc) = 0
  sender : f (.drop_sender .wake) = f (.drop_sender .release)
  receiver : f (.drop_receiver .wake) = f (.drop_receiver .release)

theorem quiet_dropping_sender {q : DropPc} (h1 : DropPc.wake ≠ q) (h2 : DropPc.release ≠ q) :
    Quiet (T := T) (dropping_sender q) :=
  ⟨fun _ _ _ _ => rfl,fun _ _ _ _ => rfl,by simp [dropping_sender,h1,h2],rfl⟩

theorem quiet_dropping_receiver {q : DropPc} (h1 : DropPc.wake ≠ q) (h2 : DropPc.release ≠ q) :
    Quiet (T := T) (dropping_receiver q) :=
  ⟨fun _ _ _ _ => rfl,fun _ _ _ _ => rfl,rfl,by simp [dropping_receiver,h1,h2]⟩

theorem quiet_unreleased : Quiet (T := T) unreleased :=
  ⟨fun _ _ _ _ => rfl,fun _ _ _ _ => rfl,rfl,rfl⟩

theorem quiet_freeing : Quiet (T := T) freeing :=
  ⟨fun _ _ _ _ => rfl,fun _ _ _ _ => rfl,rfl,rfl⟩

theorem Quiet.woken {f : Party T → ℕ} (hf : Quiet f) {w : Futex} {p q : Party T}
    (h : woken w p = some q) : f q = f p := by
  rcases woken_cases h with ⟨id,b,x,d,-,rfl,rfl⟩ | ⟨id,b,r,-,rfl,rfl⟩
  · rw [hf.send, hf.send]
  · rw [hf.recv, hf.recv]

theorem Quiet.waking {f : Party T → ℕ} (hf : Quiet f) {w : Futex} {n : ℕ} {p q : Party T}
    (h : Waking p w n q) : f q = f p := by
  cases h with
  | send => rw [hf.send, hf.send]
  | recv => rw [hf.recv, hf.recv]
  | drop_sender => exact hf.sender.symm
  | drop_receiver => exact hf.receiver.symm

section Calls

variable {h : List (Event T)} {s : State T} {calls : Multiset (Party T)} {e : Event T}

theorem Handles.with_calls (hk : Handles h s) (hl : leak e = 0) {n : ℕ}
    (hk' : Known { s with calls := calls, next := n })
    (hf : ∀ f : Party T → ℕ, Quiet f → weigh f calls = weigh f s.calls) :
    Handles (h++[e]) { s with calls := calls, next := n } := by
  refine ⟨hk',hk.senders_le,hk.receivers_le,?_,?_,?_⟩
  · have := hk.senders_tallied
    simp only [senders_tally, leaks_append, hl] at this ⊢
    rw [hf _ (quiet_dropping_sender (by decide) (by decide)),
      hf _ (quiet_dropping_sender (by decide) (by decide))]
    exact this
  · have := hk.receivers_tallied
    simp only [receivers_tally] at this ⊢
    rw [hf _ (quiet_dropping_receiver (by decide) (by decide)),
      hf _ (quiet_dropping_receiver (by decide) (by decide))]
    exact this
  · have := hk.arc_tallied
    simp only [arc_tally] at this ⊢
    rw [hf _ quiet_unreleased, hf _ quiet_freeing]
    exact this

end Calls

theorem woken_borrows {w : Futex} {p q : Party T} (h : woken w p = some q) :
    q.sender = p.sender ∧ q.receiver = p.receiver := by
  rcases woken_cases h with ⟨id,b,x,d,-,rfl,rfl⟩ | ⟨id,b,r,-,rfl,rfl⟩ <;> exact ⟨rfl,rfl⟩

theorem woken_ok {w : Futex} {p q : Party T} (h : woken w p = some q) (hp : Ok p) : Ok q := by
  rcases woken_cases h with ⟨id,b,x,d,-,rfl,rfl⟩ | ⟨id,b,r,-,rfl,rfl⟩ <;> exact hp

theorem waking_borrows {w : Futex} {n : ℕ} {p q : Party T} (h : Waking p w n q) :
    q.sender = p.sender ∧ q.receiver = p.receiver := by
  cases h <;> exact ⟨rfl,rfl⟩

theorem waking_ok {w : Futex} {n : ℕ} {p q : Party T} (h : Waking p w n q) (hp : Ok p) : Ok q := by
  cases h with
  | send =>
    obtain ⟨hb,d,-⟩ := hp
    exact ⟨hb,d,.inl rfl⟩
  | _ => trivial

theorem move_borrows {m m' : Inner T} {p p' : Party T} {e : Event T}
    (hm : PartyMove m p m' p' e) : p'.sender = p.sender ∧ p'.receiver = p.receiver := by
  cases hm with
  | send => exact ⟨rfl,rfl⟩
  | recv => exact ⟨rfl,rfl⟩
  | drop hd => cases hd <;> exact ⟨rfl,rfl⟩

section Steps

variable {c : Target T} {h : List (Event T)} {s s' : State T} {e : Event T} {m' : Inner T}
  {calls : Multiset (Party T)}

theorem party_forall {Q : Party T → Prop} (hok : ∀ p ∈ s.calls, Ok p)
    (hmove : ∀ p p', p ∈ s.calls → Q p → PartyMove s.inner p m' p' e → Q p')
    (hwaking : ∀ p p' w n, Q p → Waking p w n p' → Q p')
    (hwoken : ∀ w p q, Q p → woken w p = some q → Q q)
    (hstep : PartyStep (program c) s.inner s.calls e m' calls) (hs : ∀ p ∈ s.calls, Q p) :
    ∀ p ∈ calls, Q p := by
  generalize hcalls : s.calls = cs at hstep
  have hrest {p : Party T} {rest : Multiset (Party T)} (hc : s.calls = p ::ₘ rest) :
      p ∈ s.calls ∧ ∀ q ∈ rest, Q q :=
    ⟨by simp [hc],fun q hq => hs q (by simp [hc,hq])⟩
  cases hstep with
  | go hc =>
    obtain ⟨hp,hr⟩ := hrest hcalls
    simp only [Multiset.mem_cons, forall_eq_or_imp]
    exact ⟨hmove _ _ hp (hs _ hp) (code_moves (hok _ hp) hc),hr⟩
  | wake hc hw =>
    obtain ⟨hp,hr⟩ := hrest hcalls
    simp only [Multiset.mem_cons, forall_eq_or_imp]
    exact ⟨hwaking _ _ _ _ (hs _ hp) (code_wakes hc),
      hw.forall_mem (fun p q hpq hp => hwoken _ p q hp hpq) hr⟩
  | spurious hw =>
    obtain ⟨hp,hr⟩ := hrest hcalls
    simp only [Multiset.mem_cons, forall_eq_or_imp]
    exact ⟨hwoken _ _ _ (hs _ hp) hw,hr⟩
  | exit hc => exact (hrest hcalls).2

theorem known_party (hk : Known s)
    (hstep : PartyStep (program c) s.inner s.calls e m' calls) :
    Known { s with inner := m', calls := calls } := by
  refine ⟨?_,hk.bias,?_,?_⟩
  · exact party_forall hk.ok (fun _ _ _ hp hm => party_move_ok hp hm)
      (fun _ _ _ _ hp hw => waking_ok hw hp) (fun _ _ _ hp hw => woken_ok hw hp) hstep hk.ok
  · refine party_forall hk.ok (fun _ _ _ hp hm => ?_) (fun _ _ _ _ hp hw => ?_)
      (fun _ _ _ hp hw => ?_) hstep hk.sender
    · rwa [(move_borrows hm).1]
    · rwa [(waking_borrows hw).1]
    · rwa [(woken_borrows hw).1]
  · refine party_forall hk.ok (fun _ _ _ hp hm => ?_) (fun _ _ _ _ hp hw => ?_)
      (fun _ _ _ hp hw => ?_) hstep hk.receiver
    · rwa [(move_borrows hm).2]
    · rwa [(waking_borrows hw).2]
    · rwa [(woken_borrows hw).2]

theorem move_counters (hk : Handles h s) {p p' : Party T} (hp : p ∈ s.calls)
    (hm : PartyMove s.inner p m' p' e) :
    m'.num_senders ≤ s.inner.num_senders ∧ m'.num_receivers ≤ s.inner.num_receivers := by
  cases hm with
  | send hm => simp [send_move_frame hm]
  | recv hm => simp [recv_move_frame hm]
  | drop hm =>
    obtain ⟨rest,hs⟩ := Multiset.exists_cons_of_mem hp
    cases hm with
    | sender_count =>
      have h0 : 0 < s.inner.num_senders := hk.senders_tallied.num_pos (by
        simp [senders_tally,hs,dropping_sender])
      simp [wrapping_sub_one_eq h0]
    | receiver_count =>
      have h0 : 0 < s.inner.num_receivers := hk.receivers_tallied.num_pos (by
        simp [receivers_tally,hs,dropping_receiver])
      simp [wrapping_sub_one_eq h0]
    | _ => exact ⟨le_rfl,le_rfl⟩

theorem drop_inner_spec {m m' : Inner T} {dropped : List T}
    (h : drop_inner c m = some (m',dropped)) : m' = { m with freed := true } ∧
      (drop_slots c m.bag (drain_mask N (m.recv &&& ~~~Status.all))).mapM m.bag =
        some dropped := by
  simp only [drop_inner, Option.map_eq_some_iff, Prod.mk.injEq] at h
  obtain ⟨l,hl,rfl,rfl⟩ := h
  exact ⟨rfl,hl⟩

theorem exit_tallies {p : Party T} {rest : Multiset (Party T)} (hs : s.calls = p ::ₘ rest)
    (hx : Exit c s.inner p m' e) :
    senders_tally (h++[e]) { s with inner := m', calls := rest } = senders_tally h s ∧
    receivers_tally { s with inner := m', calls := rest } = receivers_tally s ∧
    PoolTally.Move (arc_tally s) (arc_tally { s with inner := m', calls := rest }) := by
  have hl := exit_leak hx
  cases hx with
  | send =>
    refine ⟨?_,?_,.rest ?_⟩ <;>
      simp [senders_tally,receivers_tally,arc_tally,hs,leaks_append,hl,unreleased,freeing,
        dropping_sender,dropping_receiver]
  | recv =>
    refine ⟨?_,?_,.rest ?_⟩ <;>
      simp [senders_tally,receivers_tally,arc_tally,hs,leaks_append,hl,unreleased,freeing,
        dropping_sender,dropping_receiver]
  | sender_release h1 =>
    refine ⟨?_,?_,.leave ?_ ?_ ?_ ?_ ?_⟩ <;>
      simp [senders_tally,receivers_tally,arc_tally,hs,leaks_append,hl,unreleased,freeing,
        dropping_sender,dropping_receiver,h1]
    omega
  | receiver_release h1 =>
    refine ⟨?_,?_,.leave ?_ ?_ ?_ ?_ ?_⟩ <;>
      simp [senders_tally,receivers_tally,arc_tally,hs,leaks_append,hl,unreleased,freeing,
        dropping_sender,dropping_receiver,h1]
    omega
  | sender_free hd =>
    obtain ⟨rfl,-⟩ := drop_inner_spec hd
    refine ⟨?_,?_,.mark ?_ ?_ ?_ ?_ ?_⟩ <;>
      simp [senders_tally,receivers_tally,arc_tally,hs,leaks_append,hl,unreleased,freeing,
        dropping_sender,dropping_receiver]
    omega
  | receiver_free hd =>
    obtain ⟨rfl,-⟩ := drop_inner_spec hd
    refine ⟨?_,?_,.mark ?_ ?_ ?_ ?_ ?_⟩ <;>
      simp [senders_tally,receivers_tally,arc_tally,hs,leaks_append,hl,unreleased,freeing,
        dropping_sender,dropping_receiver]
    omega

theorem exit_counters {p : Party T} (hx : Exit c s.inner p m' e) :
    m'.num_senders = s.inner.num_senders ∧ m'.num_receivers = s.inner.num_receivers := by
  cases hx with
  | sender_free hd => exact (drop_inner_spec hd).1 ▸ ⟨rfl,rfl⟩
  | receiver_free hd => exact (drop_inner_spec hd).1 ▸ ⟨rfl,rfl⟩
  | _ => exact ⟨rfl,rfl⟩

theorem handles_party (hk : Handles h s)
    (hstep : PartyStep (program c) s.inner s.calls e m' calls) :
    Handles (h++[e]) { s with inner := m', calls := calls } := by
  have hknown := known_party hk.toKnown hstep
  generalize hcalls : s.calls = cs at hstep
  cases hstep with
  | go hc =>
    rename_i p p' rest
    have hp : p ∈ s.calls := by simp [hcalls]
    have hm := code_moves (hk.ok p hp) hc
    obtain ⟨hns,hnr⟩ := move_counters hk hp hm
    exact ⟨hknown,hns.trans hk.senders_le,hnr.trans hk.receivers_le,
      hk.senders_tallied.move (party_senders hk hcalls hm),
      hk.receivers_tallied.move (party_receivers hk hcalls hm),
      hk.arc_tallied.move (party_arc hcalls hm)⟩
  | wake hc hw =>
    refine hk.with_calls rfl hknown (fun f hf => ?_)
    rw [hcalls, weigh_cons, weigh_cons, hf.waking (code_wakes hc),
      hw.weigh_eq (fun p q hq => hf.woken hq)]
  | spurious hp =>
    refine hk.with_calls rfl hknown (fun f hf => ?_)
    rw [hcalls, weigh_cons, weigh_cons, hf.woken hp]
  | exit hc =>
    have hx := code_exits hc
    obtain ⟨hns,hnr⟩ := exit_counters hx
    obtain ⟨hs,hr,ha⟩ := exit_tallies (h := h) hcalls hx
    exact ⟨hknown,hns.trans_le hk.senders_le,hnr.trans_le hk.receivers_le,hs ▸ hk.senders_tallied,
      hr ▸ hk.receivers_tallied,hk.arc_tallied.move ha⟩

theorem guard_eq : u32_MAX.toNat/2 = 2^31-1 := by decide

theorem clone_sender_ok {m m' : Inner T} {bias : ℕ} (hc : clone_sender c m = .ok m' bias) :
    m.num_senders < 2^31 ∧ bias < 30 ∧
      m' = { m with num_senders := m.num_senders+1, strong := m.strong+1 } := by
  simp only [clone_sender, guard_eq] at hc
  split at hc
  · cases hc
  split at hc
  · cases hc
  cases hc
  refine ⟨by omega,Nat.mod_lt _ (by decide),?_⟩
  rw [wrapping_add_one_eq (by omega)]

theorem clone_sender_panics {m m' : Inner T} (hc : clone_sender c m = .panic m') :
    m.num_senders < 2^31 ∧ m' = { m with num_senders := m.num_senders+1 } := by
  simp only [clone_sender, guard_eq] at hc
  split at hc
  · cases hc
  split at hc <;> cases hc
  refine ⟨by omega,?_⟩
  rw [wrapping_add_one_eq (by omega)]

theorem clone_receiver_ok {m m' : Inner T} (hc : clone_receiver m = some m') :
    m.num_receivers < 2^31 ∧
      m' = { m with num_receivers := m.num_receivers+1, strong := m.strong+1 } := by
  simp only [clone_receiver, guard_eq] at hc
  split at hc <;> cases hc
  refine ⟨by omega,?_⟩
  rw [wrapping_add_one_eq (by omega)]

theorem Handles.live_sender (hk : Handles h s) {x : Sender} (hx : x ∈ s.senders) :
    0 < s.inner.num_senders ∧ 0 < s.inner.strong := by
  have := Multiset.card_pos_iff_exists_mem.mpr ⟨x,hx⟩
  exact ⟨hk.senders_tallied.num_pos (by simp only [senders_tally]; omega),
    hk.arc_tallied.num_pos (by simp only [arc_tally]; omega)⟩

theorem Handles.live_receiver (hk : Handles h s) {x : ℕ} (hx : x ∈ s.receivers) :
    0 < s.inner.num_receivers ∧ 0 < s.inner.strong := by
  have := Multiset.card_pos_iff_exists_mem.mpr ⟨x,hx⟩
  exact ⟨hk.receivers_tallied.num_pos (by simp only [receivers_tally]; omega),
    hk.arc_tallied.num_pos (by simp only [arc_tally]; omega)⟩

theorem handles_step (hk : Handles h s) (hstep : Step c s e s') : Handles (h++[e]) s' := by
  cases hstep with
  | party hp => exact handles_party hk hp
  | @call_send x blocking data hx =>
    refine hk.with_calls rfl ⟨?_,hk.bias,PoolTally.Uses.call_some hk.sender rfl hx,
      PoolTally.Uses.call_none hk.receiver rfl⟩ ?_
    · simp only [Multiset.mem_cons, forall_eq_or_imp]
      exact ⟨⟨hk.bias x hx,data,try_send_ok (hk.bias x hx) blocking data⟩,hk.ok⟩
    · intro f hf
      rw [weigh_cons, hf.send, Nat.zero_add]
  | @call_recv x blocking hx =>
    refine hk.with_calls rfl ⟨?_,hk.bias,PoolTally.Uses.call_none hk.sender rfl,
      PoolTally.Uses.call_some hk.receiver rfl hx⟩ ?_
    · simp only [Multiset.mem_cons, forall_eq_or_imp]
      exact ⟨trivial,hk.ok⟩
    · intro f hf
      rw [weigh_cons, hf.recv, Nat.zero_add]
  | clone_sender hx hc =>
    obtain ⟨hlt,hb,rfl⟩ := clone_sender_ok hc
    obtain ⟨hn,ha⟩ := hk.live_sender hx
    refine ⟨⟨hk.ok,?_,PoolTally.Uses.clone hk.sender _,hk.receiver⟩,by simp only; omega,
      hk.receivers_le,hk.senders_tallied.move (.enter hn ?_),hk.receivers_tallied,
      hk.arc_tallied.move (.enter ha ?_)⟩
    · simp only [Multiset.mem_cons, forall_eq_or_imp]
      exact ⟨hb,hk.bias⟩
    · simp [senders_tally,leaks_append,leak]
      omega
    · simp [arc_tally]
      omega
  | clone_sender_panic hx hc =>
    obtain ⟨hlt,rfl⟩ := clone_sender_panics hc
    obtain ⟨hn,-⟩ := hk.live_sender hx
    refine ⟨⟨hk.ok,hk.bias,hk.sender,hk.receiver⟩,by simp only; omega,hk.receivers_le,
      hk.senders_tallied.move (.leak hn ?_),hk.receivers_tallied,hk.arc_tallied⟩
    simp [senders_tally,leaks_append,leak]
  | clone_receiver hx hc =>
    obtain ⟨hlt,rfl⟩ := clone_receiver_ok hc
    obtain ⟨hn,ha⟩ := hk.live_receiver hx
    refine ⟨⟨hk.ok,hk.bias,hk.sender,PoolTally.Uses.clone hk.receiver _⟩,hk.senders_le,
      by simp only; omega,hk.senders_tallied.move (.rest ?_),
      hk.receivers_tallied.move (.enter hn ?_),hk.arc_tallied.move (.enter ha ?_)⟩
    · simp [senders_tally,leaks_append,leak]
    · simp [receivers_tally]
      omega
    · simp [arc_tally]
      omega
  | drop_sender hs hfree =>
    have hu : PoolTally.Uses Party.sender s.calls s.senders := hk.sender
    rw [hs] at hu
    refine ⟨⟨?_,?_,(hu.drop hfree).call_none rfl,PoolTally.Uses.call_none hk.receiver rfl⟩,
      hk.senders_le,hk.receivers_le,hk.senders_tallied.move (.rest ?_),
      hk.receivers_tallied.move (.rest ?_),hk.arc_tallied.move (.rest ?_)⟩
    · simp only [Multiset.mem_cons, forall_eq_or_imp]
      exact ⟨trivial,hk.ok⟩
    · exact fun x hx => hk.bias x (by simp [hs,hx])
    all_goals simp [senders_tally,receivers_tally,arc_tally,hs,leaks_append,leak,unreleased,
      freeing,dropping_sender,dropping_receiver]
    all_goals omega
  | drop_receiver hs hfree =>
    have hu : PoolTally.Uses Party.receiver s.calls s.receivers := hk.receiver
    rw [hs] at hu
    refine ⟨⟨?_,hk.bias,PoolTally.Uses.call_none hk.sender rfl,(hu.drop hfree).call_none rfl⟩,
      hk.senders_le,hk.receivers_le,hk.senders_tallied.move (.rest ?_),
      hk.receivers_tallied.move (.rest ?_),hk.arc_tallied.move (.rest ?_)⟩
    · simp only [Multiset.mem_cons, forall_eq_or_imp]
      exact ⟨trivial,hk.ok⟩
    all_goals simp [senders_tally,receivers_tally,arc_tally,hs,leaks_append,leak,unreleased,
      freeing,dropping_sender,dropping_receiver]
    all_goals omega

theorem handles_start : Handles [] (mpmc : State T) := by
  refine ⟨⟨by simp [mpmc],by simp [mpmc],by simp [mpmc],by simp [mpmc]⟩,by simp [mpmc],
    by simp [mpmc],⟨?_,?_⟩,⟨?_,?_⟩,⟨?_,?_⟩⟩ <;>
    simp [mpmc,senders_tally,receivers_tally,arc_tally,leaks]

/-- Handles and counters agree in every reachable state. -/
theorem handles_run (hrun : Steps (Step c) mpmc h s) : Handles h s :=
  hrun.carries Handles handles_start (fun _ _ _ _ _ hk hs => handles_step hk hs)

end Steps

end Lockness.BagHandles
