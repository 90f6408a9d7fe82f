import Lockness.SlotRaces

/-!
# Every weak run of the slot is in order

A receive may be shown that a value or the end is missing while it is there, but not
the converse: it knows the updates of the earlier receives, and only they take `COMMIT`
back. So without its trace a weak run is one of the channel, but for calls that were
shown old words and idle. The trace is free of races, and whoever frees the allocation
knows all that has happened.
-/

set_option autoImplicit false

namespace Lockness.SlotWeak
open Lockness.PoolFutex Lockness.PoolTally Lockness.PoolOrder Lockness.PoolRaces
open Lockness.PoolArc Lockness.PoolThreads
open Lockness.PoolShared hiding Traced
open Lockness.SlotWords Lockness.SlotWords.SendStatus Lockness.SlotMachine Lockness.SlotMoves
open Lockness.SlotAttempts Lockness.SlotHandles Lockness.SlotBoard Lockness.SlotPipeline
open Lockness.SlotDelivery Lockness.SlotTorch Lockness.SlotThreads Lockness.SlotRaces

variable {c : Target} {T : Type*} {m m' : Inner c T} {p p' : Party c T} {e : Event T}

section Told

variable {τ : Trace (Thread Handle) Atomic Unit (Value c)} {t u : Thread Handle}
  {l : List (Access c)} {x : Atomic} {o : MemOrder} {v : Value c} {g : ℕ}

def Behind (τ : Trace (Thread Handle) Atomic Unit (Value c)) (g : ℕ) : Prop :=
  ∃ f u o v, g < f ∧ At τ f u (.update .recv o v) ∧ u ∈ bound Handle.receiver

/-- The word at `g` vouches for the latest one, and hands over the cell if it tells of a
value; or the receiver does not see it any more. -/
def Fresh (τ : Trace (Thread Handle) Atomic Unit (Value c)) (m : Inner c T) (g : ℕ)
    (w : BitVec 32) : Prop :=
  Behind τ g ∨ Vouched m (.recv w) ∧ (RecvStatus.commit w = true → ParkedAt τ () .recv g)

/-- What has been written vouches for the latest words, up to what the receiver knows. -/
structure Told (τ : Trace (Thread Handle) Atomic Unit (Value c)) (m : Inner c T) : Prop where
  send : ∀ g u o v, At τ g u (.update .send o v) → ∃ w, v = .send w ∧ Vouched m (.send w)
  recv : ∀ g u o v, At τ g u (.update .recv o v) → ∃ w, v = .recv w ∧ Fresh τ m g w

structure Tells (m m' : Inner c T) (t : Thread Handle) (l : List (Access c)) : Prop where
  send : ∀ o v, .update .send o v ∈ l → v = .send m'.send
  refused : dead m.send = true → count m.send ≠ 0 → dead m'.send = true ∧ count m'.send ≠ 0
  recv : (∀ o v, .update .recv o v ∉ l) ∧ m'.recv = m.recv ∧
      (RecvStatus.commit m.recv = true → .access () ∉ l) ∨
    ∃ o, l = [.update .recv o (.recv m'.recv)] ∧ (t ∈ bound .receiver ∨
      (RecvStatus.commit m.recv = true → RecvStatus.commit m'.recv = true) ∧
        RecvStatus.dead m.recv = false)

theorem tells_quiet (hs : ∀ o v, .update .send o v ∉ l) (hr : ∀ o v, .update .recv o v ∉ l)
    (hl : .access () ∉ l) (hm : m'.send = m.send ∧ m'.recv = m.recv) : Tells m m' t l :=
  ⟨fun o v h => absurd h (hs o v),fun hd h0 => hm.1 ▸ ⟨hd,h0⟩,.inl ⟨hr,hm.2,fun _ => hl⟩⟩

theorem Behind.append (h : Behind τ g) (σ : Trace (Thread Handle) Atomic Unit (Value c)) :
    Behind (τ++σ) g := by
  obtain ⟨f,u,o,v,hlt,hf,hu⟩ := h
  exact ⟨f,u,o,v,hlt,hf.append σ,hu⟩

theorem Fresh.silent {w : BitVec 32} (h : Fresh τ m g w) (hsame : m'.recv = m.recv)
    (haccess : RecvStatus.commit m.recv = true → .access () ∉ l) :
    Fresh (τ++marks t l) m' g w := by
  refine h.imp (fun hb => hb.append _) (fun hw => ⟨?_,fun hc => ?_⟩)
  · simpa only [Vouched, hsame] using hw.1
  · exact (hw.2 hc).quiet (untouched_marks (haccess (hw.1.1 hc)))

theorem Fresh.update {w : BitVec 32} (h : Fresh τ m g w) (hg : g < τ.length)
    (hkept : t ∈ bound .receiver ∨ (RecvStatus.commit m.recv = true →
      RecvStatus.commit m'.recv = true) ∧ RecvStatus.dead m.recv = false) :
    Fresh (τ++marks t [.update .recv o (.recv m'.recv)]) m' g w := by
  rcases hkept with ht | ⟨hcommit,hdead⟩
  · exact .inl ⟨τ.length,t,o,_,hg,at_last τ t _,ht⟩
  refine h.imp (fun hb => hb.append _) (fun hw => ⟨⟨fun hc => hcommit (hw.1.1 hc),fun hd => ?_⟩,
    fun hc => (hw.2 hc).quiet (untouched_marks (by simp))⟩)
  exact absurd ((hw.1.2 hd).1.symm.trans hdead) (by decide)

theorem fresh_last {τ' : Trace (Thread Handle) Atomic Unit (Value c)} (hg : τ'.length ≤ g+1)
    (hp : RecvStatus.commit m.recv = true → Parked τ' () .recv) : Fresh τ' m g m.recv := by
  refine .inr ⟨⟨fun hc => hc,fun hd => ⟨hd,fun hc => hc⟩⟩,fun hc i u hi => ?_⟩
  obtain ⟨f,hf,hcar⟩ := hp hc i u hi
  exact hcar.mono (by omega)

theorem Told.marks (h : Told τ m) (hl : Tells m m' t l)
    (hp : RecvStatus.commit m'.recv = true → Parked (τ++marks t l) () .recv) :
    Told (τ++marks t l) m' := by
  refine ⟨fun g u o v hg => ?_,fun g u o v hg => ?_⟩
  · rcases hg.of_marks with hg | ⟨-,hv,-⟩
    · obtain ⟨w,rfl,hw⟩ := h.send g u o v hg
      exact ⟨w,rfl,fun hd h0 => hl.refused (hw hd h0).1 (hw hd h0).2⟩
    · exact ⟨m'.send,hl.send o v hv,fun hd h0 => ⟨hd,h0⟩⟩
  rcases hl.recv with ⟨hno,hsame,haccess⟩ | ⟨o',rfl,hkept⟩
  · rcases hg.of_marks with hg | ⟨-,hv,-⟩
    · obtain ⟨w,rfl,hw⟩ := h.recv g u o v hg
      exact ⟨w,rfl,hw.silent hsame haccess⟩
    · exact absurd hv (hno o v)
  · rcases hg.of_marks with hg | ⟨-,hv,hge⟩
    · obtain ⟨w,rfl,hw⟩ := h.recv g u o v hg
      exact ⟨w,rfl,hw.update hg.lt hkept⟩
    · simp only [List.mem_singleton, Action.update.injEq, true_and] at hv
      exact ⟨m'.recv,hv.2,fresh_last (by simpa [PoolOrder.marks] using hge) hp⟩

end Told

section Follows

variable {τ : Trace (Thread Handle) Atomic Unit (Value c)} {t : Thread Handle}
  {l : List (Access c)} {calls calls' : Multiset (Thread Handle × Party c T)}

def Follows (τ : Trace (Thread Handle) Atomic Unit (Value c))
    (calls : Multiset (Thread Handle × Party c T)) : Prop :=
  ∀ q ∈ calls, q.2.receives = true → ∀ i u a, At τ i u a → u ∈ bound Handle.receiver →
    Knows τ q.1 i

theorem Fits.hears (hf : Fits t p) (ht : t ∈ bound Handle.receiver) : p.receives = true := by
  cases hf with
  | recv => rfl
  | _ => rcases ht with (h | ⟨_,h⟩) | ⟨_,h⟩ | ⟨_,h⟩ | ⟨_,h⟩ <;> cases h

theorem Follows.marks (hf : Follows τ calls)
    (hold : ∀ q ∈ calls', q.2.receives = true → ∃ q' ∈ calls, q'.1 = q.1 ∧ q'.2.receives = true)
    (hown : t ∈ bound .receiver → ∀ q ∈ calls', q.2.receives = true → q.1 = t) :
    Follows (τ++marks t l) calls' := by
  intro q hq hr i u a hi hu
  rcases hi.of_marks with hi | ⟨rfl,hmem,hge⟩
  · obtain ⟨q',hq',hname,hr'⟩ := hold q hq hr
    exact hname ▸ (hf q' hq' hr' i u a hi hu).append _
  · rw [hown hu q hq hr]
    exact .self hi

theorem Follows.join (hnone : ∀ q ∈ calls, q.2.receives = false) :
    Follows (τ++[(t,.join (bound .receiver))]) ((t,p) ::ₘ calls) := by
  intro q hq hr i u a hi hu
  rcases Multiset.mem_cons.mp hq with rfl | hq
  · rcases hi.of_append with hi | ⟨rfl,-,-⟩
    · exact (Knows.self hi).join hu
    · exact .last τ t _
  · exact absurd ((hnone q hq).symm.trans hr) (by decide)

theorem Told.readable {x : Atomic} {o : MemOrder} {g : ℕ} {v : Value c} (ht : Told τ m)
    (hf : Follows τ calls) (hq : (t,p) ∈ calls) (hp : Polls (put m x v) p x o p')
    (hr : Readable τ t x g v) : Vouched m v ∧
      (x = .recv → RecvStatus.commit (put m x v).recv = true → ParkedAt τ () .recv g) := by
  obtain ⟨⟨u,o',hg⟩,hno⟩ := hr
  cases hp with
  | send =>
    obtain ⟨w,rfl,hw⟩ := ht.send g u o' v hg
    exact ⟨hw,by simp⟩
  | recv =>
    obtain ⟨w,rfl,hw⟩ := ht.recv g u o' v hg
    rcases hw with ⟨f,u',o'',v',hlt,hf',hu'⟩ | ⟨hw,hpark⟩
    · exact absurd (hf _ hq rfl f u' _ hf' hu') (hno f u' o'' v' hlt hf')
    · exact ⟨hw,fun _ => hpark⟩

end Follows

section Alone

variable {s : State c T}

theorem orphan (hk : Handles s) (hs : s.senders = 0) (hr : s.receiver = false) (hp : p ∈ s.calls) :
    unreleased p+freeing p = 1 := by
  cases p with
  | send id b x pc => simpa [hs] using hk.sender _ hp x rfl
  | recv id b pc =>
    have hle := le_weigh receiving hp
    have := hk.receiver
    rw [hr, Bool.toNat_false] at this
    simp only [receiving] at hle
    omega
  | drop_sender pc => cases pc <;> rfl
  | drop_receiver pc => cases pc <;> rfl

theorem tallied (hk : Handles s) : Tallied (arc_tally s) (s.senders.card+s.receiver.toNat)
    unreleased freeing s.calls := by
  refine ⟨hk.arc_tallied,rfl,rfl,rfl,fun hn p hp => ?_⟩
  refine orphan hk (Multiset.card_eq_zero.mp (by omega)) ?_ hp
  simpa using Nat.eq_zero_of_add_eq_zero_left hn

theorem freeing_sole (hk : Handles s) (hp : p ∈ s.calls) (hf : freeing p ≠ 0) :
    s.inner.strong = 0 ∧ s.senders = 0 ∧ s.receiver = false ∧ s.calls = {p} := by
  obtain ⟨h0,hn,hsole⟩ := (tallied hk).freeing_sole hp hf
  exact ⟨h0,Multiset.card_eq_zero.mp (by omega),by simpa using Nat.eq_zero_of_add_eq_zero_left hn,
    hsole⟩

theorem last_sole (hk : Handles s) (hp : p ∈ s.calls) (hu : unreleased p = 1)
    (h1 : s.inner.strong = 1) : s.senders = 0 ∧ s.receiver = false ∧ s.calls = {p} := by
  obtain ⟨hn,hsole⟩ := (tallied hk).last_sole hp hu h1
  exact ⟨Multiset.card_eq_zero.mp (by omega),
    by simpa using Nat.eq_zero_of_add_eq_zero_left hn,hsole⟩

end Alone

section Words

theorem told_send {n x : ℕ} {blocking : Bool} {pc pc' : SendPc c T}
    (hl : loads (.send n blocking x pc) = none) (hm : SendMove m blocking pc m' pc' e)
    (y : Atomic) :
    told y (word m y) (send_actions m' pc (some (.send n blocking x pc'))) = word m' y := by
  cases hm with
  | @spin data spin =>
    obtain rfl : spin = 0 := by simpa [loads] using hl
    cases y <;> rfl
  | full => cases blocking <;> cases y <;> rfl
  | _ => cases y <;> rfl

theorem told_recv {n : ℕ} {blocking : Bool} {pc pc' : RecvPc T}
    (hl : loads (.recv n blocking pc : Party c T) = none) (hm : RecvMove m blocking pc m' pc' e)
    (y : Atomic) : told y (word m y) (recv_actions m' pc) = word m' y := by
  cases hm with
  | found | ended | empty => cases hl
  | _ => cases y <;> rfl

theorem told_move (hl : loads p = none) (hm : PartyMove m p m' p' e) (y : Atomic) :
    told y (word m y) (actions m m' p (some p')) = word m' y := by
  cases hm with
  | send hm => exact told_send hl hm y
  | recv hm => exact told_recv hl hm y
  | drop hm => cases hm <;> cases y <;> rfl

variable {ss : Multiset ℕ} {r : Bool} {n : ℕ} {rest : Multiset (Party c T)} {t : Thread Handle}

theorem send_tells {k x : ℕ} {blocking : Bool} {pc pc' : SendPc c T} (hcalm : ¬ Carries m.send)
    (hd : RecvStatus.dead m.recv = false) (hl : loads (.send k blocking x pc) = none)
    (hcommit : .access () ∈ send_actions m' pc (some (.send k blocking x pc')) →
      RecvStatus.commit m.recv = false) (hm : SendMove m blocking pc m' pc' e) :
    Tells m m' t (send_actions m' pc (some (.send k blocking x pc'))) := by
  cases hm with
  | attempt data =>
    obtain ⟨h0,-,hdead,-⟩ := attempt_spec hcalm
    exact ⟨by simp [send_actions],fun h1 _ => ⟨hdead.trans h1,h0⟩,.inl ⟨by simp [send_actions],rfl,
      by simp [send_actions]⟩⟩
  | write data =>
    exact ⟨by simp [send_actions],fun h1 h2 => ⟨h1,h2⟩,.inl ⟨by simp [send_actions],rfl,
      fun hc => absurd (hc.symm.trans (hcommit (by simp [send_actions]))) (by decide)⟩⟩
  | commit =>
    exact ⟨by simp [send_actions],fun h1 h2 => ⟨h1,h2⟩,
      .inr ⟨_,rfl,.inr ⟨fun _ => RecvStatus.commit_COMMIT,hd⟩⟩⟩
  | @spin data spin w pc hc hdead =>
    obtain rfl : spin = 0 := by simpa [loads] using hl
    exact ⟨by simp [send_actions],fun h1 h2 => ⟨hdead.trans h1,hc.trans_ne h2⟩,
      .inl ⟨by simp [send_actions],rfl,by simp [send_actions]⟩⟩
  | rearm =>
    exact ⟨by simp [send_actions],fun h1 h2 => ⟨by simpa using h1,by simpa using h2⟩,
      .inl ⟨by simp [send_actions],rfl,by simp [send_actions]⟩⟩
  | full => cases blocking <;> refine tells_quiet ?_ ?_ ?_ ⟨rfl,rfl⟩ <;> simp [send_actions]
  | _ => refine tells_quiet ?_ ?_ ?_ ⟨rfl,rfl⟩ <;> simp [send_actions]

theorem recv_tells {blocking : Bool} {pc pc' : RecvPc T} (ho : dead m.send = false)
    (ht : t ∈ bound .receiver) (hcommit : .access () ∈ recv_actions m' pc →
      RecvStatus.commit m.recv = false) (hm : RecvMove m blocking pc m' pc' e) :
    Tells m m' t (recv_actions m' pc) := by
  have hsend (h1 : dead m.send = true) {P : Prop} : P :=
    absurd (h1.symm.trans ho) (by decide)
  cases hm with
  | clear | arm =>
    exact ⟨by simp [recv_actions],fun h1 => hsend h1,.inr ⟨_,rfl,.inl ht⟩⟩
  | read =>
    exact ⟨by simp [recv_actions],fun h1 => hsend h1,.inl ⟨by simp [recv_actions],rfl,
      fun hc => absurd (hc.symm.trans (hcommit (by simp [recv_actions]))) (by decide)⟩⟩
  | release =>
    exact ⟨by simp [recv_actions],fun h1 => hsend h1,.inl ⟨by simp [recv_actions],rfl,
      by simp [recv_actions]⟩⟩
  | _ => refine tells_quiet ?_ ?_ ?_ ⟨rfl,rfl⟩ <;> simp [recv_actions]

theorem raising_alive (hk : Handles ⟨m,ss,r,.drop_sender .raise ::ₘ rest,n⟩) :
    RecvStatus.dead m.recv = false := by
  have honce := hk.senders_tallied.once
  simp only [senders_tally, weigh_cons, raising] at honce
  cases hd : RecvStatus.dead m.recv
  · rfl
  · rw [hd, Bool.toNat_true] at honce
    split at honce <;> omega

theorem drop_tells (hk : Handles ⟨m,ss,r,p ::ₘ rest,n⟩) (ho : OpenOrDead ⟨m,ss,r,p ::ₘ rest,n⟩)
    (hm : DropMove m p m' p' e) : Tells m m' t (actions m m' p (some p')) := by
  cases hm with
  | sender_raise =>
    exact ⟨by simp [actions,drop_sender_actions],fun h1 h2 => ⟨h1,h2⟩,
      .inr ⟨_,rfl,.inr ⟨by simp,raising_alive hk⟩⟩⟩
  | receiver_raise =>
    refine ⟨by simp [actions,drop_receiver_actions],fun h1 => ?_,
      .inl ⟨by simp [actions,drop_receiver_actions],rfl,by simp [actions,drop_receiver_actions]⟩⟩
    simp only [OpenOrDead, weigh_cons, h1, closing, Bool.toNat_true] at ho
    omega
  | sender_count =>
    refine tells_quiet ?_ ?_ ?_ ⟨rfl,rfl⟩ <;> simp [actions,drop_sender_actions]
  | last_sender =>
    refine tells_quiet ?_ ?_ ?_ ⟨rfl,rfl⟩ <;> simp [actions,drop_sender_actions,release_actions]
  | last_receiver =>
    refine tells_quiet ?_ ?_ ?_ ⟨rfl,rfl⟩ <;> simp [actions,drop_receiver_actions,release_actions]

theorem move_tells {h : List (Event T)} {named : Multiset (Thread Handle × Party c T)}
    (hk : Handles ⟨m,ss,r,p ::ₘ named.map Prod.snd,n⟩)
    (ho : OpenOrDead ⟨m,ss,r,p ::ₘ named.map Prod.snd,n⟩)
    (hi : PoolSlots.Inv (view h ⟨m,ss,r,p ::ₘ named.map Prod.snd,n⟩)) (hcalm : ¬ Carries m.send)
    (hf : Fits t p) (hl : loads p = none) (hm : PartyMove m p m' p' e) :
    Tells m m' t (actions m m' p (some p')) := by
  have hfree (ha : .access () ∈ actions m m' p (some p')) : RecvStatus.commit m.recv = false :=
    (alone_of_slots hi hk rfl (access_owner hl ha)).1
  cases hm with
  | send hm =>
    exact send_tells hcalm (hk.senders_tallied.down (sender_held hk rfl)).2 hl hfree hm
  | recv hm =>
    cases hf
    exact recv_tells (receive_open hk ho rfl) (.inr (.inl ⟨_,rfl⟩)) hfree hm
  | drop hm => exact drop_tells hk ho hm

end Words

section Traces

variable {h : List (Event T)} {s : Scene c T} {t : Thread Handle}
  {rest : Multiset (Thread Handle × Party c T)}

def alive (s : Scene c T) : Handle → Prop
  | .sender id => id ∈ s.senders
  | .receiver => s.receiver = true

abbrev Traced (s : Scene c T) : Prop :=
  PoolShared.Traced (shared c T) s.trace s.inner (alive s) s.calls

theorem erase_cons (hc : s.calls = (t,p) ::ₘ rest) :
    s.erase = ⟨s.inner,s.senders,s.receiver,p ::ₘ rest.map Prod.snd,s.next⟩ := by
  simp [Scene.erase,hc]

theorem nobody (hs : s.senders = 0) (hr : s.receiver = false) (x : Handle) : ¬ alive s x := by
  cases x <;> simp [alive,hs,hr]

theorem rest_unfreeing (hk : Handles s.erase) (hc : s.calls = (t,p) ::ₘ rest) :
    ∀ q ∈ rest, freeing q.2 = 0 := (tallied hk).rest_unfreeing hc

theorem unfreeing (hk : Handles s.erase) {x : Handle} (hx : alive s x) :
    ∀ q ∈ s.calls, freeing q.2 = 0 := by
  have hn (hn : s.senders.card+s.receiver.toNat = 0) : False :=
    nobody (Multiset.card_eq_zero.mp (by omega))
      (by simpa using Nat.eq_zero_of_add_eq_zero_left hn) x hx
  exact fun q hq => (tallied hk).unfreeing hn q.2 (Multiset.mem_map_of_mem _ hq)

theorem unfreed_of_call (hk : Handles s.erase) {q : Thread Handle × Party c T}
    (hq : q ∈ s.calls) : s.inner.freed = false := by
  by_contra hf
  have h0 := (freed_empty hk (Bool.not_eq_false _ ▸ hf)).2.2
  have hmem : q.2 ∈ s.erase.calls := Multiset.mem_map_of_mem _ hq
  simp [h0] at hmem

theorem unfreed_of_alive (hk : Handles s.erase) {x : Handle} (hx : alive s x) :
    s.inner.freed = false := by
  by_contra hf
  obtain ⟨hs,hr,-⟩ := freed_empty hk (Bool.not_eq_false _ ▸ hf)
  exact nobody hs hr x hx

theorem move_count (hm : PartyMove m p m' p' e) : m'.freed = m.freed ∧
    (m'.strong = m.strong ∧ freeing p' = 0 ∨ m.strong = 1 ∧ m' = { m with strong := 0 } ∧
      unreleased p = 1 ∧ holding p' = .none ∧ actions m m' p (some p') =
        [.update .strong .release (.count m'.strong),.fence .acquire]) := by
  cases hm with
  | send hm =>
    obtain ⟨-,hs,hf,-⟩ := send_move_frame hm
    exact ⟨hf,.inl ⟨hs,rfl⟩⟩
  | recv hm =>
    obtain ⟨-,hs,hf,-⟩ := recv_move_frame hm
    exact ⟨hf,.inl ⟨hs,rfl⟩⟩
  | drop hd =>
    cases hd with
    | last_sender h1 => exact ⟨rfl,.inr ⟨h1,rfl,rfl,rfl,rfl⟩⟩
    | last_receiver h1 => exact ⟨rfl,.inr ⟨h1,rfl,rfl,rfl,rfl⟩⟩
    | sender_count => refine ⟨rfl,.inl ⟨rfl,?_⟩⟩; split_ifs <;> rfl
    | sender_raise => refine ⟨rfl,.inl ⟨rfl,?_⟩⟩; split_ifs <;> rfl
    | receiver_raise => refine ⟨rfl,.inl ⟨rfl,?_⟩⟩; split_ifs <;> rfl

theorem access_settled (hl : loads p = none) (hm : PartyMove m p m' p' e)
    (ha : .access () ∈ actions m m' p (some p')) : () ∉ (holding p').awaits := by
  have howner := access_owner hl ha
  cases hm with
  | send hm =>
    cases hm with
    | write => simp [holding]
    | own => simp [holding]
    | _ => simp_all [actions,send_actions]
  | recv hm => cases hm <;> simp_all [actions,recv_actions,holding]
  | drop hm => cases hm <;> cases howner

theorem traced_move (hk : Handles s.erase) (hi : PoolSlots.Inv (view h s.erase))
    (hcalm : ¬ Carries s.inner.send) (ht : Traced s) (hl : loads p = none)
    (hc : s.calls = (t,p) ::ₘ rest) (hm : PartyMove s.inner p m' p' e) : Traced { s with
      trace := s.trace++marks t (actions s.inner m' p (some p'))
      inner := m'
      calls := (t,p') ::ₘ rest } := by
  have hmem : (t,p) ∈ s.calls := by simp [hc]
  have hcalls : s.erase.calls = p ::ₘ rest.map Prod.snd := by simp [Scene.erase,hc]
  have hf := unfreed_of_call hk hmem
  have hfit : Fits t p := ht.fits _ hmem
  have hdeed : Does s.inner m' p p' (actions s.inner m' p (some p')) := move_deed hcalm hl hm
  have halone : ∀ k, .access k ∈ actions s.inner m' p (some p') →
      Alone (shared c T) s.inner rest k ∧ k ∉ ((shared c T).holding p').awaits :=
    fun _ ha => ⟨(alone_of_slots hi hk hcalls (access_owner hl ha)).2,access_settled hl hm ha⟩
  have ht' : PoolShared.Traced (shared c T) s.trace s.inner (alive s) ((t,p) ::ₘ rest) := hc ▸ ht
  obtain ⟨hfreed,⟨hstrong,hp'⟩ | ⟨h1,h0,hu,hown,hact⟩⟩ := move_count hm
  · exact ht'.move hf (hfreed.trans hf) hstrong (told_move hl hm) (Fits.move hfit hm) halone hdeed
      (unfreeing_cons hp' (rest_unfreeing hk hc))
  · have hp : p ∈ s.erase.calls := by simp [hcalls]
    obtain ⟨hs,hr,hp⟩ := last_sole hk hp hu h1
    obtain ⟨x,hx⟩ := Fits.dropping hfit hu
    have hrest : rest = 0 := rest_eq_zero hp hc
    have hin : (holding p').Within (holding p) := hown ▸ Holding.none_within _
    have htold := told_move hl hm
    rw [hact] at htold ⊢
    subst h0
    exact ht'.last_count hf hx hrest (nobody hs hr) (h1.trans_ne one_ne_zero) hf rfl
      (Fits.move hfit hm) (parks_mono id id) hin htold

theorem holding_send_spin (id : ℕ) (blocking : Bool) (x : ℕ) (data : T) (spin : ℕ)
    (w : SendStatusU c) : holding (.send id blocking x (send_spin data spin w)) = .none := by
  rw [send_spin]
  split_ifs <;> rfl

theorem holding_recv_load (id : ℕ) (blocking : Bool) (i : ℕ) (w : BitVec 32) :
    holding (.recv id blocking (try_recv_load blocking i w) : Party c T) =
      ⟨cell_if (RecvStatus.commit w = true),∅⟩ := by
  rw [try_recv_load]
  split_ifs <;> simp_all [holding,cell_if,Holding.none]

theorem traced_poll (hk : Handles s.erase) (ht : Traced s) (htold : Told s.trace s.inner)
    (hfollow : Follows s.trace s.calls) {y : Atomic} {o : MemOrder} {g : ℕ} {v : Value c}
    (hc : s.calls = (t,p) ::ₘ rest) (hp : Polls (put s.inner y v) p y o p')
    (hr : Readable s.trace t y g v) : Traced { s with
      trace := s.trace++[(t,.load y o g)]
      calls := (t,p') ::ₘ rest } := by
  have hmem : (t,p) ∈ s.calls := by simp [hc]
  have hfit : Fits t p := ht.fits _ hmem
  have ht' : PoolShared.Traced (shared c T) s.trace s.inner (alive s) ((t,p) ::ₘ rest) := hc ▸ ht
  have hpark := (htold.readable hfollow hmem hp hr).2
  have hfit' : Fits t p' ∧ freeing p' = 0 := by
    cases hp <;> cases hfit <;> exact ⟨by constructor,rfl⟩
  have hhold : (∀ k ∈ (holding p').knows, Held (s.trace++[(t,.load y o g)]) k t) ∧
      (holding p').awaits ⊆ (holding p).awaits := by
    cases hp with
    | send id b x data h0 => simp [holding_send_spin,Holding.none]
    | recv id b i =>
      simp only [holding_recv_load]
      refine ⟨fun k hk => ?_,Set.empty_subset _⟩
      obtain ⟨u,o',hg⟩ := hr.1
      exact (hpark rfl hk).acquire_load hg.lt
  exact ht'.load (unfreed_of_call hk hmem) hfit'.1 hhold.1 hhold.2
    (unfreeing_cons hfit'.2 (rest_unfreeing hk hc))

theorem traced_done (hk : Handles s.erase) (ht : Traced s) (hc : s.calls = (t,p) ::ₘ rest)
    (hp : p.sender ≠ none ∨ p.receives = true) : Traced { s with calls := rest } := by
  have hmem : (t,p) ∈ s.calls := by simp [hc]
  have herase : p ∈ s.erase.calls := Multiset.mem_map_of_mem _ hmem
  have hfit : Fits t p := ht.fits _ hmem
  obtain ⟨x,id,hname,hx⟩ : ∃ x id, t = .call x id ∧ alive s x := by
    cases hfit with
    | send id b x pc => exact ⟨_,id,rfl,hk.sender _ herase x rfl⟩
    | recv id b pc =>
      exact ⟨_,id,rfl,(receiver_held (erase_cons hc ▸ hk) rfl).1⟩
    | _ => simp [Party.sender,Party.receives] at hp
  have ht' : PoolShared.Traced (shared c T) s.trace s.inner (alive s) ((t,p) ::ₘ rest) := hc ▸ ht
  exact ht'.leave (unfreed_of_call hk hmem) hx hname

theorem traced_release (hk : Handles s.erase) (ht : Traced s) (hc : s.calls = (t,p) ::ₘ rest)
    (hp : unreleased p = 1) : Traced { s with
      trace := s.trace++marks t [.update .strong .release (.count (s.inner.strong-1))]
      inner := { s.inner with strong := s.inner.strong-1 }
      calls := rest } := by
  have hmem : (t,p) ∈ s.calls := by simp [hc]
  have hf := unfreed_of_call hk hmem
  obtain ⟨x,hx⟩ := Fits.dropping (ht.fits _ hmem) hp
  have hle := le_weigh unreleased (s := s.erase.calls) (p := p) (Multiset.mem_map_of_mem _ hmem)
  have hpos : 0 < s.inner.strong := hk.arc_tallied.num_pos (by simp only [arc_tally]; omega)
  have ht' : PoolShared.Traced (shared c T) s.trace s.inner (alive s) ((t,p) ::ₘ rest) := hc ▸ ht
  refine ht'.release hf hx hf hpos.ne' (parks_mono id id) (fun y => ?_)
    (fun q hq h0 => h0 (rest_unfreeing hk hc q hq))
  cases y <;> rfl

theorem traced_free (hk : Handles s.erase) (ht : Traced s) (hc : s.calls = (t,p) ::ₘ rest)
    (hp : freeing p ≠ 0) (g : ℕ) : Traced { s with
      trace := s.trace++[(t,.load .recv .acquire g)]++marks t (free_actions s.inner)
      inner := { s.inner with freed := true }
      calls := rest } := by
  have hmem : (t,p) ∈ s.calls := by simp [hc]
  obtain ⟨h0,-,-,hsole⟩ := freeing_sole hk (p := p) (Multiset.mem_map_of_mem _ hmem) hp
  have hrest : rest = 0 := rest_eq_zero hsole hc
  have ht' : PoolShared.Traced (shared c T) s.trace s.inner (alive s) ((t,p) ::ₘ rest) := hc ▸ ht
  exact ht'.free (unfreed_of_call hk hmem) hrest hp h0 rfl (fun x => by cases x <;> rfl)

theorem same_waking {w : Futex} {n : ℕ} (hw : Waking p w n p') : Same (shared c T) p p' := by
  refine ⟨?_,?_,fun t (hf : Fits t p) => ?_⟩
  · cases hw <;> rfl
  · simp only [shared, quiet_freeing.waking _ _ _ _ hw]
  · cases hw <;> cases hf <;> constructor

theorem same_woken {w : Futex} (hw : woken w p = some p') : Same (shared c T) p p' := by
  refine ⟨?_,?_,fun t (hf : Fits t p) => ?_⟩
  · rcases woken_cases hw with ⟨_,_,_,_,-,rfl,rfl⟩ | ⟨_,_,-,rfl,rfl⟩ <;> rfl
  · simp only [shared, quiet_freeing.woken _ _ _ hw]
  · rcases woken_cases hw with ⟨_,_,_,_,-,rfl,rfl⟩ | ⟨_,_,-,rfl,rfl⟩ <;> cases hf <;> constructor

end Traces

section Steps

variable {h : List (Event T)} {s s' : Scene c T} {t : Thread Handle}
  {rest : Multiset (Thread Handle × Party c T)}

theorem free_exit (hf : freeing p ≠ 0) (hc : code m p = .exit m' e) :
    m' = { m with freed := true } ∧ actions m m' p none = free_actions m := by
  cases code_exits hc with
  | sender_free hd => exact ⟨(drop_inner_spec hd).1,rfl⟩
  | receiver_free hd => exact ⟨(drop_inner_spec hd).1,rfl⟩
  | _ => exact absurd rfl hf

theorem free_reads (ht : Traced s) {y : Atomic} {o : MemOrder} {g : ℕ} {v : Value c}
    (hc : s.calls = (t,p) ::ₘ rest) (hl : loads p = some (y,o)) (hr : Readable s.trace t y g v)
    (hcode : code (put s.inner y v) p = .exit m' e) :
    freeing p ≠ 0 ∧ y = .recv ∧ o = .acquire ∧ put s.inner y v = s.inner ∧
      code s.inner p = .exit m' e ∧ m' = { s.inner with freed := true } ∧
        actions s.inner m' p none = free_actions s.inner := by
  obtain ⟨hp,rfl,rfl⟩ := load_exit hl hcode
  have hf : freeing p ≠ 0 := by
    rcases hp with rfl | rfl <;> exact one_ne_zero
  have hv : v = word s.inner .recv := hr.latest (ht.latest .recv) (ht.last (t,p) (by simp [hc]) hf)
  have hput : put s.inner .recv v = s.inner := by rw [hv, put_self]
  rw [hput] at hcode
  obtain ⟨hm,ha⟩ := free_exit hf hcode
  exact ⟨hf,rfl,rfl,hput,hcode,hm,ha⟩

theorem erased_party {calls calls' : Multiset (Party c T)} (hc : s.erase.calls = calls)
    (hp : PartyStep (program c T) s.inner calls e m' calls') :
    Step s.erase e { s.erase with inner := m', calls := calls' } :=
  .party (hc ▸ hp)

/-- A weak step is one of the channel, or that of a call that was shown an old word. -/
theorem erase_step (ht : Traced s) (hk : Handles s.erase)
    (htold : s.inner.freed = false → Told s.trace s.inner) (hfollow : Follows s.trace s.calls)
    (hstep : WeakStep s e s') :
    Step s.erase e s'.erase ∨ e = .tau ∧ Stale s.erase s'.erase := by
  cases hstep with
  | party hp =>
    rcases hp.erase with hp | hload
    · exact .inl (.party hp)
    generalize hcalls : s.calls = cs at hload
    have herase {t : Thread Handle} {p : Party c T} {rest : Multiset (Thread Handle × Party c T)}
        (hc : s.calls = (t,p) ::ₘ rest) : s.erase.calls = p ::ₘ rest.map Prod.snd := by
      simp [Scene.erase,hc]
    cases hload with
    | @go _ t p p' _ _ y o g v hl hr hc =>
      have hmem : (t,p) ∈ s.calls := by simp [hcalls]
      obtain ⟨hpoll,rfl,rfl⟩ := load_go hl hc
      have hvouched := ((htold (unfreed_of_call hk hmem)).readable hfollow hmem hpoll hr).1
      rcases hpoll.shown hvouched with hgo | hidle
      · have hstep := erased_party (herase hcalls) (.go hgo)
        exact .inl (by simpa [Scene.erase,marking,put_word,program] using hstep)
      · have hok := party_move_ok (hk.ok p (by simp [herase hcalls])) (code_moves hc)
        have hstale := Stale.intro (herase hcalls) hidle hok
        exact .inr ⟨rfl,by simpa [Scene.erase,marking,put_word] using hstale⟩
    | exit hl hr hc =>
      obtain ⟨-,rfl,-,-,hc,rfl,-⟩ := free_reads ht hcalls hl hr hc
      have hstep := erased_party (herase hcalls) (.exit hc)
      exact .inl (by simpa [Scene.erase,marking,put,word] using hstep)
  | call_send blocking data hx =>
    have := Step.call_send (s := s.erase) blocking data hx
    exact .inl (by simpa [Scene.erase] using this)
  | call_recv blocking hx hnone =>
    have := Step.call_recv (s := s.erase) blocking hx
      (by simpa [Scene.erase] using fun p t ht => hnone (t,p) ht)
    exact .inl (by simpa [Scene.erase] using this)
  | clone_sender hx hc => exact .inl (.clone_sender (s := s.erase) hx hc)
  | drop_sender hs hfree =>
    have := Step.drop_sender (s := s.erase) hs
      (by simpa [Scene.erase] using fun p t ht => hfree (t,p) ht)
    exact .inl (by simpa [Scene.erase] using this)
  | drop_receiver hs hfree =>
    have := Step.drop_receiver (s := s.erase) hs
      (by simpa [Scene.erase] using fun p t ht => hfree (t,p) ht)
    exact .inl (by simpa [Scene.erase] using this)

theorem traced_party (hk : Handles s.erase) (hi : PoolSlots.Inv (view h s.erase))
    (hcalm : ¬ Carries s.inner.send) (ht : Traced s)
    (htold : s.inner.freed = false → Told s.trace s.inner) (hfollow : Follows s.trace s.calls)
    {τ : Trace (Thread Handle) Atomic Unit (Value c)}
    {calls : Multiset (Thread Handle × Party c T)}
    (hp : ThreadStep (program c T) (marking c T) s.trace s.inner s.calls e τ m' calls) :
    Traced { s with trace := τ, inner := m', calls := calls } := by
  generalize hcalls : s.calls = cs at hp
  cases hp with
  | go hl hc => exact traced_move hk hi hcalm ht hl hcalls (code_moves hc)
  | exit hl hc =>
    cases code_exits hc with
    | send =>
      have := traced_done hk ht hcalls (.inl (by simp [Party.sender]))
      simpa [marking,actions,send_actions,marks] using this
    | recv =>
      have := traced_done hk ht hcalls (.inr rfl)
      simpa [marking,actions,recv_actions,marks] using this
    | sender_release => exact traced_release hk ht hcalls rfl
    | receiver_release => exact traced_release hk ht hcalls rfl
    | sender_free => cases hl
    | receiver_free => cases hl
  | @load_go _ t p _ _ _ y o g v hl hr hc =>
    have hmem : (t,p) ∈ s.calls := by simp [hcalls]
    obtain ⟨hp,rfl,-⟩ := load_go hl hc
    have := traced_poll hk ht (htold (unfreed_of_call hk hmem)) hfollow hcalls hp hr
    simpa [marking,put_word,hp.silent,marks] using this
  | @load_exit _ _ _ _ _ y o g v hl hr hc =>
    obtain ⟨hf,rfl,rfl,hput,-,rfl,ha⟩ := free_reads ht hcalls hl hr hc
    simp only [marking, hput, ha]
    exact traced_free hk ht hcalls hf g
  | wake hc hw =>
    rw [Traced, hcalls] at ht
    exact ht.wake (same_waking (code_wakes hc)) hw (fun _ _ => same_woken)
  | @spurious _ _ _ w rest hw =>
    rw [Traced, hcalls] at ht
    have hstop : Wake (named (woken w)) 0 rest rest := .nil _
    exact ht.wake (same_woken hw) hstop (fun _ _ => same_woken)

theorem traced_call (hk : Handles s.erase) (ht : Traced s) {x : Handle} (hx : alive s x)
    (hfit : Fits t p) (hown : holding p = .none) (hfree : freeing p = 0)
    (threads : Set (Thread Handle)) (n : ℕ) : Traced { s with
      trace := s.trace++[(t,.join threads)]
      calls := (t,p) ::ₘ s.calls
      next := n } :=
  ht.call (unfreed_of_alive hk hx) threads hfit hown (unfreeing_cons hfree (unfreeing hk hx))

theorem traced_drop (hk : Handles s.erase) (ht : Traced s) {x : Handle} (hx : alive s x)
    (hfit : Fits (.drop x) p) (hown : holding p = .none) (hfree : freeing p = 0)
    {senders : Multiset ℕ} {receiver : Bool}
    (ha : ∀ y, alive s y → y = x ∨
      alive { s with senders := senders, receiver := receiver } y) : Traced { s with
      trace := s.trace++[(.drop x,.join (bound x))]
      senders := senders
      receiver := receiver
      calls := (.drop x,p) ::ₘ s.calls } :=
  ht.drop (unfreed_of_alive hk hx) hfit hown (unfreeing_cons hfree (unfreeing hk hx)) ha

theorem traced_clone (hk : Handles s.erase) (ht : Traced s) {x : ℕ} (hx : x ∈ s.senders)
    (hc : clone_sender s.inner = some m') : Traced { s with
      trace := s.trace++marks (.clone (.sender x) (.sender s.next))
        [.join (created (.sender x)),.update .num_senders .relaxed (.count m'.num_senders),
          .update .strong .relaxed (.count m'.strong)]
      inner := m'
      senders := s.next ::ₘ s.senders
      next := s.next+1 } := by
  have hx' : alive s (.sender x) := hx
  have hf := unfreed_of_alive hk hx'
  obtain ⟨-,rfl⟩ := clone_sender_ok hc
  have hstrong : 0 < s.inner.strong := by
    refine hk.arc_tallied.num_pos ?_
    have := Multiset.card_pos_iff_exists_mem.mpr ⟨x,hx⟩
    simp only [arc_tally, Scene.erase]
    omega
  refine ht.clone hf hf (by simp [Plain]) (fun y => ?_) (fun y hy => ?_) hx'
    (.inr (.inr (.inl ⟨_,rfl⟩))) hstrong.ne' (parks_mono id id)
    (fun q hq h0 => h0 (unfreeing hk hx' q hq))
  · cases y <;> rfl
  · cases y with
    | sender id => exact Multiset.mem_cons_of_mem hy
    | receiver => exact hy

theorem traced_step (hk : Handles s.erase) (hi : PoolSlots.Inv (view h s.erase))
    (hcalm : ¬ Carries s.inner.send) (ht : Traced s)
    (htold : s.inner.freed = false → Told s.trace s.inner) (hfollow : Follows s.trace s.calls)
    (hstep : WeakStep s e s') : Traced s' := by
  cases hstep with
  | party hp => exact traced_party hk hi hcalm ht htold hfollow hp
  | @call_send x blocking data hx =>
    exact traced_call hk ht (x := .sender x) hx (.send _ _ _ _) rfl rfl _ _
  | @call_recv blocking hx hnone =>
    exact traced_call hk ht (x := .receiver) hx (.recv _ _ _) rfl rfl _ _
  | clone_sender hx hc => exact traced_clone hk ht hx hc
  | @drop_sender x rest hs hfree =>
    refine traced_drop hk ht (x := .sender x) (by simp [alive,hs]) (.drop_sender _ _) rfl rfl ?_
    rintro (id | _) hy
    · have hy : id ∈ s.senders := hy
      rw [hs] at hy
      rcases Multiset.mem_cons.mp hy with rfl | hy
      · exact .inl rfl
      · exact .inr hy
    · exact .inr hy
  | drop_receiver hs hfree =>
    refine traced_drop hk ht (x := .receiver) hs (.drop_receiver _) rfl rfl ?_
    rintro (id | _) hy
    · exact .inr hy
    · exact .inl rfl

theorem traced_start : Traced (start : Scene c T) := by
  have hfirst : alive (start : Scene c T) (.sender 0) := by simp [alive,start]
  refine PoolShared.traced_start (by simp [Plain,start_actions]) (fun y => ?_) rfl hfirst
  have hlater (n : ℕ) (v : Value c) :=
    (latest_update (marks Thread.main ((start_actions c).take n)) .main y .relaxed v).marks .main
      ((start_actions c).drop (n+1))
  cases y with
  | send => exact hlater 0 (.send 0)
  | recv => exact hlater 1 (.recv 0)
  | num_senders => exact hlater 2 (.count 1)
  | strong => exact hlater 3 (.count 2)

end Steps

end Lockness.SlotWeak
