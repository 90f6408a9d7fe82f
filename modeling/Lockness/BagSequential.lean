import Lockness.BagConservation

/-!
# The bag, one operation at a time

When every operation runs alone from its first step to its end, the bag is a
multiset of at most thirty values. A clone that aborts or panics has not ended,
and no operation of this module follows it.
-/

set_option autoImplicit false

namespace Lockness.BagSequential
open Lockness.PoolRuns Lockness.PoolFutex Lockness.PoolSlots Lockness.BagMasks Lockness.BagRequest
open Lockness.BagMachine Lockness.BagMoves Lockness.BagInversion Lockness.BagHandles
open Lockness.BagBoard Lockness.BagOwnership Lockness.BagConservation

variable {T : Type*}

/-- A call that runs alone to its end, with the events on its way. -/
inductive Alone (c : Target T) : Inner T → Party T → List (Event T) → Inner T → Prop
  | exit {m m' : Inner T} {p : Party T} {e : Event T} : code c m p = .exit m' e →
      Alone c m p [e] m'
  | go {m m' m'' : Inner T} {p p' : Party T} {e : Event T} {k : List (Event T)} :
      code c m p = .go m' p' e → Alone c m' p' k m'' → Alone c m p (e :: k) m''
  | wake {m m' : Inner T} {p p' : Party T} {w : Futex} {n : ℕ} {k : List (Event T)} :
      code c m p = .wake w n p' → Alone c m p' k m' → Alone c m p (.tau :: k) m'

inductive Operation (T : Type*) where
  | try_send (h : Sender) (data : SendBuffer T)
  | try_recv (h : ℕ)
  | clone_sender (h : Sender)
  | clone_receiver (h : ℕ)
  | drop_sender (h : Sender)
  | drop_receiver (h : ℕ)

inductive Reply (T : Type*) where
  | sent (r : SendResult T)
  | received (r : RecvResult T)
  | done

/-- A complete operation on a bag that no other call uses. -/
inductive Performs (c : Target T) : State T → Operation T × Reply T → State T → Prop
  | try_send {m m' : Inner T} {ss : Multiset Sender} {rs : Multiset ℕ} {n : ℕ} {h : Sender}
      {data : SendBuffer T} {k : List (Event T)} {r : SendResult T} : h ∈ ss →
      Alone c m (.send n false h (try_send h data)) (k++[.sent n r]) m' →
      Performs c ⟨m,ss,rs,0,n⟩ (.try_send h data,.sent r) ⟨m',ss,rs,0,n+1⟩
  | try_recv {m m' : Inner T} {ss : Multiset Sender} {rs : Multiset ℕ} {n h : ℕ}
      {k : List (Event T)} {r : RecvResult T} : h ∈ rs →
      Alone c m (.recv n false h .claim) (k++[.received n r]) m' →
      Performs c ⟨m,ss,rs,0,n⟩ (.try_recv h,.received r) ⟨m',ss,rs,0,n+1⟩
  | clone_sender {m m' : Inner T} {ss : Multiset Sender} {rs : Multiset ℕ} {n bias : ℕ}
      {h : Sender} : h ∈ ss → clone_sender c m = .ok m' bias →
      Performs c ⟨m,ss,rs,0,n⟩ (.clone_sender h,.done) ⟨m',⟨n,bias⟩ ::ₘ ss,rs,0,n+1⟩
  | clone_receiver {m m' : Inner T} {ss : Multiset Sender} {rs : Multiset ℕ} {n h : ℕ} : h ∈ rs →
      clone_receiver m = some m' →
      Performs c ⟨m,ss,rs,0,n⟩ (.clone_receiver h,.done) ⟨m',ss,n ::ₘ rs,0,n+1⟩
  | drop_sender {m m' : Inner T} {ss : Multiset Sender} {rs : Multiset ℕ} {n : ℕ} {h : Sender}
      {k : List (Event T)} : Alone c m (.drop_sender .count) k m' →
      Performs c ⟨m,h ::ₘ ss,rs,0,n⟩ (.drop_sender h,.done) ⟨m',ss,rs,0,n⟩
  | drop_receiver {m m' : Inner T} {ss : Multiset Sender} {rs : Multiset ℕ} {n h : ℕ}
      {k : List (Event T)} : Alone c m (.drop_receiver .count) k m' →
      Performs c ⟨m,ss,h ::ₘ rs,0,n⟩ (.drop_receiver h,.done) ⟨m',ss,rs,0,n⟩

/-- What a user sees of the bag: its values and whether either side is left. -/
structure Abstract (T : Type*) where
  bag : Multiset T
  senders : ℕ
  receivers : ℕ

/-- The bounded bag. A send moves some of its last values, a receive all there are. -/
inductive Spec : Abstract T → Operation T × Reply T → Abstract T → Prop
  | send_nothing {a : Abstract T} (h : Sender) {data : SendBuffer T} : data.contents = [] →
      Spec a (.try_send h data,.sent .ok) a
  | send_disconnected {a : Abstract T} (h : Sender) {data : SendBuffer T} : data.contents ≠ [] →
      a.receivers = 0 → Spec a (.try_send h data,.sent (.disconnected data)) a
  | send_full {a : Abstract T} (h : Sender) {data : SendBuffer T} : data.contents ≠ [] →
      a.receivers ≠ 0 → a.bag.card = N → Spec a (.try_send h data,.sent (.full data)) a
  | send {a : Abstract T} (h : Sender) {data : SendBuffer T} {kept moved : List T} :
      data.contents = kept++moved → a.receivers ≠ 0 → 1 ≤ moved.length →
      moved.length ≤ min data.contents.length (N-a.bag.card) →
      Spec a (.try_send h data,.sent .ok) { a with bag := a.bag+moved }
  | recv {a : Abstract T} (h : ℕ) {values : List T} : a.bag ≠ 0 → (values : Multiset T) = a.bag →
      Spec a (.try_recv h,.received (.ok values)) { a with bag := 0 }
  | recv_disconnected {a : Abstract T} (h : ℕ) : a.bag = 0 → a.senders = 0 →
      Spec a (.try_recv h,.received .disconnected) a
  | recv_empty {a : Abstract T} (h : ℕ) : a.bag = 0 → a.senders ≠ 0 →
      Spec a (.try_recv h,.received .empty) a
  | clone_sender (a : Abstract T) (h : Sender) :
      Spec a (.clone_sender h,.done) { a with senders := a.senders+1 }
  | clone_receiver (a : Abstract T) (h : ℕ) :
      Spec a (.clone_receiver h,.done) { a with receivers := a.receivers+1 }
  | drop_sender {a : Abstract T} (h : Sender) {n : ℕ} : a.senders = n+1 →
      Spec a (.drop_sender h,.done) { a with senders := n }
  | drop_receiver {a : Abstract T} (h : ℕ) {n : ℕ} : a.receivers = n+1 →
      Spec a (.drop_receiver h,.done) { a with receivers := n }

section Alone

variable {c : Target T} {m m' : Inner T} {p : Party T} {k : List (Event T)}

theorem Alone.steps (ha : Alone c m p k m') (ss : Multiset Sender) (rs : Multiset ℕ) (n : ℕ) :
    Steps (Step c) ⟨m,ss,rs,p ::ₘ 0,n⟩ k ⟨m',ss,rs,0,n⟩ := by
  induction ha with
  | @exit m m' p e hc =>
    have hx : PartyStep (program c) m (p ::ₘ 0) e m' 0 := .exit hc
    exact .single (.party (s := ⟨m,ss,rs,p ::ₘ 0,n⟩) hx)
  | @go m m' _ p p' e k hc _ ih =>
    have hg : PartyStep (program c) m (p ::ₘ 0) e m' (p' ::ₘ 0) := .go hc
    exact (Steps.single (.party (s := ⟨m,ss,rs,p ::ₘ 0,n⟩) hg)).trans ih
  | @wake m _ p p' w j k hc _ ih =>
    have hw : Wake ((program c).woken w) j (0 : Multiset (Party T)) 0 :=
      .nobody (fun p hp => absurd hp (Multiset.notMem_zero p))
    exact (Steps.single (.party (s := ⟨m,ss,rs,p ::ₘ 0,n⟩) (.wake hc hw))).trans ih

theorem leaks_cons (e : Event T) (k : List (Event T)) : leaks (e :: k) = leak e+leaks k := by
  simp [leaks]

theorem Alone.leaks (hok : Ok p) (ha : Alone c m p k m') : leaks k = 0 := by
  induction ha with
  | exit hc => rw [leaks_cons, exit_leak (code_exits hc)]; rfl
  | go hc _ ih =>
    have hm := code_moves hok hc
    rw [leaks_cons, party_move_leak hm, ih (party_move_ok hok hm)]
  | wake hc _ ih => rw [leaks_cons, ih (waking_ok (code_wakes hc) hok)]; rfl

theorem total_cons (f : Event T → Multiset T) (e : Event T) (k : List (Event T)) :
    total f (e :: k) = f e+total f k := by
  simp [total]

def Sent (id : ℕ) (k : List (Event T)) (r : SendResult T) : Prop := ∃ k', k = k'++[.sent id r]

def Received (id : ℕ) (k : List (Event T)) (r : RecvResult T) : Prop :=
  ∃ k', k = k'++[.received id r]

theorem Sent.cons {id : ℕ} {r : SendResult T} (h : Sent id k r) (e : Event T) :
    Sent id (e :: k) r := by
  obtain ⟨k',rfl⟩ := h
  exact ⟨e :: k',rfl⟩

theorem Received.cons {id : ℕ} {r : RecvResult T} (h : Received id k r) (e : Event T) :
    Received id (e :: k) r := by
  obtain ⟨k',rfl⟩ := h
  exact ⟨e :: k',rfl⟩

theorem Alone.total {f : Event T → Multiset T} {Q : Party T → Prop}
    (hmove : ∀ m p m' p' e, PartyMove m p m' p' e → Q p → Q p' ∧ f e = 0)
    (hwaking : ∀ p w n p', Waking p w n p' → Q p → Q p') (htau : f .tau = 0) (hok : Ok p)
    (hq : Q p) (ha : Alone c m p k m') :
    ∃ m₁ q e, Q q ∧ Exit c m₁ q m' e ∧ total f k = f e ∧ ∃ k', k = k'++[e] := by
  induction ha with
  | exit hc => exact ⟨_,_,_,hq,code_exits hc,by simp [BagBoard.total],[],rfl⟩
  | @go _ _ _ _ _ e _ hc _ ih =>
    have hm := code_moves hok hc
    obtain ⟨hq',he⟩ := hmove _ _ _ _ _ hm hq
    obtain ⟨m₁,q,e',hqq,hx,ht,k',rfl⟩ := ih (party_move_ok hok hm) hq'
    exact ⟨m₁,q,e',hqq,hx,by rw [total_cons, he, ht, zero_add],e :: k',rfl⟩
  | wake hc _ ih =>
    have hw := code_wakes hc
    obtain ⟨m₁,q,e',hqq,hx,ht,k',rfl⟩ := ih (waking_ok hw hok) (hwaking _ _ _ _ hw hq)
    exact ⟨m₁,q,e',hqq,hx,by rw [total_cons, htau, ht, zero_add],.tau :: k',rfl⟩

theorem move_returned {p' : Party T} {e : Event T} (hm : PartyMove m p m' p' e) :
    returned e = 0 := by
  cases hm with
  | send hm => cases hm <;> rfl
  | recv hm => cases hm <;> rfl
  | drop hm => cases hm <;> rfl

theorem Alone.returned (hok : Ok p) {e : Event T} (ha : Alone c m p (k++[e]) m') :
    BagBoard.total returned (k++[e]) = BagBoard.returned e := by
  obtain ⟨_,_,e',-,-,ht,k',hk⟩ := ha.total (f := BagBoard.returned) (Q := fun _ => True)
    (fun _ _ _ _ _ hm _ => ⟨trivial,move_returned hm⟩) (fun _ _ _ _ _ _ => trivial) rfl hok trivial
  obtain ⟨-,he⟩ := List.append_inj' hk rfl
  rw [List.singleton_inj] at he
  rw [ht, he]

def Sends : Party T → Prop
  | .send _ _ _ _ => True
  | _ => False

theorem Alone.taken (hok : Ok p) (hp : ¬ Sends p) (ha : Alone c m p k m') :
    BagBoard.total taken k = 0 := by
  have hmove (m : Inner T) (p : Party T) (m' : Inner T) (p' : Party T) (e : Event T)
      (hm : PartyMove m p m' p' e) (hp : ¬ Sends p) : ¬ Sends p' ∧ BagBoard.taken e = 0 := by
    cases hm with
    | send => exact absurd trivial hp
    | recv hm => cases hm <;> exact ⟨hp,rfl⟩
    | drop hm => cases hm <;> exact ⟨hp,rfl⟩
  have hwaking (p : Party T) (w : Futex) (n : ℕ) (p' : Party T) (hw : Waking p w n p')
      (hp : ¬ Sends p) : ¬ Sends p' := by
    cases hw with
    | send => exact absurd trivial hp
    | _ => exact hp
  obtain ⟨_,_,e,-,hx,ht,-⟩ := ha.total hmove hwaking rfl hok hp
  rw [ht]
  cases hx <;> rfl

end Alone

section Quiescent

variable {c : Target T} {h k : List (Event T)} {m m' : Inner T} {ss ss' : Multiset Sender}
  {rs rs' : Multiset ℕ} {n n' : ℕ}

/-- Between two operations the flags tell who is left, and the words which slots are full. -/
structure Settled (m : Inner T) (ss : Multiset Sender) (rs : Multiset ℕ) : Prop where
  receivers : dead m.send = true ↔ rs.card = 0
  senders : dead (~~~m.recv) = true ↔ ss.card = 0
  same : dead m.send = false → slots (N := 30) m.send = slots m.recv
  card : (cells m.bag (slots (N := 30) m.recv)).card = (slots (N := 30) m.recv).card

theorem settled (hrun : Steps (Step c) mpmc h ⟨m,ss,rs,0,n⟩) (hl : leaks h = 0) :
    Settled m ss rs := by
  have hk := handles_run hrun
  have hi := slots_run hrun
  have hempty (f : Party T → ℕ) : weigh f (0 : Multiset (Party T)) = 0 := rfl
  refine ⟨⟨fun hd => ?_,fun h0 => ?_⟩,⟨fun hd => ?_,fun h0 => ?_⟩,fun hd => ?_,?_⟩
  · have := (hk.receivers_tallied.raised hd).2.1
    simpa [receivers_tally] using this
  · exact hk.receivers_tallied.up (by simp [receivers_tally,h0]) rfl (by simp [receivers_tally])
  · have := (hk.senders_tallied.raised hd).2.1
    simpa [senders_tally] using this
  · exact hk.senders_tallied.up (by simp [senders_tally,h0]) hl (by simp [senders_tally])
  · ext i
    have := hi.open_owned hd i
    simp only [owners, view, Multiset.map_zero, reservers, claimers, weigh_zero, add_zero,
      board] at this
    constructor
    · intro hs
      rw [mark_of_mem hs] at this
      exact mark_pos (by omega)
    · intro hr
      rw [mark_of_mem hr] at this
      exact mark_pos (by omega)
  · rw [cells, Multiset.card_sum, Finset.card_eq_sum_ones]
    apply Finset.sum_congr rfl
    intro i hir
    have := hi.filled i
    simp only [view, Multiset.map_zero, writers, readers, weigh_zero, add_zero, board] at this
    rw [this, mark_of_mem hir]

end Quiescent

section Refinement

variable {c : Target T} {h : List (Event T)} {s t : State T} {o : Operation T × Reply T}

end Refinement

section Progress

variable {c : Target T} {h : List (Event T)} {m : Inner T} {p : Party T}

def remaining (m : Inner T) : Party T → ℕ
  | .send _ _ _ (.reserve _ _ mask) =>
    if slots (N := 30) mask ⊆ slots m.send then 35 else 34
  | .send _ _ _ (.write _ _ todo) => (slots (N := 30) todo).card+3
  | .send _ _ _ .wake => 2
  | .send _ _ _ _ => 1
  | .recv _ _ _ .claim => 34
  | .recv _ _ _ (.read _ todo _) => (slots (N := 30) todo).card+3
  | .recv _ _ _ (.wake _) => 2
  | .recv _ _ _ _ => 1
  | .drop_sender pc => drop_remaining pc
  | .drop_receiver pc => drop_remaining pc
where
  drop_remaining : DropPc → ℕ
    | .count => 5
    | .raise => 4
    | .wake => 3
    | .release => 2
    | .free => 1

section Filling

variable {a b : Abstract T} {x : Sender} {d : SendBuffer T} {r : Reply T}

theorem Spec.full (hs : Spec a (.try_send x d,r) b) (hne : d.contents ≠ [])
    (hr : a.receivers ≠ 0) (hc : a.bag.card = N) : r = .sent (.full d) ∧ b = a := by
  cases hs with
  | send_nothing _ h0 => exact absurd h0 hne
  | send_disconnected _ _ hd => exact absurd hd hr
  | send_full => exact ⟨rfl,rfl⟩
  | send _ _ _ h1 h2 => omega

theorem Spec.room (hs : Spec a (.try_send x d,r) b) (hne : d.contents ≠ [])
    (hr : a.receivers ≠ 0) (hc : a.bag.card < N) :
    r = .sent .ok ∧ ∃ kept moved, d.contents = kept++moved ∧ moved ≠ [] ∧
      b = { a with bag := a.bag+moved } := by
  cases hs with
  | send_nothing _ h0 => exact absurd h0 hne
  | send_disconnected _ _ hd => exact absurd hd hr
  | send_full _ _ _ hf => exact absurd hf hc.ne
  | send _ hkm _ h1 => exact ⟨rfl,_,_,hkm,List.length_pos_iff.mp h1,rfl⟩

theorem Spec.some {h : ℕ} (hs : Spec a (.try_recv h,r) b) (hne : a.bag ≠ 0) :
    ∃ values : List T, r = .received (.ok values) ∧ (values : Multiset T) = a.bag ∧
      b = { a with bag := 0 } := by
  cases hs with
  | recv _ _ hv => exact ⟨_,rfl,hv,rfl⟩
  | recv_disconnected _ h0 => exact absurd h0 hne
  | recv_empty _ h0 => exact absurd h0 hne

def fill (x : Sender) (n : ℕ) : List (Operation ℕ × Reply ℕ) :=
  (List.range n).map (fun v => (.try_send x (.value v),.sent .ok))

end Filling

end Progress
end Lockness.BagSequential
