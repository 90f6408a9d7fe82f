import Lockness.BagBoard
import Lockness.BagSchedule

/-!
# Who owns which slot of the bag

A slot is free, reserved by one `try_send`, committed and held by nobody, or
claimed by one `try_recv`; the two words alone do not tell the second from the
last. That no party ever reads a cell that is not initialised, nor takes a
value that its buffer does not have, follows from the same account.
-/

set_option autoImplicit false

namespace Lockness.BagOwnership
open Lockness.PoolRuns Lockness.PoolFutex Lockness.PoolSlots Lockness.BagMasks
open Lockness.BagMachine Lockness.BagMoves Lockness.BagHandles Lockness.BagBoard
open Lockness.BagSchedule

variable {T : Type*}

/-- The destructors of `values` run in this order. One that panics is the last, and the
values behind it are `leaked`. -/
structure Unwound (panics : T → Bool) (values : List T) (leaked : Multiset T) : Prop where
  last : ∀ v ∈ values.dropLast, panics v = false
  cause : leaked ≠ 0 → ∃ v ∈ values, panics v = true

theorem drop_slots_spec (c : Target T) (bag : Slot → Option T) {l : List Slot}
    (hl : ∀ i ∈ l, (bag i).isSome) : ∃ values leaked,
      (drop_slots c bag l).mapM bag = some values ∧
      (values : Multiset T)+leaked = (l.map (fun i => cell (bag i))).sum ∧
      Unwound c.drop_panics values leaked := by
  induction l with
  | nil => exact ⟨[],0,rfl,rfl,by simp,by simp⟩
  | cons i l ih =>
    obtain ⟨v,hv⟩ := Option.isSome_iff_exists.mp (hl i (by simp))
    rw [drop_slots, List.map_cons, List.sum_cons, hv]
    cases hp : c.drop_panics v with
    | true => exact ⟨[v],_,by simp [hp,hv],rfl,by simp,fun _ => ⟨v,by simp,hp⟩⟩
    | false =>
      obtain ⟨values,leaked,hm,hsum,hlast,hcause⟩ := ih (fun j hj => hl j (by simp [hj]))
      refine ⟨v::values,leaked,by simp [hp,hv,hm],?_,fun w hw => ?_,fun hne => ?_⟩
      · rw [← hsum, ← Multiset.cons_coe, Multiset.cons_add]
        exact (Multiset.singleton_add v _).symm
      · cases values with
        | nil => simp at hw
        | cons x xs =>
          rw [List.dropLast_cons_cons, List.mem_cons] at hw
          rcases hw with rfl | hw
          · exact hp
          · exact hlast w hw
      · obtain ⟨w,hw,hpw⟩ := hcause hne
        exact ⟨w,List.mem_cons_of_mem _ hw,hpw⟩

section Claims

variable {c : Target T} {h : List (Event T)} {s : BagMachine.State T}

def reserving (i : Slot) (p : Party T) : ℕ := mark (footprint p).reserved i

def claiming (i : Slot) (p : Party T) : ℕ := mark (footprint p).claimed i

theorem reservers_view (i : Slot) :
    reservers (view h s).pool i = weigh (reserving i) s.calls :=
  weigh_map _ _ _

theorem claimers_view (i : Slot) :
    claimers (view h s).pool i = weigh (claiming i) s.calls :=
  weigh_map _ _ _

inductive Situation where
  | free
  | reserved
  | committed
  | claimed

/-- The situation of a slot: its two bits and how many calls hold it. -/
def Situation.Holds (s : BagMachine.State T) (i : Slot) : Situation → Prop
  | .free => i ∉ slots s.inner.send ∧ i ∉ slots s.inner.recv ∧
      weigh (reserving i) s.calls = 0 ∧ weigh (claiming i) s.calls = 0
  | .reserved => i ∈ slots s.inner.send ∧ i ∉ slots s.inner.recv ∧
      weigh (reserving i) s.calls = 1 ∧ weigh (claiming i) s.calls = 0
  | .committed => i ∈ slots s.inner.send ∧ i ∈ slots s.inner.recv ∧ (s.inner.bag i).isSome ∧
      weigh (reserving i) s.calls = 0 ∧ weigh (claiming i) s.calls = 0
  | .claimed => i ∈ slots s.inner.send ∧ i ∉ slots s.inner.recv ∧
      weigh (reserving i) s.calls = 0 ∧ weigh (claiming i) s.calls = 1

theorem Situation.holds_unique {i : Slot} {q q' : Situation} (hq : q.Holds s i)
    (hq' : q'.Holds s i) : q' = q := by
  cases q <;> cases q' <;> first | rfl | exfalso
  all_goals
    obtain ⟨h1,h2,h3⟩ := hq
    obtain ⟨h1',h2',h3'⟩ := hq'
    first | exact h1 h1' | exact h1' h1 | exact h2 h2' | exact h2' h2 | omega

theorem open_of_receiver (hk : Handles h s) (hr : s.receivers ≠ 0) :
    dead s.inner.send = false := by
  obtain ⟨x,hx⟩ := Multiset.exists_mem_of_ne_zero hr
  exact (hk.receivers_tallied.down (hk.live_receiver hx).1).2

theorem situation_of_open (hi : PoolSlots.Inv (view h s)) (ho : dead s.inner.send = false)
    (i : Slot) : ∃ q : Situation, q.Holds s i := by
  have := hi.situations ho i
  rw [reservers_view, claimers_view] at this
  rcases this with hx | hx | ⟨ht,hr,h0,h1⟩ | hx
  · exact ⟨.free,hx⟩
  · exact ⟨.reserved,hx⟩
  · exact ⟨.committed,ht,hr,hi.ready_some hr,h0,h1⟩
  · exact ⟨.claimed,hx⟩

theorem owner_of_taken (hi : PoolSlots.Inv (view h s)) (ho : dead s.inner.send = false) {i : Slot}
    (hs : i ∈ slots (N := 30) s.inner.send) : i ∈ slots (N := 30) s.inner.recv ∨
      ∃ p ∈ s.calls, reserving i p = 1 ∨ claiming i p = 1 := by
  have hle (p : Party T) : reserving i p ≤ 1 ∧ claiming i p ≤ 1 :=
    ⟨mark_le_one _ _,mark_le_one _ _⟩
  obtain ⟨q,hq⟩ := situation_of_open hi ho i
  cases q with
  | free => exact absurd hs hq.1
  | committed => exact .inl hq.2.1
  | reserved =>
    obtain ⟨p,hp,hpos⟩ := (weigh_pos_iff (reserving i) s.calls).mp (by have := hq.2.2.1; omega)
    exact .inr ⟨p,hp,.inl (by have := hle p; omega)⟩
  | claimed =>
    obtain ⟨p,hp,hpos⟩ := (weigh_pos_iff (claiming i) s.calls).mp (by have := hq.2.2.2; omega)
    exact .inr ⟨p,hp,.inr (by have := hle p; omega)⟩

theorem drop_inner_total (hi : PoolSlots.Inv (view h s)) : ∃ m' values leaked,
    drop_inner c s.inner = some (m',values) ∧
    (values : Multiset T)+leaked = cells s.inner.bag (slots s.inner.recv) ∧
    Unwound c.drop_panics values leaked := by
  obtain ⟨hnodup,hset⟩ := drain_mask_slots (N := 30) (by decide) (s.inner.recv &&& ~~~Status.all)
  have hslots : (drain_mask N (s.inner.recv &&& ~~~Status.all)).toFinset =
      slots s.inner.recv := by simpa using hset
  obtain ⟨values,leaked,hm,hsum,hu⟩ := drop_slots_spec c s.inner.bag (fun i hmem =>
    hi.ready_some (i := i) (by
      rw [← List.mem_toFinset, hslots] at hmem
      exact hmem))
  refine ⟨_,values,leaked,by rw [drop_inner, hm]; rfl,?_,hu⟩
  rw [hsum, ← hslots, cells, List.sum_toFinset _ hnodup]

theorem read_defined (hi : PoolSlots.Inv (view h s)) {id x : ℕ} {blocking : Bool}
    {claimed todo : Word} {values : List T}
    (hp : .recv id blocking x (.read claimed todo values) ∈ s.calls)
    (hok : Ok (.recv id blocking x (.read claimed todo values))) :
    code c s.inner (.recv id blocking x (.read claimed todo values)) ≠ .ub := by
  obtain ⟨rest,hrest⟩ := Multiset.exists_cons_of_mem hp
  simp only [code, recv_code, try_recv_read]
  split
  · rename_i i todo' hdr
    have hmem := drain_next_mem (by decide) hdr
    have hcard := Finset.card_pos.mpr ⟨i,hmem⟩
    have hview : view h s = ⟨board s.inner,⟨∅,∅,slots claimed,slots todo,values⟩ ::ₘ
        rest.map footprint,ledger h⟩ := by
      simp [view,hrest,footprint]
    have hsome := ((hview ▸ hi).unread_some hmem).1
    split
    · rename_i hnone
      rw [show (board s.inner).bag i = none from hnone] at hsome
      cases hsome
    · rw [if_pos (by have := hok.2; omega)]
      simp
  · simp

/-- No party is about to do something undefined. -/
theorem no_ub (hk : Handles h s) (hi : PoolSlots.Inv (view h s)) {p : Party T}
    (hp : p ∈ s.calls) : code c s.inner p ≠ .ub := by
  have hok := hk.ok p hp
  cases p with
  | send id blocking x pc =>
    obtain ⟨-,d,hd⟩ := hok
    exact BagInversion.send_defined hd
  | recv id blocking x pc =>
    cases pc with
    | claim =>
      simp only [code, recv_code, try_recv_claim]
      repeat' split
      all_goals simp
    | read => exact read_defined hi hp hok
    | _ => simp [code,recv_code]
  | drop_sender pc =>
    cases pc with
    | free =>
      obtain ⟨_,_,_,hd,-⟩ := drop_inner_total (c := c) hi
      simp [code,drop_sender_code,free_code,hd]
    | release =>
      simp only [code, drop_sender_code, release_code]
      split <;> simp
    | _ => simp [code,drop_sender_code]
  | drop_receiver pc =>
    cases pc with
    | free =>
      obtain ⟨_,_,_,hd,-⟩ := drop_inner_total (c := c) hi
      simp [code,drop_receiver_code,free_code,hd]
    | release =>
      simp only [code, drop_receiver_code, release_code]
      split <;> simp
    | _ => simp [code,drop_receiver_code]

/-- While a receiver is left every slot is in one of the four situations. In
every state the ready slots are taken ones, nobody shares a slot, and nothing
uninitialised is read. -/
theorem slot_ownership (hrun : Steps (BagMachine.Step c) mpmc h s) :
    (s.receivers ≠ 0 → ∀ i, ∃! q : Situation, q.Holds s i) ∧
    slots (N := 30) s.inner.recv ⊆ slots s.inner.send ∧
    (∀ i, weigh (reserving i) s.calls+weigh (claiming i) s.calls ≤ 1) ∧
    (∀ p ∈ s.calls, code c s.inner p ≠ .ub) ∧
    (s.receivers ≠ 0 → ∀ i ∈ slots (N := 30) s.inner.send, i ∈ slots (N := 30) s.inner.recv ∨
      ∃ p ∈ s.calls, reserving i p = 1 ∨ claiming i p = 1) := by
  have hk := handles_run hrun
  have hi := slots_run hrun
  refine ⟨?_,hi.ready_subset,?_,fun p hp => no_ub hk hi hp,?_⟩
  · intro hr i
    obtain ⟨q,hq⟩ := situation_of_open hi (open_of_receiver hk hr) i
    exact ⟨q,hq,fun q' hq' => Situation.holds_unique hq hq'⟩
  · intro i
    have := hi.owned i
    rw [owners, reservers_view, claimers_view] at this
    have := mark_le_one (view h s).board.taken i
    omega
  · exact fun hr i hs => owner_of_taken hi (open_of_receiver hk hr) hs

theorem slot_ownership_claimed : ∃ (h : List (Event ℕ)) (s : BagMachine.State ℕ),
    Steps (BagMachine.Step .release) mpmc h s ∧ weigh (claiming 0) s.calls = 1 ∧
      ∃! q : Situation, q.Holds s 0 := by
  obtain ⟨h,s,hr,hs,hc⟩ := reaches (c := .release)
    ([Command.call_send 0 false (.value 7)]++List.replicate 4 (Command.act 0)++
      [Command.call_recv 0 false,Command.act 0])
    (fun _ s => s.receivers ≠ 0 ∧ weigh (claiming 0) s.calls = 1) (by decide +kernel)
  exact ⟨h,s,hr,hc,(slot_ownership hr).1 hs 0⟩

def owned (p : Party T) : Finset Slot := (footprint p).reserved ∪ (footprint p).claimed

theorem owned_idle {p : Party T} (hp : footprint p = .idle) : owned p = ∅ := by
  simp [owned,hp,Footprint.idle]

theorem owned_apart (hi : PoolSlots.Inv (view h s)) {p : Party T} {rest : Multiset (Party T)}
    (hc : s.calls = p ::ₘ rest) {i : Slot} (hp : i ∈ owned p) :
    i ∉ slots (N := 30) s.inner.recv ∧ i ∈ slots (N := 30) s.inner.send ∧
      ∀ q ∈ rest, i ∉ owned q := by
  simp only [view, hc, Multiset.map_cons] at hi
  obtain ⟨hr,ht,hrest⟩ := hi.owned_apart hp
  exact ⟨hr,ht,fun q hq => hrest _ (Multiset.mem_map_of_mem _ hq)⟩

end Claims
end Lockness.BagOwnership
