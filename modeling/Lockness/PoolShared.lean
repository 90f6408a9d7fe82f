import Lockness.PoolArc
import Lockness.PoolRaces
import Lockness.PoolTally
import Lockness.PoolThreads

/-!
# Threads that share an allocation

A program whose cells are each held by one party or parked at an atomic, and whose
handles are counted. What one step does with its cells and with the count is said by
its deed. Then the trace of every run is free of races, and the thread that frees the
allocation knows all that has happened.
-/

set_option autoImplicit false

namespace Lockness.PoolShared
open Lockness.PoolFutex Lockness.PoolTally Lockness.PoolOrder Lockness.PoolRaces Lockness.PoolArc
open Lockness.PoolThreads

variable {σ π ω ε η χ κ ν : Type*}

/-- The cells whose accesses a party knows, and those that it would know after an acquire
fence. -/
structure Holding (κ : Type*) where
  knows : Set κ
  awaits : Set κ

def Holding.none : Holding κ := ⟨∅,∅⟩

structure Holding.Within (a b : Holding κ) : Prop where
  knows : a.knows ⊆ b.knows
  awaits : a.awaits ⊆ b.awaits

/-- Beside the marks of a program: what its parties hold, where a cell is parked, what a
thread of a name does, who frees, and the count. -/
structure Shared (σ π η χ κ ν : Type*) extends Marking σ π (Thread η) χ κ ν where
  holding : π → Holding κ
  parked : σ → κ → Set χ
  fits : Thread η → π → Prop
  freeing : π → Prop
  strong : χ
  count : σ → ℕ
  freed : σ → Bool

variable {S : Shared σ π η χ κ ν} {τ ρ : Trace (Thread η) χ κ ν} {m m' : σ} {p p' : π} {e : ε}
  {t u : Thread η} {l : List (Action (Thread η) χ κ ν)} {k : κ} {x : χ} {y : η}
  {alive alive' : η → Prop} {calls calls' rest : Multiset (Thread η × π)} {a b : Holding κ}

theorem Holding.Within.refl (a : Holding κ) : a.Within a := ⟨subset_rfl,subset_rfl⟩

theorem Holding.none_within (a : Holding κ) : Holding.none.Within a :=
  ⟨Set.empty_subset _,Set.empty_subset _⟩

section Counts

variable {A : Tally} {n : ℕ} {u f : π → ℕ} {parties : Multiset π}

/-- The count follows `n` handles and the parties that have dropped one; a party that no
handle belongs to has dropped one, or it has released the last count and frees. -/
structure Tallied (A : Tally) (n : ℕ) (u f : π → ℕ) (parties : Multiset π) : Prop where
  inv : PoolTally.Inv A
  holders : A.holders = n+weigh u parties
  leaked : A.leaked = 0
  last : A.last = weigh f parties
  orphan : n = 0 → ∀ p ∈ parties, u p+f p = 1

theorem Tallied.sole (h : Tallied A n u f parties) (hn : n = 0)
    (h1 : weigh u parties+weigh f parties = 1) (hp : p ∈ parties) : parties = {p} := by
  rw [← weigh_add, weigh_congr _ (h.orphan hn)] at h1
  have hcard : parties.card = 1 := by simpa [weigh] using h1
  obtain ⟨q,rfl⟩ := Multiset.card_eq_one.mp hcard
  rw [Multiset.mem_singleton.mp hp]

theorem Tallied.freeing_sole (h : Tallied A n u f parties) (hp : p ∈ parties) (hf : f p ≠ 0) :
    A.num = 0 ∧ n = 0 ∧ parties = {p} := by
  have hle := le_weigh f hp
  have hlast := h.last
  have h0 : A.num = 0 := by
    by_contra h0
    have := (h.inv.down (Nat.pos_of_ne_zero h0)).1
    omega
  have h1 := h.inv.once
  have h2 := h.inv.counted
  have h3 := h.holders
  rw [if_pos h0] at h1
  have hn : n = 0 := by omega
  exact ⟨h0,hn,h.sole hn (by omega) hp⟩

theorem Tallied.last_sole (h : Tallied A n u f parties) (hp : p ∈ parties) (hu : u p = 1)
    (h1 : A.num = 1) : n = 0 ∧ parties = {p} := by
  have hle := le_weigh u hp
  have h2 := h.inv.counted
  have h3 := (h.inv.down (by omega)).1
  have h4 := h.holders
  have h5 := h.leaked
  have h6 := h.last
  have hn : n = 0 := by omega
  exact ⟨hn,h.sole hn (by omega) hp⟩

theorem Tallied.unfreeing (h : Tallied A n u f parties) (hn : n ≠ 0) : ∀ p ∈ parties, f p = 0 := by
  intro p hp
  by_contra h0
  exact hn (h.freeing_sole hp h0).2.1

theorem Tallied.rest_unfreeing (h : Tallied A n u f (calls.map Prod.snd))
    (hc : calls = (t,p) ::ₘ rest) : ∀ q ∈ rest, f q.2 = 0 := by
  intro q hq
  by_contra h0
  obtain ⟨r,hr⟩ := Multiset.exists_cons_of_mem hq
  have hall : calls.map Prod.snd = p ::ₘ q.2 ::ₘ r.map Prod.snd := by simp [hc,hr]
  have hsole := (h.freeing_sole (p := q.2) (by simp [hall]) h0).2.2
  have hcard := congrArg Multiset.card (hall.symm.trans hsole)
  simp at hcard

theorem rest_eq_zero (h : calls.map Prod.snd = {p'}) (hc : calls = (t,p) ::ₘ rest) : rest = 0 := by
  have hcard := congrArg Multiset.card h
  simpa [hc] using hcard

theorem unfreeing_cons (hp : f p = 0) (hrest : ∀ q ∈ rest, f q.2 = 0) :
    ∀ q ∈ (t,p) ::ₘ rest, ¬ f q.2 ≠ 0 := by
  simp only [Multiset.mem_cons, forall_eq_or_imp]
  exact ⟨fun h0 => h0 hp,fun q hq h0 => h0 (hrest q hq)⟩

end Counts

section Deeds

def Plain (l : List (Action (Thread η) χ κ ν)) : Prop := (∀ k, .access k ∉ l) ∧ .free ∉ l

theorem plain_nil : Plain ([] : List (Action (Thread η) χ κ ν)) := by simp [Plain]

theorem plain_update (x : χ) (o : MemOrder) (v : ν) :
    Plain ([.update x o v] : List (Action (Thread η) χ κ ν)) := by
  simp [Plain]

theorem untouched_marks (h : .access k ∉ l) : Untouched (marks t l) k := by
  intro y hy
  obtain ⟨a,ha,rfl⟩ := List.mem_map.mp hy
  rintro rfl
  exact h ha

inductive Acquiring (x : χ) : List (Action (Thread η) χ κ ν) → Prop
  | update (v : ν) : Acquiring x [.update x .acquire v]
  | fence (v : ν) : Acquiring x [.update x .relaxed v,.fence .acquire]

inductive Releasing (x : χ) : List (Action (Thread η) χ κ ν) → Prop
  | update (v : ν) : Releasing x [.update x .release v]
  | fence (v : ν) : Releasing x [.fence .release,.update x .relaxed v]

theorem Acquiring.plain (h : Acquiring x l) : Plain l := by
  cases h <;> simp [Plain]

theorem Releasing.plain (h : Releasing x l) : Plain l := by
  cases h <;> simp [Plain]

/-- What the actions of one step do to the cells, from those that its party held to those
that it holds. -/
inductive Deed (S : Shared σ π η χ κ ν) (m m' : σ) (a b : Holding κ) :
    List (Action (Thread η) χ κ ν) → Prop
  | quiet {l : List (Action (Thread η) χ κ ν)} : Plain l → b.Within a →
      (∀ k, S.parked m' k ⊆ S.parked m k) → Deed S m m' a b l
  | access {k : κ} : k ∈ a.knows → b.Within a → (∀ k, S.parked m' k ⊆ S.parked m k) →
      Deed S m m' a b [.access k]
  | take {x : χ} {l : List (Action (Thread η) χ κ ν)} : Acquiring x l →
      (∀ k ∈ b.knows, k ∈ a.knows ∨ x ∈ S.parked m k) → b.awaits ⊆ a.awaits →
      (∀ k, S.parked m' k ⊆ S.parked m k) → Deed S m m' a b l
  | await {x : χ} (v : ν) : b.knows ⊆ a.knows →
      (∀ k ∈ b.awaits, k ∈ a.awaits ∨ x ∈ S.parked m k) →
      (∀ k, S.parked m' k ⊆ S.parked m k) → Deed S m m' a b [.update x .relaxed v]
  | fence : b.knows ⊆ a.knows ∪ a.awaits → b.awaits ⊆ a.awaits →
      (∀ k, S.parked m' k ⊆ S.parked m k) → Deed S m m' a b [.fence .acquire]
  | give {x : χ} {l : List (Action (Thread η) χ κ ν)} : Releasing x l → b.Within a →
      (∀ k, ∀ y ∈ S.parked m' k, y ∈ S.parked m k ∨ y = x ∧ k ∈ a.knows) → Deed S m m' a b l

theorem Deed.unfree (hd : Deed S m m' a b l) : .free ∉ l := by
  cases hd with
  | quiet hl => exact hl.2
  | take hl => exact hl.plain.2
  | give hl => exact hl.plain.2
  | _ => simp

theorem Deed.held (hd : Deed S m m' a b l) (hk : .access k ∈ l) : k ∈ a.knows := by
  cases hd with
  | quiet hl => exact absurd hk (hl.1 k)
  | access hk' =>
    obtain rfl : k = _ := by simpa using hk
    exact hk'
  | take hl => exact absurd hk (hl.plain.1 k)
  | give hl => exact absurd hk (hl.plain.1 k)
  | _ => simp at hk

end Deeds

section Settled

/-- A cell is held by those who say so, or parked where its next owner will look. -/
structure Settled (S : Shared σ π η χ κ ν) (τ : Trace (Thread η) χ κ ν) (m : σ)
    (calls : Multiset (Thread η × π)) : Prop where
  held : ∀ q ∈ calls, ∀ k ∈ (S.holding q.2).knows, Held τ k q.1
  expected : ∀ q ∈ calls, ∀ k ∈ (S.holding q.2).awaits, Expected τ k q.1
  parked : ∀ k, ∀ x ∈ S.parked m k, Parked τ k x

theorem Settled.quiet (hs : Settled S τ m calls) (hρ : ∀ k, Untouched ρ k)
    (hown : ∀ q ∈ calls', S.holding q.2 = .none ∨
      ∃ q' ∈ calls, q'.1 = q.1 ∧ (S.holding q.2).Within (S.holding q'.2))
    (hparked : ∀ k, S.parked m' k ⊆ S.parked m k) : Settled S (τ++ρ) m' calls' := by
  refine ⟨fun q hq k hk => ?_,fun q hq k hk => ?_,
    fun k x hx => (hs.parked k x (hparked k hx)).quiet (hρ k)⟩
  · rcases hown q hq with h0 | ⟨q',hq',hname,hin⟩
    · simp [h0,Holding.none] at hk
    · exact hname ▸ (hs.held q' hq' k (hin.knows hk)).quiet (hρ k)
  · rcases hown q hq with h0 | ⟨q',hq',hname,hin⟩
    · simp [h0,Holding.none] at hk
    · exact hname ▸ (hs.expected q' hq' k (hin.awaits hk)).quiet (hρ k)

structure Alone (S : Shared σ π η χ κ ν) (m : σ) (rest : Multiset (Thread η × π)) (k : κ) :
    Prop where
  unparked : S.parked m k = ∅
  others : ∀ q ∈ rest, k ∉ (S.holding q.2).knows ∧ k ∉ (S.holding q.2).awaits

theorem deed_raced (hr : RaceFree τ) (hheld : ∀ k ∈ a.knows, Held τ k t)
    (hd : Deed S m m' a b l) : RaceFree (τ++marks t l) := by
  cases hd with
  | quiet hl => exact hr.quiet (fun k => untouched_marks (hl.1 k))
  | access hk => exact hr.access (hheld _ hk)
  | take hl => exact hr.quiet (fun k => untouched_marks (hl.plain.1 k))
  | give hl => exact hr.quiet (fun k => untouched_marks (hl.plain.1 k))
  | _ => exact hr.quiet (fun k => untouched_marks (by simp))

theorem Acquiring.held (ha : Acquiring x l) (hp : Parked τ k x) : Held (τ++marks t l) k t := by
  cases ha with
  | update v => exact hp.acquire_update v
  | fence v => simpa [marks] using (hp.pending_update (t := t) .relaxed v).acquire

theorem Releasing.parked (hr : Releasing x l) (hh : Held τ k t) : Parked (τ++marks t l) k x := by
  cases hr with
  | update v => exact (hh.release_update x v).parked (by simp)
  | fence v => simpa [marks] using (hh.fence_release.update x .relaxed v).parked (by simp)

theorem Settled.hand_over (hs : Settled S τ m ((t,p) ::ₘ rest))
    (hσ : ∀ k, Untouched (marks t l) k)
    (hknows : ∀ k ∈ (S.holding p').knows, Held (τ++marks t l) k t)
    (hawaits : ∀ k ∈ (S.holding p').awaits, Expected (τ++marks t l) k t)
    (hparked : ∀ k, ∀ x ∈ S.parked m' k, x ∈ S.parked m k ∨ Parked (τ++marks t l) k x) :
    Settled S (τ++marks t l) m' ((t,p') ::ₘ rest) := by
  refine ⟨?_,?_,fun k x hx => ?_⟩
  · simp only [Multiset.mem_cons, forall_eq_or_imp]
    exact ⟨hknows,fun q hq k hk =>
      (hs.held q (Multiset.mem_cons_of_mem hq) k hk).quiet (hσ k)⟩
  · simp only [Multiset.mem_cons, forall_eq_or_imp]
    exact ⟨hawaits,fun q hq k hk =>
      (hs.expected q (Multiset.mem_cons_of_mem hq) k hk).quiet (hσ k)⟩
  · rcases hparked k x hx with hx | hx
    · exact (hs.parked k x hx).quiet (hσ k)
    · exact hx

theorem settled_access (hs : Settled S τ m ((t,p) ::ₘ rest)) (ha : Alone S m rest k)
    (hk : k ∈ (S.holding p).knows) (hin : (S.holding p').Within (S.holding p))
    (hk' : k ∉ (S.holding p').awaits) (hparked : ∀ k, S.parked m' k ⊆ S.parked m k) :
    Settled S (τ++marks t [.access k]) m' ((t,p') ::ₘ rest) := by
  -- only the holder sees the cell, so the marks of all others stand as they were
  have hother {k' : κ} (hne : k ≠ k') :
      Untouched (marks t [Action.access (χ := χ) (ν := ν) k]) k' :=
    untouched_marks (by simpa using hne.symm)
  have hp := Multiset.mem_cons_self (t,p) rest
  refine ⟨?_,?_,fun k' x hx => ?_⟩
  · simp only [Multiset.mem_cons, forall_eq_or_imp]
    refine ⟨fun k' hk' => ?_,fun q hq k' hk' => ?_⟩
    · by_cases hne : k = k'
      · exact hne ▸ (hs.held _ hp k hk).access
      · exact (hs.held _ hp k' (hin.knows hk')).quiet (hother hne)
    · exact (hs.held q (Multiset.mem_cons_of_mem hq) k' hk').quiet
        (hother (fun hne => (ha.others q hq).1 (hne ▸ hk')))
  · simp only [Multiset.mem_cons, forall_eq_or_imp]
    refine ⟨fun k₁ h₁ => ?_,fun q hq k' hk' => ?_⟩
    · exact (hs.expected _ hp k₁ (hin.awaits h₁)).quiet (hother (fun hne => hk' (hne ▸ h₁)))
    · exact (hs.expected q (Multiset.mem_cons_of_mem hq) k' hk').quiet
        (hother (fun hne => (ha.others q hq).2 (hne ▸ hk')))
  · refine (hs.parked k' x (hparked k' hx)).quiet (hother ?_)
    rintro rfl
    have hx := hparked k hx
    simp [ha.unparked] at hx

theorem settled_deed (hs : Settled S τ m ((t,p) ::ₘ rest))
    (ha : ∀ k, .access k ∈ l → Alone S m rest k ∧ k ∉ (S.holding p').awaits)
    (hd : Deed S m m' (S.holding p) (S.holding p') l) :
    Settled S (τ++marks t l) m' ((t,p') ::ₘ rest) := by
  have hp := Multiset.mem_cons_self (t,p) rest
  have hone {α : Action (Thread η) χ κ ν} (h : ∀ k, α ≠ .access k) (k : κ) :
      Untouched (marks t [α]) k := untouched_marks (by simpa using (h k).symm)
  cases hd with
  | quiet hl hin hparked =>
    have hσ : ∀ k, Untouched (marks t l) k := fun k => untouched_marks (hl.1 k)
    exact hs.hand_over hσ (fun k hk => (hs.held _ hp k (hin.knows hk)).quiet (hσ k))
      (fun k hk => (hs.expected _ hp k (hin.awaits hk)).quiet (hσ k))
      (fun k x hx => .inl (hparked k hx))
  | @access k hk hin hparked =>
    obtain ⟨halone,hnot⟩ := ha k (by simp)
    exact settled_access hs halone hk hin hnot hparked
  | @take x l hl hknows hawaits hparked =>
    have hσ : ∀ k, Untouched (marks t l) k := fun k => untouched_marks (hl.plain.1 k)
    refine hs.hand_over hσ (fun k hk => ?_)
      (fun k hk => (hs.expected _ hp k (hawaits hk)).quiet (hσ k))
      (fun k x hx => .inl (hparked k hx))
    rcases hknows k hk with hk | hk
    · exact (hs.held _ hp k hk).quiet (hσ k)
    · exact hl.held (hs.parked k x hk)
  | @await x v hknows hawaits hparked =>
    have hσ := hone (α := .update x .relaxed v) (by simp)
    refine hs.hand_over hσ (fun k hk => (hs.held _ hp k (hknows hk)).quiet (hσ k))
      (fun k hk => ?_) (fun k x hx => .inl (hparked k hx))
    rcases hawaits k hk with hk | hk
    · exact (hs.expected _ hp k hk).quiet (hσ k)
    · exact (hs.parked k x hk).pending_update .relaxed v
  | fence hknows hawaits hparked =>
    have hσ := hone (α := .fence .acquire) (by simp)
    refine hs.hand_over hσ (fun k hk => ?_)
      (fun k hk => (hs.expected _ hp k (hawaits hk)).quiet (hσ k))
      (fun k x hx => .inl (hparked k hx))
    rcases hknows hk with hk | hk
    · exact (hs.held _ hp k hk).quiet (hσ k)
    · exact (hs.expected _ hp k hk).acquire
  | @give x l hl hin hparked =>
    have hσ : ∀ k, Untouched (marks t l) k := fun k => untouched_marks (hl.plain.1 k)
    refine hs.hand_over hσ (fun k hk => (hs.held _ hp k (hin.knows hk)).quiet (hσ k))
      (fun k hk => (hs.expected _ hp k (hin.awaits hk)).quiet (hσ k)) (fun k y hy => ?_)
    rcases hparked k y hy with hy | ⟨rfl,hk⟩
    · exact .inl hy
    · exact .inr (hl.parked (hs.held _ hp k hk))

end Settled

section Traces

def running (calls : Multiset (Thread η × π)) (t : Thread η) : Prop := ∃ q ∈ calls, q.1 = t

structure Traced (S : Shared σ π η χ κ ν) (τ : Trace (Thread η) χ κ ν) (m : σ) (alive : η → Prop)
    (calls : Multiset (Thread η × π)) : Prop where
  fits : ∀ q ∈ calls, S.fits q.1 q.2
  latest : ∀ x, Latest τ x (S.word m x)
  raced : RaceFree τ
  settled : S.freed m = false → Settled S τ m calls
  covered : S.count m ≠ 0 → ∀ i < τ.length, Covered τ alive (running calls) S.strong i
  last : ∀ q ∈ calls, S.freeing q.2 → ∀ i < τ.length, Knows τ q.1 i
  ended : ∀ j t, At τ j t .free → S.freed m = true ∧ ∀ i < τ.length, i ≠ j → Before τ i j
  freed : S.freed m = true → ∃ j t, At τ j t .free

theorem Traced.unfree (ht : Traced S τ m alive calls) (hf : S.freed m = false) (hl : .free ∉ l)
    (t : Thread η) (j : ℕ) (u : Thread η) : ¬ At (τ++marks t l) j u .free := by
  intro hj
  rcases hj.of_marks with hj | ⟨-,hj,-⟩
  · exact Bool.false_ne_true (hf.symm.trans (ht.ended j u hj).1)
  · exact hl hj

theorem running_cons (u : Thread η) (h : running ((t,p) ::ₘ rest) u) :
    running ((t,p') ::ₘ rest) u := by
  simpa [running] using h

theorem Traced.leave {id : ℕ} (ht : Traced S τ m alive ((t,p) ::ₘ rest))
    (hf : S.freed m = false) (hy : alive y) (hname : t = .call y id) :
    Traced S τ m alive rest := by
  have hrest : ∀ q ∈ rest, q ∈ (t,p) ::ₘ rest := fun q hq => Multiset.mem_cons_of_mem hq
  have hs := ht.settled hf
  refine ⟨fun q hq => ht.fits q (hrest q hq),ht.latest,ht.raced,
    fun _ => ⟨fun q hq => hs.held q (hrest q hq),fun q hq => hs.expected q (hrest q hq),hs.parked⟩,
    fun h0 i hi => ?_,fun q hq => ht.last q (hrest q hq),ht.ended,ht.freed⟩
  refine (ht.covered h0 i hi).leave hy (t := t) (.inr (.inl ⟨id,hname⟩)) (by simp [hname]) ?_
  rintro u ⟨q,hq,rfl⟩
  rcases Multiset.mem_cons.mp hq with rfl | hq
  · exact .inl rfl
  · exact .inr ⟨q,hq,rfl⟩

structure Same (S : Shared σ π η χ κ ν) (p q : π) : Prop where
  holding : S.holding q = S.holding p
  freeing : S.freeing q = S.freeing p
  fits : ∀ t, S.fits t p → S.fits t q

theorem Traced.wake {woken : π → Option π} {n : ℕ} (ht : Traced S τ m alive ((t,p) ::ₘ rest))
    (hp : Same S p p') (hw : Wake (named woken) n rest calls')
    (hsame : ∀ p q, woken p = some q → Same S p q) :
    Traced S τ m alive ((t,p') ::ₘ calls') := by
  have hmap : ((t,p') ::ₘ calls').map (fun q => (q.1,S.holding q.2,S.freeing q.2)) =
      ((t,p) ::ₘ rest).map (fun q => (q.1,S.holding q.2,S.freeing q.2)) := by
    rw [Multiset.map_cons, Multiset.map_cons, hp.holding, hp.freeing, hw.map_eq (fun q q' hq => ?_)]
    obtain ⟨hname,hq⟩ := named_some hq
    rw [hname, (hsame _ _ hq).holding, (hsame _ _ hq).freeing]
  have hback : ∀ q ∈ (t,p') ::ₘ calls', ∃ q' ∈ (t,p) ::ₘ rest, q'.1 = q.1 ∧
      S.holding q'.2 = S.holding q.2 ∧ S.freeing q'.2 = S.freeing q.2 := by
    intro q hq
    have hq := Multiset.mem_map_of_mem (fun q => (q.1,S.holding q.2,S.freeing q.2)) hq
    rw [hmap] at hq
    simpa only [Multiset.mem_map, Prod.mk.injEq] using hq
  have hrun (u : Thread η) (hu : running ((t,p) ::ₘ rest) u) :
      running ((t,p') ::ₘ calls') u := by
    obtain ⟨q,hq,rfl⟩ := hu
    have hq := Multiset.mem_map_of_mem (fun q => (q.1,S.holding q.2,S.freeing q.2)) hq
    rw [← hmap] at hq
    obtain ⟨q',hq',heq⟩ := Multiset.mem_map.mp hq
    exact ⟨q',hq',(Prod.mk.inj heq).1⟩
  refine ⟨?_,ht.latest,ht.raced,fun hf => ?_,fun h0 i hi => ?_,fun q hq h0 => ?_,ht.ended,ht.freed⟩
  · have hfits := ht.fits
    simp only [Multiset.mem_cons, forall_eq_or_imp] at hfits ⊢
    refine ⟨hp.fits t hfits.1,hw.forall_mem (fun q q' hq hfit => ?_) hfits.2⟩
    obtain ⟨hname,hq⟩ := named_some hq
    exact hname ▸ (hsame _ _ hq).fits _ hfit
  · have hs : Settled S (τ++[]) m ((t,p') ::ₘ calls') := by
      refine (ht.settled hf).quiet (fun k => by simp [Untouched]) (fun q hq => ?_)
        (fun _ => subset_rfl)
      obtain ⟨q',hq',hname,hhold,-⟩ := hback q hq
      exact .inr ⟨q',hq',hname,hhold ▸ .refl _⟩
    rwa [List.append_nil] at hs
  · have := (ht.covered h0 i hi).append (σ := []) (fun _ hx => hx) hrun
    rwa [List.append_nil] at this
  · obtain ⟨q',hq',hname,-,hfree⟩ := hback q hq
    exact hname ▸ ht.last q' hq' (hfree ▸ h0)

theorem traced_start (hl : Plain l) (hlatest : ∀ x, Latest (marks .main l) x (S.word m x))
    (hf : S.freed m = false) (hy : alive y) : Traced S (marks .main l) m alive 0 := by
  have hnone {i : ℕ} {u : Thread η} {b : Action (Thread η) χ κ ν} (hi : At (marks .main l) i u b) :
      b ∈ l := by
    rcases At.of_marks (τ := []) hi with h0 | ⟨-,hb,-⟩
    · exact absurd h0.lt (Nat.not_lt_zero i)
    · exact hb
  refine ⟨by simp,hlatest,fun k i j t u _ hi => absurd (hnone hi) (hl.1 k),
    fun _ => ⟨by simp,by simp,fun k x _ i u hi => absurd (hnone hi) (hl.1 k)⟩,fun _ => ?_,by simp,
    fun j u hj => absurd (hnone hj) hl.2,fun h1 => absurd (hf.symm.trans h1) Bool.false_ne_true⟩
  exact covered_marks (τ := []) (t := .main) (l := l) (by simp) (fun _ hx => hx)
    (fun _ hu => hu) (.inr ⟨y,hy,.inl (.inl rfl)⟩)

theorem Traced.drop (ht : Traced S τ m alive calls) (hf : S.freed m = false)
    (hfit : S.fits (.drop y) p) (hown : S.holding p = .none)
    (hfree : ∀ q ∈ (.drop y,p) ::ₘ calls, ¬ S.freeing q.2)
    (ha : ∀ z, alive z → z = y ∨ alive' z) :
    Traced S (τ++[(.drop y,.join (bound y))]) m alive' ((.drop y,p) ::ₘ calls) := by
  have hσ (k : κ) : Untouched (marks (Thread.drop y)
      [Action.join (χ := χ) (κ := κ) (ν := ν) (bound y)]) k := untouched_marks (by simp)
  refine ⟨?_,fun x => (ht.latest x).append _ (by simp),ht.raced.quiet hσ,
    fun _ => (ht.settled hf).quiet hσ ?_ (fun _ => subset_rfl),fun h0 i hi => ?_,
    fun q hq h0 => absurd h0 (hfree q hq),
    fun j u hj => absurd hj (ht.unfree hf (l := [.join (bound y)]) (by simp) _ j u),
    fun h1 => absurd (hf.symm.trans h1) Bool.false_ne_true⟩
  · simp only [Multiset.mem_cons, forall_eq_or_imp]
    exact ⟨hfit,ht.fits⟩
  · simp only [Multiset.mem_cons, forall_eq_or_imp, hown]
    exact ⟨.inl trivial,fun q hq => .inr ⟨q,hq,rfl,.refl _⟩⟩
  · rcases Nat.lt_or_ge i τ.length with hlt | hge
    · refine (ht.covered h0 i hlt).drop ha ?_ ⟨_,Multiset.mem_cons_self _ _,rfl⟩
      rintro u ⟨q,hq,rfl⟩
      exact ⟨q,Multiset.mem_cons_of_mem hq,rfl⟩
    · obtain ⟨a,-,hat⟩ := at_marks (l := [.join (bound y)]) hi hge
      exact covered_running hat ⟨_,Multiset.mem_cons_self _ _,rfl⟩

section Marks

variable [DecidableEq χ]

structure Extends (S : Shared σ π η χ κ ν) (m : σ) (alive : η → Prop)
    (calls : Multiset (Thread η × π)) (t : Thread η) (l : List (Action (Thread η) χ κ ν)) (m' : σ)
    (alive' : η → Prop) (calls' : Multiset (Thread η × π)) : Prop where
  kept : S.freed m' = false
  unfree : .free ∉ l
  told : ∀ x, told x (S.word m x) l = S.word m' x
  fits : ∀ q ∈ calls', S.fits q.1 q.2
  alive : ∀ y, alive y → alive' y
  running : ∀ u, running calls u → running calls' u
  own : PoolShared.running calls' t ∨ ∃ y, alive' y ∧ t ∈ bound y
  count : S.count m' ≠ 0 → S.count m ≠ 0
  last : ∀ q ∈ calls', ¬ S.freeing q.2

theorem Traced.extend (ht : Traced S τ m alive calls) (hf : S.freed m = false)
    (hx : Extends S m alive calls t l m' alive' calls') (hr : RaceFree (τ++marks t l))
    (hs : Settled S (τ++marks t l) m' calls') : Traced S (τ++marks t l) m' alive' calls' := by
  refine ⟨hx.fits,fun y => ?_,hr,fun _ => hs,fun h0 => ?_,
    fun q hq h0 => absurd h0 (hx.last q hq),fun j u hj => absurd hj (ht.unfree hf hx.unfree t j u),
    fun h1 => absurd (hx.kept.symm.trans h1) Bool.false_ne_true⟩
  · rw [← hx.told y]
    exact (ht.latest y).marks t l
  · exact covered_marks (ht.covered (hx.count h0)) hx.alive hx.running hx.own

section Moves

variable (ht : Traced S τ m alive ((t,p) ::ₘ rest)) (hf : S.freed m = false)
include ht hf

theorem Traced.move (hf' : S.freed m' = false) (hcount : S.count m' = S.count m)
    (htold : ∀ x, told x (S.word m x) l = S.word m' x) (hfit : S.fits t p')
    (ha : ∀ k, .access k ∈ l → Alone S m rest k ∧ k ∉ (S.holding p').awaits)
    (hd : Deed S m m' (S.holding p) (S.holding p') l)
    (hfree : ∀ q ∈ (t,p') ::ₘ rest, ¬ S.freeing q.2) :
    Traced S (τ++marks t l) m' alive ((t,p') ::ₘ rest) := by
  have hs := ht.settled hf
  have hfits : ∀ q ∈ (t,p') ::ₘ rest, S.fits q.1 q.2 := by
    simp only [Multiset.mem_cons, forall_eq_or_imp]
    exact ⟨hfit,fun q hq => ht.fits q (Multiset.mem_cons_of_mem hq)⟩
  exact ht.extend hf ⟨hf',hd.unfree,htold,hfits,fun _ hy => hy,running_cons,
    .inl ⟨_,Multiset.mem_cons_self _ _,rfl⟩,fun h0 => hcount ▸ h0,hfree⟩
    (deed_raced ht.raced (hs.held _ (Multiset.mem_cons_self _ _)) hd) (settled_deed hs ha hd)

theorem Traced.load {o : MemOrder} {g : ℕ} (hfit : S.fits t p')
    (hknows : ∀ k ∈ (S.holding p').knows, Held (τ++[(t,.load x o g)]) k t)
    (hawaits : (S.holding p').awaits ⊆ (S.holding p).awaits)
    (hfree : ∀ q ∈ (t,p') ::ₘ rest, ¬ S.freeing q.2) :
    Traced S (τ++[(t,.load x o g)]) m alive ((t,p') ::ₘ rest) := by
  have hs := ht.settled hf
  have hσ : ∀ k : κ, Untouched (marks t [Action.load (χ := χ) (κ := κ) (ν := ν) x o g]) k :=
    fun k => untouched_marks (by simp)
  have hfits : ∀ q ∈ (t,p') ::ₘ rest, S.fits q.1 q.2 := by
    simp only [Multiset.mem_cons, forall_eq_or_imp]
    exact ⟨hfit,fun q hq => ht.fits q (Multiset.mem_cons_of_mem hq)⟩
  refine ht.extend hf (l := [.load x o g]) ⟨hf,by simp,fun _ => rfl,hfits,fun _ hy => hy,
    running_cons,.inl ⟨_,Multiset.mem_cons_self _ _,rfl⟩,fun h0 => h0,hfree⟩ (ht.raced.quiet hσ) ?_
  exact hs.hand_over hσ hknows
    (fun k hk => (hs.expected _ (Multiset.mem_cons_self _ _) k (hawaits hk)).quiet (hσ k))
    (fun k y hy => .inl hy)

theorem Traced.release {v : ν} (hname : t = .drop y) (hf' : S.freed m' = false)
    (hcount : S.count m ≠ 0) (hparked : ∀ k, S.parked m' k ⊆ S.parked m k)
    (htold : ∀ x, told x (S.word m x) [Action.update (κ := κ) (ι := Thread η) S.strong .release v] =
      S.word m' x) (hfree : ∀ q ∈ rest, ¬ S.freeing q.2) :
    Traced S (τ++marks t [.update S.strong .release v]) m' alive rest := by
  subst hname
  have hplain := plain_update (η := η) (κ := κ) S.strong .release v
  have hσ (k : κ) : Untouched (marks (Thread.drop y) [Action.update S.strong .release v]) k :=
    untouched_marks (hplain.1 k)
  refine ⟨fun q hq => ht.fits q (Multiset.mem_cons_of_mem hq),fun x => ?_,ht.raced.quiet hσ,
    fun _ => (ht.settled hf).quiet hσ
      (fun q hq => .inr ⟨q,Multiset.mem_cons_of_mem hq,rfl,.refl _⟩) hparked,
    fun _ i hi => ?_,fun q hq h0 => absurd h0 (hfree q hq),
    fun j u hj => absurd hj (ht.unfree hf hplain.2 _ j u),
    fun h1 => absurd (hf'.symm.trans h1) Bool.false_ne_true⟩
  · rw [← htold x]
    exact (ht.latest x).marks _ _
  · rcases Nat.lt_or_ge i τ.length with hlt | hge
    · refine (ht.covered hcount i hlt).release ?_
      rintro u ⟨q,hq,rfl⟩
      rcases Multiset.mem_cons.mp hq with rfl | hq
      · exact .inl rfl
      · exact .inr ⟨q,hq,rfl⟩
    · obtain rfl : i = τ.length := by
        simp [marks] at hi
        omega
      exact covered_release _

theorem Traced.last_count {v : ν} (hname : t = .drop y) (hrest : rest = 0)
    (hnone : ∀ y, ¬ alive y) (hcount : S.count m ≠ 0) (hf' : S.freed m' = false)
    (hcount' : S.count m' = 0) (hfit : S.fits t p')
    (hparked : ∀ k, S.parked m' k ⊆ S.parked m k)
    (hin : (S.holding p').Within (S.holding p))
    (htold : ∀ x, told x (S.word m x) [Action.update (κ := κ) (ι := Thread η) S.strong .release v,
      .fence .acquire] = S.word m' x) :
    Traced S (τ++marks t [.update S.strong .release v,.fence .acquire]) m' alive
      ((t,p') ::ₘ rest) := by
  subst hname hrest
  have hplain : Plain [Action.update (ι := Thread η) (κ := κ) S.strong .release v,
      .fence .acquire] := by simp [Plain]
  have hσ (k : κ) : Untouched (marks (Thread.drop y)
      [Action.update S.strong .release v,.fence .acquire]) k := untouched_marks (hplain.1 k)
  have hknows : ∀ i < (τ++marks (Thread.drop y)
      [Action.update S.strong .release v,.fence .acquire]).length,
      Knows (τ++marks (Thread.drop y) [Action.update S.strong .release v,.fence .acquire])
        (Thread.drop y) i := by
    intro i hi
    rcases Nat.lt_or_ge i τ.length with hlt | hge
    · have hlast := (ht.covered hcount i hlt).last (v := v) (x := y) hnone (by
        rintro u ⟨q,hq,rfl⟩
        rw [Multiset.mem_cons] at hq
        rcases hq with rfl | hq
        · rfl
        · simp at hq)
      simpa [marks] using hlast
    · obtain ⟨a,-,ha⟩ := at_marks hi hge
      exact .self ha
  refine ⟨by simpa using hfit,fun x => ?_,ht.raced.quiet hσ,fun _ => ?_,
    fun h0 => absurd hcount' h0,by simpa using fun _ => hknows,
    fun j u hj => absurd hj (ht.unfree hf hplain.2 _ j u),
    fun h1 => absurd (hf'.symm.trans h1) Bool.false_ne_true⟩
  · rw [← htold x]
    exact (ht.latest x).marks _ _
  · refine (ht.settled hf).quiet hσ ?_ hparked
    simp only [Multiset.mem_cons, forall_eq_or_imp]
    exact ⟨.inr ⟨_,.inl rfl,rfl,hin⟩,by simp⟩

/-- The last handle drops what is left in the cells and frees the allocation. -/
theorem Traced.free {g : ℕ} {o : MemOrder} {l : List κ} (hrest : rest = 0)
    (hfreeing : S.freeing p) (hcount : S.count m' = 0) (hf' : S.freed m' = true)
    (hword : ∀ x, S.word m' x = S.word m x) :
    Traced S (τ++[(t,.load x o g)]++marks t (l.map .access++[.free])) m' alive rest := by
  subst hrest
  have hknows : ∀ i < (τ++[(t,Action.load (ν := ν) x o g)]).length,
      Knows (τ++[(t,.load x o g)]) t i :=
    knows_marks (t := t) (l := [Action.load x o g]) (ht.last (t,p) (by simp) hfreeing)
  have hsplit : τ++[(t,.load x o g)]++marks t (l.map .access++[.free]) =
      τ++[(t,.load x o g)]++marks t (l.map .access)++[(t,.free)] := by simp [marks]
  have hload (k : κ) : Untouched ([(t,.load x o g)] : Trace (Thread η) χ κ ν) k :=
    untouched_single (by simp)
  have hraced := (ht.raced.quiet hload).accesses hknows l
  refine ⟨by simp,fun z => ?_,?_,fun h1 => absurd (hf'.symm.trans h1) Bool.false_ne_true.symm,
    fun h1 => absurd hcount h1,by simp,fun j u hj => ⟨hf',fun i hi hne => ?_⟩,
    fun _ => ⟨_,t,hsplit ▸ at_last _ t _⟩⟩
  · have h0 := (ht.latest z).append t (a := .load x o g) (by simp)
    have h1 := h0.marks t (l.map .access++[.free])
    rw [told_access] at h1
    rw [hword]
    exact h1
  · rw [hsplit]
    exact hraced.quiet (fun k => untouched_single (by simp))
  · rw [hsplit] at hj hi ⊢
    rcases hj.of_append with hj | ⟨rfl,-,-⟩
    · have hno := ht.unfree hf (l := .load x o g::l.map .access) (by simp) t j u
      exact absurd (by simpa [marks] using hj) hno
    · rw [List.length_append, List.length_singleton] at hi
      exact (knows_marks hknows i (by omega)).next _

end Moves

section Handles

variable (ht : Traced S τ m alive calls) (hf : S.freed m = false)
include ht hf

theorem Traced.call (threads : Set (Thread η)) (hfit : S.fits t p) (hown : S.holding p = .none)
    (hfree : ∀ q ∈ (t,p) ::ₘ calls, ¬ S.freeing q.2) :
    Traced S (τ++[(t,.join threads)]) m alive ((t,p) ::ₘ calls) := by
  have hσ (k : κ) : Untouched (marks t [Action.join (χ := χ) (κ := κ) (ν := ν) threads]) k :=
    untouched_marks (by simp)
  have hfits : ∀ q ∈ (t,p) ::ₘ calls, S.fits q.1 q.2 := by
    simp only [Multiset.mem_cons, forall_eq_or_imp]
    exact ⟨hfit,ht.fits⟩
  refine ht.extend hf (l := [.join threads]) ⟨hf,by simp,fun _ => rfl,hfits,fun _ hy => hy,?_,
    .inl ⟨_,Multiset.mem_cons_self _ _,rfl⟩,fun h0 => h0,hfree⟩ (ht.raced.quiet hσ)
    ((ht.settled hf).quiet hσ ?_ (fun _ => subset_rfl))
  · rintro u ⟨q,hq,rfl⟩
    exact ⟨q,Multiset.mem_cons_of_mem hq,rfl⟩
  · simp only [Multiset.mem_cons, forall_eq_or_imp, hown]
    exact ⟨.inl trivial,fun q hq => .inr ⟨q,hq,rfl,.refl _⟩⟩

theorem Traced.clone (hf' : S.freed m' = false) (hl : Plain l)
    (htold : ∀ x, told x (S.word m x) l = S.word m' x) (ha : ∀ y, alive y → alive' y)
    (hy : alive y) (ht' : t ∈ bound y) (hcount : S.count m ≠ 0)
    (hparked : ∀ k, S.parked m' k ⊆ S.parked m k) (hfree : ∀ q ∈ calls, ¬ S.freeing q.2) :
    Traced S (τ++marks t l) m' alive' calls := by
  have hσ (k : κ) : Untouched (marks t l) k := untouched_marks (hl.1 k)
  exact ht.extend hf ⟨hf',hl.2,htold,ht.fits,ha,fun _ hu => hu,.inr ⟨y,ha y hy,ht'⟩,
    fun _ => hcount,hfree⟩ (ht.raced.quiet hσ)
    ((ht.settled hf).quiet hσ (fun q hq => .inr ⟨q,hq,rfl,.refl _⟩) hparked)

end Handles

end Marks

end Traces

end Lockness.PoolShared
