import Mathlib.Algebra.BigOperators.Group.Multiset.Basic
import Mathlib.Algebra.Order.BigOperators.Group.Multiset
import Mathlib.Tactic.Ring
import Lockness.PoolRuns

/-!
# Pools of parties that share a memory and sleep on futexes

The parties form a multiset, so their number is unbounded and they carry no
order. A program says what a party at a program point does to the memory in
one indivisible step. `wait` has already compared the word when its party
becomes a sleeper. `wake n` unblocks `n` sleepers of its word, or all of them
when fewer sleep; a sleeper may also return spuriously. The futex takes `n` for
a signed number, so that of a greater `n` it is only sure that one sleeper is
reached.
-/

set_option autoImplicit false

namespace Lockness.PoolFutex

variable {σ π ω ε : Type*}

inductive Outcome (σ π ω ε : Type*) where
  | go (m : σ) (p : π) (e : ε)
  | wake (w : ω) (n : ℕ) (p : π)
  | blocked
  | exit (m : σ) (e : ε)
  | ub

def Outcome.Inward : Outcome σ π ω ε → Prop
  | .go _ _ _ => True
  | .ub => True
  | .wake _ _ _ => False
  | .blocked => False
  | .exit _ _ => False

theorem Outcome.Inward.ne_wake {o : Outcome σ π ω ε} (ho : o.Inward) {w : ω} {n : ℕ} {p : π} :
    o ≠ .wake w n p := by
  rintro rfl
  exact ho

theorem Outcome.Inward.ne_exit {o : Outcome σ π ω ε} (ho : o.Inward) {m : σ} {e : ε} :
    o ≠ .exit m e := by
  rintro rfl
  exact ho

structure Program (σ π ω ε : Type*) where
  code : σ → π → Outcome σ π ω ε
  woken : ω → π → Option π
  silent : ε
  /-- A party sleeps at one word, and a woken party sleeps at none. -/
  awake : ∀ v w p q, woken w p = some q → woken v q = none

/-- `n` sleepers return, or all of them when fewer sleep. -/
inductive Unblock (woken : π → Option π) : ℕ → Multiset π → Multiset π → Prop
  | stop (s : Multiset π) : Unblock woken 0 s s
  | idle {n : ℕ} {s : Multiset π} : (∀ p ∈ s, woken p = none) → Unblock woken n s s
  | one {n : ℕ} {p q : π} {s t : Multiset π} : woken p = some q →
      Unblock woken n (q ::ₘ s) t → Unblock woken (n+1) (p ::ₘ s) t

/-- The number of sleepers that a wake-up for `n` is sure to reach: `i32::MAX` is the
greatest number of the kernel, which takes `u32::MAX` for `-1` and wakes one. -/
def sure (n : ℕ) : ℕ := if n < 2^31 then n else 1

theorem sure_le (n : ℕ) : sure n ≤ n := by
  unfold sure
  split <;> omega

def Wake (woken : π → Option π) (n : ℕ) (s t : Multiset π) : Prop :=
  ∃ k, sure n ≤ k ∧ k ≤ n ∧ Unblock woken k s t

inductive PartyStep (P : Program σ π ω ε) : σ → Multiset π → ε → σ → Multiset π → Prop
  | go {m m' : σ} {p p' : π} {e : ε} {rest : Multiset π} :
      P.code m p = .go m' p' e → PartyStep P m (p ::ₘ rest) e m' (p' ::ₘ rest)
  | wake {m : σ} {p p' : π} {w : ω} {n : ℕ} {rest rest' : Multiset π} :
      P.code m p = .wake w n p' → Wake (P.woken w) n rest rest' →
      PartyStep P m (p ::ₘ rest) P.silent m (p' ::ₘ rest')
  | spurious {m : σ} {p q : π} {w : ω} {rest : Multiset π} :
      P.woken w p = some q → PartyStep P m (p ::ₘ rest) P.silent m (q ::ₘ rest)
  | exit {m m' : σ} {p : π} {e : ε} {rest : Multiset π} :
      P.code m p = .exit m' e → PartyStep P m (p ::ₘ rest) e m' rest

/-- The total weight of a pool; counts and multisets of values are both weights. -/
def weigh {μ : Type*} [AddCommMonoid μ] (f : π → μ) (s : Multiset π) : μ := (s.map f).sum

section Weight

variable {μ : Type*} [AddCommMonoid μ] (f : π → μ)

@[simp] theorem weigh_zero : weigh f 0 = 0 := rfl

@[simp] theorem weigh_cons (p : π) (s : Multiset π) : weigh f (p ::ₘ s) = f p+weigh f s := by
  simp [weigh]

theorem weigh_add (g : π → μ) (s : Multiset π) :
    weigh (fun p => f p+g p) s = weigh f s+weigh g s :=
  Multiset.sum_map_add

theorem weigh_map {ρ : Type*} (g : ρ → π) (s : Multiset ρ) :
    weigh f (s.map g) = weigh (fun p => f (g p)) s := by
  simp [weigh]

theorem weigh_congr {g : π → μ} {s : Multiset π} (h : ∀ p ∈ s, f p = g p) :
    weigh f s = weigh g s :=
  congrArg Multiset.sum (Multiset.map_congr rfl h)

theorem weigh_eq_zero {s : Multiset π} (h : ∀ p ∈ s, f p = 0) : weigh f s = 0 := by
  rw [weigh_congr f h]
  simp [weigh]

end Weight

theorem weigh_pos_iff (f : π → ℕ) (s : Multiset π) : 0 < weigh f s ↔ ∃ p ∈ s, 0 < f p := by
  simp only [Nat.pos_iff_ne_zero, weigh, ne_eq, Multiset.sum_eq_zero_iff, Multiset.mem_map]
  push Not
  constructor
  · rintro ⟨_,⟨p,hp,rfl⟩,h⟩
    exact ⟨p,hp,h⟩
  · rintro ⟨p,hp,h⟩
    exact ⟨f p,⟨p,hp,rfl⟩,h⟩

theorem weigh_eq_zero_iff (f : π → ℕ) (s : Multiset π) : weigh f s = 0 ↔ ∀ p ∈ s, f p = 0 := by
  have h := weigh_pos_iff f s
  constructor
  · intro h0 p hp
    by_contra hne
    exact absurd (h.mpr ⟨p,hp,Nat.pos_of_ne_zero hne⟩) (by omega)
  · exact weigh_eq_zero f

theorem weigh_le {f g : π → ℕ} {s : Multiset π} (h : ∀ p ∈ s, f p ≤ g p) :
    weigh f s ≤ weigh g s := by
  induction s using Multiset.induction_on with
  | empty => simp
  | cons p s ih =>
    rw [weigh_cons, weigh_cons]
    exact Nat.add_le_add (h p (by simp)) (ih (fun q hq => h q (by simp [hq])))

theorem le_weigh (f : π → ℕ) {s : Multiset π} {p : π} (hp : p ∈ s) : f p ≤ weigh f s := by
  obtain ⟨t,rfl⟩ := Multiset.exists_cons_of_mem hp
  rw [weigh_cons]
  omega

def sleeps (woken : π → Option π) (p : π) : ℕ := if (woken p).isSome then 1 else 0

section Waking

variable {woken : π → Option π}

theorem Unblock.map_eq {α : Type*} {f : π → α} {n : ℕ} {s t : Multiset π}
    (hf : ∀ p q, woken p = some q → f q = f p) (h : Unblock woken n s t) : t.map f = s.map f := by
  induction h with
  | stop s => rfl
  | idle _ => rfl
  | one hp _ ih => rw [ih, Multiset.map_cons, Multiset.map_cons, hf _ _ hp]

theorem Unblock.forall_mem {Q : π → Prop} {n : ℕ} {s t : Multiset π}
    (hQ : ∀ p q, woken p = some q → Q p → Q q) (h : Unblock woken n s t)
    (hs : ∀ p ∈ s, Q p) : ∀ p ∈ t, Q p := by
  induction h with
  | stop s => exact hs
  | idle _ => exact hs
  | one hp _ ih =>
    apply ih
    intro r hr
    rcases Multiset.mem_cons.mp hr with rfl | hr
    · exact hQ _ _ hp (hs _ (by simp))
    · exact hs r (by simp [hr])

theorem Unblock.sleepers {n : ℕ} {s t : Multiset π}
    (ha : ∀ p q, woken p = some q → woken q = none) (h : Unblock woken n s t) :
    weigh (sleeps woken) t = weigh (sleeps woken) s-n := by
  induction h with
  | stop s => simp
  | @idle n s hs =>
    have : weigh (sleeps woken) s = 0 := weigh_eq_zero _ (fun p hp => by simp [sleeps,hs p hp])
    omega
  | @one n p q s t hp _ ih =>
    rw [ih, weigh_cons, weigh_cons]
    have h1 : sleeps woken p = 1 := by simp [sleeps,hp]
    have h0 : sleeps woken q = 0 := by simp [sleeps,ha p q hp]
    omega

theorem Wake.map_eq {α : Type*} {f : π → α} {n : ℕ} {s t : Multiset π}
    (hf : ∀ p q, woken p = some q → f q = f p) (h : Wake woken n s t) : t.map f = s.map f := by
  obtain ⟨_,-,-,h⟩ := h
  exact h.map_eq hf

theorem Wake.weigh_eq {μ : Type*} [AddCommMonoid μ] {f : π → μ} {n : ℕ} {s t : Multiset π}
    (hf : ∀ p q, woken p = some q → f q = f p) (h : Wake woken n s t) :
    weigh f t = weigh f s :=
  congrArg Multiset.sum (h.map_eq hf)

theorem Wake.forall_mem {Q : π → Prop} {n : ℕ} {s t : Multiset π}
    (hQ : ∀ p q, woken p = some q → Q p → Q q) (h : Wake woken n s t)
    (hs : ∀ p ∈ s, Q p) : ∀ p ∈ t, Q p := by
  obtain ⟨_,-,-,h⟩ := h
  exact h.forall_mem hQ hs

theorem Wake.nobody {n : ℕ} {s : Multiset π} (hs : ∀ p ∈ s, woken p = none) : Wake woken n s s :=
  ⟨n,sure_le n,le_rfl,.idle hs⟩

theorem Wake.nil (s : Multiset π) : Wake woken 0 s s := ⟨0,le_rfl,le_rfl,.stop s⟩

theorem Wake.single {p q : π} (h : woken p = some q) (s : Multiset π) :
    Wake woken 1 (p ::ₘ s) (q ::ₘ s) :=
  ⟨1,le_rfl,le_rfl,.one h (.stop _)⟩

/-- At least the sure number of sleepers return, or all of them when there are fewer. -/
theorem Wake.sleepers {n : ℕ} {s t : Multiset π} (ha : ∀ p q, woken p = some q → woken q = none)
    (h : Wake woken n s t) :
    ∃ k, sure n ≤ k ∧ weigh (sleeps woken) t = weigh (sleeps woken) s-k := by
  obtain ⟨k,hk,-,h⟩ := h
  exact ⟨k,hk,h.sleepers ha⟩

theorem Wake.gains {f : π → ℕ} {n : ℕ} {s t : Multiset π}
    (ha : ∀ p q, woken p = some q → woken q = none)
    (hf : ∀ p q, woken p = some q → f q = f p+1) (h : Wake woken n s t) :
    weigh f t+weigh (sleeps woken) t = weigh f s+weigh (sleeps woken) s := by
  rw [← weigh_add, ← weigh_add]
  apply h.weigh_eq
  intro p q hp
  simp only [sleeps, hp, ha p q hp, hf p q hp]
  simp

end Waking

end Lockness.PoolFutex
