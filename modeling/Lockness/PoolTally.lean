import Mathlib.Data.Bool.Basic
import Mathlib.Data.Multiset.AddSub

/-!
# Counting handles out

A counter follows the handles that exist: each holder adds one when it copies
itself and takes one away when it leaves, and whoever takes the last one raises
a flag in a later step. A holder may also be lost, so that its one is never
taken away. While anybody holds on, the flag is down. A handle in use cannot be
dropped.
-/

set_option autoImplicit false

namespace Lockness.PoolTally

/-- `last` counts those who took the last one and have not raised the flag. -/
structure Tally where
  num : ℕ
  holders : ℕ
  leaked : ℕ
  last : ℕ
  flag : Bool

inductive Move (t t' : Tally) : Prop
  | rest : t' = t → Move t t'
  | enter : 0 < t.num → t' = { t with num := t.num+1, holders := t.holders+1 } → Move t t'
  | leak : 0 < t.num → t' = { t with num := t.num+1, leaked := t.leaked+1 } → Move t t'
  | leave : t.holders = t'.holders+1 → t'.num = t.num-1 → t'.leaked = t.leaked →
      t'.last = t.last+(if t.num = 1 then 1 else 0) → t'.flag = t.flag → Move t t'
  | mark : t.last = t'.last+1 → t'.num = t.num → t'.holders = t.holders →
      t'.leaked = t.leaked → t'.flag = true → Move t t'

structure Inv (t : Tally) : Prop where
  counted : t.num = t.holders+t.leaked
  once : t.last+t.flag.toNat = if t.num = 0 then 1 else 0

section Moves

variable {t t' : Tally}

theorem Inv.down (h : Inv t) (hp : 0 < t.num) : t.last = 0 ∧ t.flag = false := by
  have h1 := h.once
  rw [if_neg (by omega)] at h1
  refine ⟨by omega,?_⟩
  cases hf : t.flag
  · rfl
  · simp [hf] at h1

theorem Inv.raised (h : Inv t) (hf : t.flag = true) :
    t.num = 0 ∧ t.holders = 0 ∧ t.leaked = 0 ∧ t.last = 0 := by
  have h1 := h.once
  have h2 := h.counted
  rw [hf, Bool.toNat_true] at h1
  split at h1 <;> omega

theorem Inv.up (h : Inv t) (hh : t.holders = 0) (hk : t.leaked = 0) (hl : t.last = 0) :
    t.flag = true := by
  have h1 := h.counted
  have h2 := h.once
  rw [if_pos (by omega)] at h2
  simpa [hl] using h2

theorem Inv.num_pos (h : Inv t) (hp : 0 < t.holders) : 0 < t.num := by
  have := h.counted
  omega

theorem Inv.move (h : Inv t) (hm : Move t t') : Inv t' := by
  have h1 := h.counted
  cases hm with
  | rest he => exact he ▸ h
  | enter hp he =>
    subst he
    have h2 := h.once
    rw [if_neg (by omega)] at h2
    exact ⟨by simp only; omega,by simpa using h2⟩
  | leak hp he =>
    subst he
    have h2 := h.once
    rw [if_neg (by omega)] at h2
    exact ⟨by simp only; omega,by simpa using h2⟩
  | leave hh hn hk hl hf =>
    have h2 := h.once
    refine ⟨by omega,?_⟩
    rw [hl, hf, hn]
    rw [if_neg (by omega)] at h2
    split <;> split <;> omega
  | mark hl hn hh hk hf =>
    have h2 := h.once
    have h0 : t.num = 0 := by
      by_contra h0
      rw [if_neg h0] at h2
      omega
    rw [if_pos h0] at h2
    refine ⟨by omega,?_⟩
    rw [hf, hn, if_pos h0, Bool.toNat_true]
    omega

end Moves

section Uses

variable {π η : Type*} {owner : π → Option η} {parties : Multiset π} {handles : Multiset η}

def Uses (owner : π → Option η) (parties : Multiset π) (handles : Multiset η) : Prop :=
  ∀ p ∈ parties, ∀ x, owner p = some x → x ∈ handles

theorem Uses.call (hu : Uses owner parties handles) {p : π}
    (hp : ∀ x, owner p = some x → x ∈ handles) : Uses owner (p ::ₘ parties) handles := by
  simp only [Uses, Multiset.mem_cons, forall_eq_or_imp]
  exact ⟨hp,hu⟩

theorem Uses.call_none (hu : Uses owner parties handles) {p : π} (hp : owner p = none) :
    Uses owner (p ::ₘ parties) handles :=
  hu.call (by simp [hp])

theorem Uses.call_some (hu : Uses owner parties handles) {p : π} {x : η} (hp : owner p = some x)
    (hx : x ∈ handles) : Uses owner (p ::ₘ parties) handles := by
  refine hu.call (fun y hy => ?_)
  obtain rfl : x = y := Option.some.inj (hp.symm.trans hy)
  exact hx

theorem Uses.clone (hu : Uses owner parties handles) (x : η) :
    Uses owner parties (x ::ₘ handles) :=
  fun p hp y hy => Multiset.mem_cons_of_mem (hu p hp y hy)

theorem Uses.drop {x : η} (hu : Uses owner parties (x ::ₘ handles))
    (hfree : ∀ p ∈ parties, owner p ≠ some x) : Uses owner parties handles := by
  intro p hp y hy
  refine (Multiset.mem_cons.mp (hu p hp y hy)).resolve_left ?_
  rintro rfl
  exact hfree p hp hy

end Uses

end Lockness.PoolTally
