import Mathlib.Algebra.Order.Group.Nat
import Mathlib.Data.Nat.Basic

/-!
# Sizes and alignments of types

A layout carries what every type promises: its alignment is a power of two of
at most `2^29`, and its size is a multiple of its alignment. A union is as large
and as strictly aligned as its larger member.
-/

set_option autoImplicit false

namespace Lockness.VecLayout

/-- `usize::next_multiple_of`. -/
def next_multiple_of (n a : ℕ) : ℕ := (n+(a-1))/a*a

theorem dvd_next_multiple_of (n a : ℕ) : a ∣ next_multiple_of n a := Nat.dvd_mul_left a _

theorem le_next_multiple_of (n : ℕ) {a : ℕ} (ha : 0 < a) : n ≤ next_multiple_of n a := by
  have h1 := Nat.div_add_mod (n+(a-1)) a
  have h2 := Nat.mod_lt (n+(a-1)) ha
  rw [next_multiple_of, Nat.mul_comm]
  omega

theorem next_multiple_of_le {n m a : ℕ} (ha : 0 < a) (hnm : n ≤ m) (hm : a ∣ m) :
    next_multiple_of n a ≤ m := by
  obtain ⟨k,rfl⟩ := hm
  rw [next_multiple_of, Nat.mul_comm]
  apply Nat.mul_le_mul_left
  rw [Nat.div_le_iff_le_mul_add_pred ha]
  exact Nat.add_le_add_right hnm (a-1)

theorem next_multiple_of_mono {n m : ℕ} (a : ℕ) (hnm : n ≤ m) :
    next_multiple_of n a ≤ next_multiple_of m a :=
  Nat.mul_le_mul_right _ (Nat.div_le_div_right (Nat.add_le_add_right hnm _))

theorem next_multiple_of_lt (n : ℕ) {a : ℕ} (ha : 0 < a) : next_multiple_of n a < n+a := by
  have := Nat.div_mul_le_self (n+(a-1)) a
  rw [next_multiple_of]
  omega

theorem next_multiple_of_self {n a : ℕ} (ha : 0 < a) (hn : a ∣ n) : next_multiple_of n a = n :=
  Nat.le_antisymm (next_multiple_of_le ha le_rfl hn) (le_next_multiple_of n ha)

structure Layout where
  size : ℕ
  align : ℕ
  align_pow : ∃ k ≤ 29, align = 2^k
  size_dvd : align ∣ size
  deriving DecidableEq

namespace Layout

variable (a b : Layout)

theorem align_pos : 0 < a.align := by
  obtain ⟨k,-,hk⟩ := a.align_pow
  rw [hk]
  exact Nat.two_pow_pos k

theorem align_le : a.align ≤ 2^29 := by
  obtain ⟨k,hk,ha⟩ := a.align_pow
  rw [ha]
  exact Nat.pow_le_pow_right (by decide) hk

theorem max_align_pow : ∃ k ≤ 29, max a.align b.align = 2^k := by
  rcases le_total a.align b.align with h | h
  · rw [max_eq_right h]
    exact b.align_pow
  · rw [max_eq_left h]
    exact a.align_pow

/-- The layout of a union of two types. -/
def union : Layout where
  size := next_multiple_of (max a.size b.size) (max a.align b.align)
  align := max a.align b.align
  align_pow := max_align_pow a b
  size_dvd := dvd_next_multiple_of _ _

def unit : Layout := ⟨0,1,⟨0,by decide,rfl⟩,by decide⟩

theorem align_dvd_of_le {a b : Layout} (h : a.align ≤ b.align) : a.align ∣ b.align := by
  obtain ⟨j,-,hj⟩ := a.align_pow
  obtain ⟨k,-,hk⟩ := b.align_pow
  rw [hj, hk] at h ⊢
  exact Nat.pow_dvd_pow 2 ((Nat.pow_le_pow_iff_right (by decide)).mp h)

theorem union_align_left : a.align ∣ (a.union b).align :=
  align_dvd_of_le (le_max_left a.align b.align)

theorem union_align_right : b.align ∣ (a.union b).align :=
  align_dvd_of_le (le_max_right a.align b.align)

theorem union_size_left : a.size ≤ (a.union b).size :=
  (le_max_left _ _).trans (le_next_multiple_of _ (a.union b).align_pos)

theorem union_size_right : b.size ≤ (a.union b).size :=
  (le_max_right _ _).trans (le_next_multiple_of _ (a.union b).align_pos)

theorem union_unit_size : (a.union unit).size = a.size := by
  have hs : max a.size unit.size = a.size := max_eq_left (Nat.zero_le _)
  have ha : max a.align unit.align = a.align := max_eq_left a.align_pos
  change next_multiple_of (max a.size unit.size) (max a.align unit.align) = a.size
  rw [hs, ha, next_multiple_of_self a.align_pos a.size_dvd]

theorem union_size_eq : next_multiple_of (max (a.union unit).size b.size) (a.union b).align =
    (a.union b).size := by
  rw [union_unit_size]
  rfl

end Layout
end Lockness.VecLayout
