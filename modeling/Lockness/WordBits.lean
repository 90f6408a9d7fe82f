import Mathlib.Data.BitVec
import Mathlib.Data.Finset.Card
import Mathlib.Data.Fintype.Card
import Mathlib.Data.Nat.Bitwise
import Mathlib.Data.Nat.Factorization.Basic

/-!
# The set bits of a machine word

A word is read as the finite set of its bit positions. Population count is
the size of that set, leading zeros give its largest element, and `x & (x-1)`
removes its smallest one.
-/

set_option autoImplicit false

namespace Lockness.WordBits

variable {w : ℕ}

def bits (x : BitVec w) : Finset ℕ := (Finset.range w).filter (fun i => x.getLsbD i)

theorem mem_bits (x : BitVec w) (i : ℕ) : i ∈ bits x ↔ x.getLsbD i = true := by
  simp only [bits, Finset.mem_filter, Finset.mem_range, and_iff_right_iff_imp]
  exact BitVec.lt_of_getLsbD

theorem bits_eq_empty (x : BitVec w) : bits x = ∅ ↔ x = 0 := by
  constructor
  · intro h
    apply BitVec.eq_of_getLsbD_eq
    intro i hi
    have : i ∉ bits x := by simp [h]
    simpa [mem_bits] using this
  · rintro rfl
    ext i
    simp [mem_bits]

def count_ones (x : BitVec w) : ℕ := x.cpop.toNat

theorem count_ones_eq_card (x : BitVec w) : count_ones x = (bits x).card := by
  have h : ∀ n, x.cpopNatRec n 0 = ((Finset.range n).filter (fun i => x.getLsbD i)).card := by
    intro n
    induction n with
    | zero => rfl
    | succ n ih =>
      rw [BitVec.cpopNatRec_succ, BitVec.cpopNatRec_add, ih, Finset.range_add_one,
        Finset.filter_insert]
      cases hb : x.getLsbD n
      · simp
      · rw [if_pos rfl, Finset.card_insert_of_notMem (by simp)]
        rfl
  rw [count_ones, BitVec.toNat_cpop, h]
  rfl

theorem and_sub_one_least (x : BitVec w) (hx : x ≠ 0) : ∃ k ∈ bits x,
    (∀ j ∈ bits x, k ≤ j) ∧ bits (x &&& (x-1)) = (bits x).erase k := by
  have h0 : x.toNat ≠ 0 := fun h => hx (BitVec.eq_of_toNat_eq (by simpa using h))
  obtain ⟨k,m,⟨a,rfl⟩,hk⟩ := Nat.exists_eq_two_pow_mul_odd h0
  have hlow : (2:ℕ)^k-1 < 2^k := Nat.sub_lt (Nat.two_pow_pos k) Nat.one_pos
  have hsub : (x-1).toNat = 2^k*(2*a)+(2^k-1) := by
    have h1 : (1:BitVec w).toNat ≤ 1 := by simp; exact Nat.mod_le _ _
    have hw : 1 < 2^w := lt_of_le_of_lt (Nat.one_le_iff_ne_zero.mpr h0) x.isLt
    have h2 : (1:BitVec w).toNat = 1 := by simp [Nat.mod_eq_of_lt hw]
    rw [BitVec.toNat_sub_of_le (by rw [BitVec.le_def, h2]; omega), h2, hk]
    have := Nat.two_pow_pos k
    rw [Nat.mul_add, Nat.mul_one]
    omega
  have hx' : x.toNat = 2^k*(2*a+1)+0 := by simpa using hk
  have hbit : ∀ j, x.getLsbD j = if j < k then false else (2*a+1).testBit (j-k) := by
    intro j
    rw [← BitVec.testBit_toNat, hx', Nat.testBit_two_pow_mul_add _ (Nat.two_pow_pos k)]
    simp
  have hbit' : ∀ j, (x-1).getLsbD j = if j < k then true else (2*a).testBit (j-k) := by
    intro j
    rw [← BitVec.testBit_toNat, hsub, Nat.testBit_two_pow_mul_add _ hlow]
    split_ifs with hj
    · simp [hj]
    · rfl
  refine ⟨k,?_,?_,?_⟩
  · rw [mem_bits, hbit]
    simp
  · intro j hj
    by_contra hlt
    rw [mem_bits, hbit, if_pos (by omega)] at hj
    cases hj
  · ext j
    rw [Finset.mem_erase, mem_bits, mem_bits, BitVec.getLsbD_and, hbit, hbit']
    rcases lt_trichotomy j k with hj | rfl | hj
    · simp [hj]
    · simp
    · obtain ⟨d,hd⟩ : ∃ d, j-k = d+1 := ⟨j-k-1,by omega⟩
      have hne : j ≠ k := by omega
      simp [hd,show ¬j < k by omega,hne,Nat.testBit_succ,show (2*a+1)/2 = a by omega]

theorem and_sub_one (x : BitVec w) (hx : x ≠ 0) :
    ∃ k ∈ bits x, bits (x &&& (x-1)) = (bits x).erase k := by
  obtain ⟨k,hk,-,he⟩ := and_sub_one_least x hx
  exact ⟨k,hk,he⟩

theorem count_ones_and_sub_one (x : BitVec w) (hx : x ≠ 0) :
    count_ones (x &&& (x-1))+1 = count_ones x := by
  obtain ⟨k,hk,he⟩ := and_sub_one x hx
  rw [count_ones_eq_card, count_ones_eq_card, he, Finset.card_erase_of_mem hk]
  have := Finset.card_pos.mpr ⟨k,hk⟩
  omega

theorem count_ones_pos (x : BitVec w) : 0 < count_ones x ↔ x ≠ 0 := by
  rw [count_ones_eq_card, Finset.card_pos, Finset.nonempty_iff_ne_empty, ne_eq, bits_eq_empty]

theorem count_ones_reverse (x : BitVec w) : count_ones x.reverse = count_ones x := by
  simp [count_ones, BitVec.cpop_reverse]

def leading_zeros (x : BitVec w) : ℕ := x.clz.toNat

theorem leading_zeros_zero : leading_zeros (0 : BitVec w) = w := by
  have h := (BitVec.clz_eq_iff_eq_zero (x := (0 : BitVec w))).mpr rfl
  rw [leading_zeros, h]
  simp [Nat.mod_eq_of_lt (Nat.lt_two_pow_self (n := w))]

theorem leading_zeros_lt (x : BitVec w) (hx : x ≠ 0) : leading_zeros x < w := by
  have h := BitVec.clz_lt_iff_ne_zero.mpr hx
  rw [BitVec.lt_def] at h
  change leading_zeros x < _ at h
  simpa [Nat.mod_eq_of_lt (Nat.lt_two_pow_self (n := w))] using h

theorem getMsbD_leading_zeros (x : BitVec w) (hx : x ≠ 0) :
    x.getMsbD (leading_zeros x) = true := by
  have hlt := leading_zeros_lt x hx
  have h := BitVec.getLsbD_true_clz_of_ne_zero (x := x) (by omega) hx
  rw [BitVec.getMsbD, leading_zeros, h, Bool.and_true, decide_eq_true_eq]
  exact hlt

theorem getMsbD_of_lt_leading_zeros (x : BitVec w) (i : ℕ) (hi : i < leading_zeros x) :
    x.getMsbD i = false := by
  have hle : leading_zeros x ≤ w := by
    by_cases hx : x = 0
    · exact le_of_eq (by rw [hx, leading_zeros_zero])
    · exact le_of_lt (leading_zeros_lt x hx)
  have h := BitVec.getLsbD_false_of_clzAuxRec (x := x) (n := w-1)
    (fun i hi => BitVec.getLsbD_of_ge _ _ (by omega)) (leading_zeros x-1-i)
  rw [BitVec.getMsbD, Bool.and_eq_false_iff]
  right
  have he : w-1-i = w-(x.clzAuxRec (w-1)).toNat+(leading_zeros x-1-i) := by
    change w-1-i = w-leading_zeros x+(leading_zeros x-1-i)
    omega
  rw [he]
  exact h

end Lockness.WordBits
