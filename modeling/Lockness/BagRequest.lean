import Lockness.BagMasks

/-!
# Which slots a sender asks for

`compute_request_mask` is the sender's cyclic window from its bias on, and
`clear_extra_bits` trims the free slots of a stale word. Both never name a
status bit, never ask for more slots than there are items, and never ask for
nothing; the reservation loop rests on these three facts only.
-/

set_option autoImplicit false

namespace Lockness.BagRequest
open Lockness.WordBits Lockness.BagMasks

/-- `const { 1 << (u32::BITS - 1) }`, the only negative `i32` that is a power of two. -/
def high_bit : Word := 1 <<< 31

def num_status_bits : ℕ := count_ones Status.all

def compute_request_mask (N available_items bias : ℕ) : Word :=
  let available := min available_items N
  let mask := high_bit.sshiftRight (available-1)
  if bias = 0 then
    mask
  else
    let overstepped := mask.rotateRight (bias+num_status_bits)
    (overstepped &&& high_bit.sshiftRight (bias-1)) ||| (overstepped <<< num_status_bits)

/-- The loop of `clear_extra_bits`, which counts `set_bits` down to `max`. -/
def clear_loop (max : ℕ) : ℕ → Word → Word
  | 0, mask => mask
  | set_bits+1, mask =>
    if set_bits+1 > max then clear_loop max set_bits (mask &&& (mask-1)) else mask

def clear_extra_bits (mask : Word) (max : ℕ) (direction : Bool) : Word :=
  let set_bits := count_ones mask
  let mask := if direction then mask.reverse else mask
  let mask := clear_loop max set_bits mask
  if direction then mask.reverse else mask

theorem num_status_bits_eq : num_status_bits = 2 := by decide

theorem getMsbD_high_bit (i : ℕ) : high_bit.getMsbD i = decide (i = 0) := by
  rw [show high_bit = BitVec.twoPow 32 31 from rfl, BitVec.getMsbD_twoPow]
  simp

theorem getMsbD_window (s i : ℕ) :
    (high_bit.sshiftRight s).getMsbD i = (decide (i < 32) && decide (i ≤ s)) := by
  rw [BitVec.getMsbD_sshiftRight, getMsbD_high_bit, show high_bit.msb = true from rfl]
  by_cases h32 : i < 32 <;> by_cases hs : i < s <;> simp [h32,hs] <;> omega

theorem getMsbD_compute_request_mask (n b i : ℕ) (hn : 0 < n) (hb : b < 30) (hi : i < 30) :
    (compute_request_mask 30 n b).getMsbD i = decide ((i+30-b)%30 < min n 30) := by
  have hm : 0 < min n 30 ∧ min n 30 ≤ 30 := by omega
  generalize hmn : min n 30 = m at hm ⊢
  simp only [compute_request_mask, hmn]
  split_ifs with h0
  · subst h0
    rw [getMsbD_window]
    have : (i+30-0)%30 = i := by omega
    rw [this]
    simp [show i < 32 by omega]
    omega
  · have hr' : (b+2)%32 = b+2 := by omega
    rw [num_status_bits_eq, BitVec.getMsbD_or, BitVec.getMsbD_and, BitVec.getMsbD_shiftLeft,
      BitVec.getMsbD_rotateRight, BitVec.getMsbD_rotateRight, getMsbD_window, hr']
    by_cases hib : i < b
    · have h1 : (32+i-(b+2))%32 = 30+i-b := by omega
      have h2 : (32+(i+2)-(b+2))%32 = 32+i-b := by omega
      have h3 : (i+30-b)%30 = 30+i-b := by omega
      simp only [h1, h2, h3, getMsbD_window, show i < b+2 by omega, show i+2 < b+2 by omega,
        show i < 32 by omega, show i+2 < 32 by omega, show 30+i-b < 32 by omega, if_true,
        show i ≤ b-1 by omega, decide_true, Bool.true_and, Bool.and_true]
      rw [Bool.eq_iff_iff]
      simp
      omega
    · have h2 : i+2-(b+2) = i-b := by omega
      have h3 : (i+30-b)%30 = i-b := by omega
      simp only [h2, h3, getMsbD_window, show ¬i+2 < b+2 by omega,
        show i < 32 by omega, show i+2 < 32 by omega, show i-b < 32 by omega, if_false,
        show ¬i ≤ b-1 by omega, decide_true, decide_false, Bool.true_and, Bool.and_false,
        Bool.false_or]
      rw [Bool.eq_iff_iff]
      simp
      omega

theorem mem_compute_request_mask (n b : ℕ) (hn : 0 < n) (hb : b < 30) (i : Fin 30) :
    i ∈ slots (compute_request_mask 30 n b) ↔ (i.val+30-b)%30 < min n 30 := by
  rw [mem_slots, getMsbD_compute_request_mask n b i hn hb i.isLt, decide_eq_true_eq]

theorem compute_request_mask_bare (n b : ℕ) (hb : b < 30) :
    Bare (compute_request_mask 30 n b) := by
  have hm : min n 30 ≤ 30 := by omega
  have hbit : ∀ k, k < 2 → (compute_request_mask 30 n b).getMsbD (31-k) = false := by
    intro k hk
    simp only [compute_request_mask]
    split_ifs with h0
    · rw [getMsbD_window]
      simp; omega
    · rw [num_status_bits_eq, BitVec.getMsbD_or, BitVec.getMsbD_and, BitVec.getMsbD_shiftLeft,
        getMsbD_window, BitVec.getMsbD_of_ge _ (31-k+2) (by omega)]
      simp; omega
  rw [bare_iff, dead_eq, sleeping_eq, getMsbD_of_bit _ _ (by decide),
    getMsbD_of_bit _ _ (by decide)]
  exact ⟨hbit 0 (by decide),hbit 1 (by decide)⟩

theorem compute_request_mask_nonempty (n b : ℕ) (hn : 0 < n) (hb : b < 30) :
    slots (N := 30) (compute_request_mask 30 n b) ≠ ∅ := by
  apply Finset.Nonempty.ne_empty
  refine ⟨⟨b,hb⟩,?_⟩
  rw [mem_compute_request_mask n b hn hb]
  have : (b+30-b)%30 = 0 := by omega
  simp only [this]
  omega

theorem compute_request_mask_card (n b : ℕ) (hn : 0 < n) (hb : b < 30) :
    (slots (N := 30) (compute_request_mask 30 n b)).card ≤ n := by
  calc
    _ ≤ (Finset.range (min n 30)).card := by
      apply Finset.card_le_card_of_injOn (fun i : Fin 30 => (i.val+30-b)%30)
      · intro i hi
        have hi' := (mem_compute_request_mask n b hn hb i).mp hi
        simpa using hi'
      · intro i _ j _ hij
        have := i.isLt
        have := j.isLt
        simp only at hij
        apply Fin.ext
        omega
    _ ≤ n := by rw [Finset.card_range]; omega

theorem clear_loop_spec (max : ℕ) (mask : Word) (k : ℕ) (hk : count_ones mask = k) :
    bits (clear_loop max k mask) ⊆ bits mask ∧ count_ones (clear_loop max k mask) = min max k := by
  induction k generalizing mask with
  | zero => exact ⟨Finset.Subset.refl _,by simp [clear_loop,hk]⟩
  | succ k ih =>
    rw [clear_loop]
    split_ifs with hm
    · have hx : mask ≠ 0 := (count_ones_pos mask).mp (by omega)
      have hc := count_ones_and_sub_one mask hx
      obtain ⟨j,_,hj⟩ := and_sub_one mask hx
      obtain ⟨hs,hn⟩ := ih (mask &&& (mask-1)) (by omega)
      refine ⟨hs.trans (hj ▸ Finset.erase_subset _ _),?_⟩
      omega
    · exact ⟨Finset.Subset.refl _,by omega⟩

theorem count_ones_clear_extra_bits (mask : Word) (max : ℕ) (d : Bool) :
    count_ones (clear_extra_bits mask max d) = min max (count_ones mask) := by
  cases d
  · exact (clear_loop_spec max mask _ rfl).2
  · simp only [clear_extra_bits, if_true]
    rw [count_ones_reverse]
    exact (clear_loop_spec max mask.reverse _ (count_ones_reverse mask)).2

theorem clear_extra_bits_sub (mask : Word) (max : ℕ) (d : Bool) (i : ℕ)
    (h : (clear_extra_bits mask max d).getLsbD i = true) : mask.getLsbD i = true := by
  cases d
  · exact (mem_bits _ _).mp ((clear_loop_spec max mask _ rfl).1 ((mem_bits _ _).mpr h))
  · simp only [clear_extra_bits, if_true, BitVec.getLsbD_reverse] at h
    have hi : i < 32 := by
      by_contra hge
      rw [BitVec.getMsbD_of_ge _ _ (by omega)] at h
      exact absurd h (by decide)
    rw [BitVec.getMsbD_eq_getLsbD, Bool.and_eq_true] at h
    have hs := (clear_loop_spec max mask.reverse _ (count_ones_reverse mask)).1
      ((mem_bits _ _).mpr h.2)
    rw [mem_bits, BitVec.getLsbD_reverse, BitVec.getMsbD_eq_getLsbD, Bool.and_eq_true] at hs
    have : 32-1-(32-1-i) = i := by omega
    rw [this] at hs
    exact hs.2

theorem slots_card_le {N : ℕ} (hN : N ≤ 32) (w : Word) :
    (slots (N := N) w).card ≤ count_ones w := by
  rw [count_ones_eq_card]
  apply Finset.card_le_card_of_injOn (fun i : Fin N => 31-i.val)
  · intro i hi
    have hi' := (mem_slots w i).mp hi
    rw [BitVec.getMsbD_eq_getLsbD, Bool.and_eq_true] at hi'
    exact (mem_bits _ _).mpr hi'.2
  · intro i _ j _ hij
    simp only at hij
    apply Fin.ext
    omega

theorem bits_of_bare {w : Word} (h : Bare w) :
    bits w = (slots (N := 30) w).image (fun i => 31-i.val) := by
  have hd := h.dead
  have hs := h.sleeping
  rw [dead_eq] at hd
  rw [sleeping_eq] at hs
  ext k
  rw [mem_bits, Finset.mem_image]
  constructor
  · intro hk
    have h32 : k < 32 := BitVec.lt_of_getLsbD hk
    have h0 : k ≠ 0 := fun h0 => absurd (hd.symm.trans (h0 ▸ hk)) (by decide)
    have h1 : k ≠ 1 := fun h1 => absurd (hs.symm.trans (h1 ▸ hk)) (by decide)
    refine ⟨⟨31-k,by omega⟩,?_,?_⟩
    · rw [mem_slots,← getMsbD_of_bit w k h32]
      exact hk
    · simp only
      omega
  · rintro ⟨i,hi,rfl⟩
    rw [getMsbD_of_bit _ _ (by omega), show 31-(31-i.val) = i.val by omega]
    exact (mem_slots w i).mp hi

theorem count_ones_of_bare {w : Word} (h : Bare w) : count_ones w = (slots (N := 30) w).card := by
  rw [count_ones_eq_card, bits_of_bare h, Finset.card_image_of_injective]
  intro i j hij
  simp only at hij
  apply Fin.ext
  omega

section Trim

variable (mask : Word) (max : ℕ) (d : Bool)

theorem clear_extra_bits_bare (h : Bare mask) : Bare (clear_extra_bits mask max d) := by
  rw [bare_iff, dead_eq, sleeping_eq]
  have hd := h.dead
  have hs := h.sleeping
  rw [dead_eq] at hd
  rw [sleeping_eq] at hs
  constructor
  · cases hb : (clear_extra_bits mask max d).getLsbD 0
    · rfl
    · exact absurd (clear_extra_bits_sub mask max d 0 hb) (by simp only [hd]; decide)
  · cases hb : (clear_extra_bits mask max d).getLsbD 1
    · rfl
    · exact absurd (clear_extra_bits_sub mask max d 1 hb) (by simp only [hs]; decide)

theorem clear_extra_bits_subset : slots (N := 30) (clear_extra_bits mask max d) ⊆ slots mask := by
  intro i hi
  rw [mem_slots, BitVec.getMsbD_eq_getLsbD, Bool.and_eq_true] at hi ⊢
  exact ⟨hi.1,clear_extra_bits_sub mask max d _ hi.2⟩

theorem clear_extra_bits_card : (slots (N := 30) (clear_extra_bits mask max d)).card ≤ max := by
  have h1 := slots_card_le (N := 30) (by decide) (clear_extra_bits mask max d)
  have h2 := count_ones_clear_extra_bits mask max d
  omega

theorem clear_extra_bits_nonempty (h : Bare mask) (hm : 0 < max)
    (hs : slots (N := 30) mask ≠ ∅) : slots (N := 30) (clear_extra_bits mask max d) ≠ ∅ := by
  have h0 : mask ≠ 0 := fun h0 => hs (h.eq_zero_iff.mp h0)
  have hc := (count_ones_pos mask).mpr h0
  have hr := count_ones_clear_extra_bits mask max d
  rw [ne_eq, ← (clear_extra_bits_bare mask max d h).eq_zero_iff]
  exact (count_ones_pos _).mp (by omega)

end Trim

end Lockness.BagRequest
