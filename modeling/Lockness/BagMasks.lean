import Mathlib.Data.Finset.BooleanAlgebra
import Mathlib.Data.List.Sort
import Lockness.WordBits

/-!
# Status bits and slot masks of the bag

One 32-bit word carries two status bits and up to thirty slot bits, slot `i`
being the `i`-th bit from the top. The functions are those of the source on
whole words; `slots` reads a word as the set of its slots, and each word
operation of the channel is a set operation on slots.
-/

set_option autoImplicit false

namespace Lockness.BagMasks
open Lockness.WordBits

abbrev Word := BitVec 32

namespace Status

def COUNTERPARTY_DEAD : Word := 1
def SLEEPING : Word := 2
def all : Word := COUNTERPARTY_DEAD ||| SLEEPING

/-- `Status::from_bits_retain(bits).contains(flag)`. -/
def contains (bits flag : Word) : Bool := bits &&& flag == flag

end Status

/-- `u32::MAX`, both as a bit pattern and as a number of waiters. -/
def u32_MAX : Word := BitVec.allOnes 32

def dead (w : Word) : Bool := Status.contains w Status.COUNTERPARTY_DEAD

def sleeping (w : Word) : Bool := Status.contains w Status.SLEEPING

theorem contains_twoPow (w : Word) (k : ℕ) (hk : k < 32) :
    Status.contains w (BitVec.twoPow 32 k) = w.getLsbD k := by
  have h0 : BitVec.twoPow 32 k ≠ 0#32 := by
    intro h
    simpa [hk] using congrArg (fun x => x.getLsbD k) h
  rw [Status.contains, BitVec.and_twoPow]
  cases w.getLsbD k <;> simp [h0.symm]

theorem dead_eq (w : Word) : dead w = w.getLsbD 0 := contains_twoPow w 0 (by decide)

theorem sleeping_eq (w : Word) : sleeping w = w.getLsbD 1 := contains_twoPow w 1 (by decide)

@[simp] theorem dead_or (a b : Word) : dead (a ||| b) = (dead a || dead b) := by simp [dead_eq]
@[simp] theorem dead_and (a b : Word) : dead (a &&& b) = (dead a && dead b) := by simp [dead_eq]
@[simp] theorem dead_not (a : Word) : dead (~~~a) = !dead a := by simp [dead_eq]
@[simp] theorem sleeping_or (a b : Word) : sleeping (a ||| b) = (sleeping a || sleeping b) := by
  simp [sleeping_eq]
@[simp] theorem sleeping_and (a b : Word) : sleeping (a &&& b) = (sleeping a && sleeping b) := by
  simp [sleeping_eq]
@[simp] theorem sleeping_not (a : Word) : sleeping (~~~a) = !sleeping a := by simp [sleeping_eq]
@[simp] theorem dead_all : dead Status.all = true := by decide
@[simp] theorem sleeping_all : sleeping Status.all = true := by decide
@[simp] theorem dead_SLEEPING : dead Status.SLEEPING = false := by decide
@[simp] theorem sleeping_SLEEPING : sleeping Status.SLEEPING = true := by decide
@[simp] theorem dead_COUNTERPARTY_DEAD : dead Status.COUNTERPARTY_DEAD = true := by decide
@[simp] theorem sleeping_COUNTERPARTY_DEAD : sleeping Status.COUNTERPARTY_DEAD = false := by decide
@[simp] theorem dead_u32_MAX : dead u32_MAX = true := by decide
@[simp] theorem sleeping_u32_MAX : sleeping u32_MAX = true := by decide
@[simp] theorem dead_zero : dead 0#32 = false := by decide

def slots {N : ℕ} (w : Word) : Finset (Fin N) := Finset.univ.filter (fun i => w.getMsbD i)

section Slots

variable {N : ℕ}

@[simp] theorem mem_slots (w : Word) (i : Fin N) : i ∈ slots w ↔ w.getMsbD i = true := by
  simp [slots]

@[simp] theorem slots_or (a b : Word) : slots (N := N) (a ||| b) = slots a ∪ slots b := by
  ext i; simp

@[simp] theorem slots_and (a b : Word) : slots (N := N) (a &&& b) = slots a ∩ slots b := by
  ext i; simp

@[simp] theorem slots_zero : slots (N := N) 0#32 = ∅ := by
  ext i; simp [BitVec.getMsbD]

theorem slots_not (hN : N ≤ 32) (a : Word) : slots (N := N) (~~~a) = (slots a)ᶜ := by
  ext i
  have : i.val < 32 := by omega
  simp [this]

theorem slots_all (hN : N ≤ 30) : slots (N := N) Status.all = ∅ := by
  have h : ∀ i : Fin 30, Status.all.getMsbD i = false := by decide
  ext i
  simpa using h ⟨i,by omega⟩

end Slots

def Bare (w : Word) : Prop := w &&& Status.all = 0

instance (w : Word) : Decidable (Bare w) := inferInstanceAs (Decidable (_ = _))

theorem bare_iff (w : Word) : Bare w ↔ dead w = false ∧ sleeping w = false := by
  have hall : ∀ k, Status.all.getLsbD k = (decide (k = 0) || decide (k = 1)) := by
    intro k
    by_cases hk : k < 32
    · have h : ∀ k : Fin 32, Status.all.getLsbD k = (decide (k.val = 0) || decide (k.val = 1)) := by
        decide
      exact h ⟨k,hk⟩
    · rw [BitVec.getLsbD_of_ge _ _ (by omega)]
      simp [show k ≠ 0 by omega,show k ≠ 1 by omega]
  rw [dead_eq, sleeping_eq]
  constructor
  · intro h
    have hb : ∀ k, (w.getLsbD k && Status.all.getLsbD k) = false := fun k => by
      rw [← BitVec.getLsbD_and, show w &&& Status.all = 0#32 from h, BitVec.getLsbD_zero]
    have h0 := hb 0
    have h1 := hb 1
    rw [hall] at h0 h1
    exact ⟨by simpa only [decide_true,Bool.true_or,Bool.and_true] using h0,
      by simpa only [decide_true,Bool.or_true,Bool.and_true] using h1⟩
  · rintro ⟨h0,h1⟩
    apply BitVec.eq_of_getLsbD_eq
    intro k _
    rw [BitVec.getLsbD_and, hall]
    rcases k with _ | _ | k
    · rw [h0]; rfl
    · rw [h1]; rfl
    · simp

theorem Bare.dead {w : Word} (h : Bare w) : dead w = false := ((bare_iff w).mp h).1
theorem Bare.sleeping {w : Word} (h : Bare w) : sleeping w = false := ((bare_iff w).mp h).2

theorem bare_not_all (w : Word) : Bare (~~~(w ||| Status.all)) := by
  rw [bare_iff]; simp

theorem bare_and_not_all (w : Word) : Bare (w &&& ~~~Status.all) := by
  rw [bare_iff]; simp

theorem Bare.and_left {w : Word} (h : Bare w) (v : Word) : Bare (v &&& w) := by
  rw [bare_iff]
  simp [h.dead,h.sleeping]

theorem getMsbD_of_bit (w : Word) (k : ℕ) (hk : k < 32) : w.getLsbD k = w.getMsbD (31-k) := by
  rw [BitVec.getMsbD]
  have : 32-1-(31-k) = k := by omega
  simp [show 31-k < 32 by omega,this]

theorem word_ext {a b : Word} (hs : slots (N := 30) a = slots b) (hd : dead a = dead b)
    (hl : sleeping a = sleeping b) : a = b := by
  apply BitVec.eq_of_getLsbD_eq
  intro k hk
  rcases k with _ | _ | k
  · simpa [dead_eq] using hd
  · simpa [sleeping_eq] using hl
  · have h := congrArg (fun s : Finset (Fin 30) => (⟨31-(k+2),by omega⟩ : Fin 30) ∈ s) hs
    simp only [mem_slots, eq_iff_iff] at h
    rw [getMsbD_of_bit _ _ hk, getMsbD_of_bit _ _ hk]
    exact Bool.eq_iff_iff.mpr h

@[simp] theorem slots30_not (a : Word) : slots (N := 30) (~~~a) = (slots a)ᶜ :=
  slots_not (by decide) a

@[simp] theorem slots30_all : slots (N := 30) Status.all = ∅ := slots_all (by decide)

@[simp] theorem slots30_SLEEPING : slots (N := 30) Status.SLEEPING = ∅ := by decide

@[simp] theorem slots30_COUNTERPARTY_DEAD : slots (N := 30) Status.COUNTERPARTY_DEAD = ∅ := by
  decide

@[simp] theorem slots30_u32_MAX : slots (N := 30) u32_MAX = Finset.univ := by decide

theorem Bare.eq_zero_iff {w : Word} (h : Bare w) : w = 0 ↔ slots (N := 30) w = ∅ := by
  constructor
  · rintro rfl
    exact slots_zero
  · intro hs
    exact word_ext (hs.trans slots_zero.symm) h.dead h.sleeping

theorem Bare.pos_iff {w : Word} (h : Bare w) : 0 < w ↔ (slots (N := 30) w).Nonempty := by
  rw [Finset.nonempty_iff_ne_empty, Ne, ← h.eq_zero_iff]
  exact BitVec.pos_iff_ne_zero w

/-- The test for a full bag: `prev | Status::all().bits() == u32::MAX`. -/
theorem full_iff (w : Word) :
    w ||| Status.all = u32_MAX ↔ slots (N := 30) w = Finset.univ := by
  constructor
  · intro h
    simpa using congrArg (slots (N := 30)) h
  · intro h
    apply word_ext
    · simp [h]
    · simp
    · simp

/-- One iteration of `drain_mask`: the next slot and the mask without it, or
the exit when the next set bit lies outside the bag. -/
def drain_next (N : ℕ) (mask : Word) : Option (Fin N × Word) :=
  let i := leading_zeros mask
  if h : i < N then some (⟨i,h⟩,mask &&& ~~~((1:Word) <<< (32-i-1))) else none

def drain_from (N : ℕ) : ℕ → Word → List (Fin N)
  | 0, _ => []
  | k+1, mask => match drain_next N mask with
    | none => []
    | some (i,mask') => i::drain_from N k mask'

/-- The indices for which `drain_mask` calls its closure, in order. A mask has
at most 32 set bits and each iteration clears one. -/
def drain_mask (N : ℕ) (mask : Word) : List (Fin N) := drain_from N 32 mask

def visited (N : ℕ) (mask : Word) : List (Fin N) :=
  (List.finRange N).filter (fun i => mask.getLsbD (31-i))

section Drain

variable {N : ℕ} {mask mask' : Word} {i : Fin N}

theorem drain_next_none (h : drain_next N mask = none) : slots (N := N) mask = ∅ := by
  simp only [drain_next, dite_eq_right_iff, reduceCtorEq, imp_false, not_lt] at h
  ext j
  rw [mem_slots, getMsbD_of_lt_leading_zeros mask j (by omega)]
  simp

theorem drain_next_mem (hN : N ≤ 32) (h : drain_next N mask = some (i,mask')) :
    i ∈ slots mask := by
  simp only [drain_next, Option.dite_none_right_eq_some, Option.some.injEq, Prod.mk.injEq] at h
  obtain ⟨hi,rfl,_⟩ := h
  rw [mem_slots]
  apply getMsbD_leading_zeros
  rintro rfl
  rw [leading_zeros_zero] at hi
  omega

theorem getMsbD_slot_bit {k : ℕ} (hk : k < 32) (j : ℕ) :
    ((1:Word) <<< (32-k-1)).getMsbD j = decide (j = k) := by
  have h1 : 32-k-1 < 32 := by omega
  have h2 : 32-(32-k-1)-1 = k := by omega
  change (BitVec.twoPow 32 (32-k-1)).getMsbD j = _
  rw [BitVec.getMsbD_twoPow, h2, decide_eq_true h1, Bool.true_and]

theorem drain_next_getMsbD (hN : N ≤ 32) (h : drain_next N mask = some (i,mask')) (j : ℕ) :
    mask'.getMsbD j = (mask.getMsbD j && decide (j ≠ i)) := by
  simp only [drain_next, Option.dite_none_right_eq_some, Option.some.injEq, Prod.mk.injEq] at h
  obtain ⟨hi,rfl,rfl⟩ := h
  by_cases hj : j < 32
  · rw [BitVec.getMsbD_and, BitVec.getMsbD_not, getMsbD_slot_bit (hi.trans_le hN)]
    simp [hj]
  · have h0 : ∀ x : Word, x.getMsbD j = false := fun x => by simp [BitVec.getMsbD,hj]
    rw [h0, h0, Bool.false_and]

theorem drain_next_slots (hN : N ≤ 32) (h : drain_next N mask = some (i,mask')) :
    slots mask' = (slots mask).erase i := by
  ext j
  rw [mem_slots, drain_next_getMsbD hN h, Finset.mem_erase, mem_slots]
  simp [Fin.ext_iff,and_comm]

theorem visited_pairwise (N : ℕ) (mask : Word) : (visited N mask).Pairwise (·<·) :=
  (List.sortedLT_finRange N).pairwise.filter _

theorem mem_visited : i ∈ visited N mask ↔ mask.getLsbD (31-i) = true := by
  simp [visited]

theorem mem_visited_slots (hN : N ≤ 32) : i ∈ visited N mask ↔ i ∈ slots mask := by
  have hi := i.isLt
  rw [mem_visited, mem_slots, getMsbD_of_bit _ _ (by omega), show 31-(31-i.val) = i by omega]

theorem visited_length_le (N : ℕ) (mask : Word) : (visited N mask).length ≤ N :=
  (List.length_filter_le _ _).trans List.length_finRange.le

theorem visited_nil (hN : N ≤ 32) (h : drain_next N mask = none) : visited N mask = [] := by
  rw [List.eq_nil_iff_forall_not_mem]
  intro i hi
  rw [mem_visited_slots hN, drain_next_none h] at hi
  simp at hi

theorem drain_next_le (h : drain_next N mask = some (i,mask')) {j : Fin N} (hj : j ∈ slots mask) :
    i ≤ j := by
  simp only [drain_next, Option.dite_none_right_eq_some, Option.some.injEq, Prod.mk.injEq] at h
  obtain ⟨hi,rfl,-⟩ := h
  by_contra hlt
  rw [mem_slots, getMsbD_of_lt_leading_zeros mask j (Fin.lt_def.mp (not_le.mp hlt))] at hj
  cases hj

theorem visited_cons (hN : N ≤ 32) (h : drain_next N mask = some (i,mask')) :
    visited N mask = i :: visited N mask' := by
  refine (visited_pairwise N mask).eq_of_mem_iff
    (List.pairwise_cons.mpr ⟨fun j hj => ?_,visited_pairwise N mask'⟩) (fun j => ?_)
  · rw [mem_visited_slots hN, drain_next_slots hN h, Finset.mem_erase] at hj
    exact lt_of_le_of_ne (drain_next_le h hj.2) hj.1.symm
  · rw [List.mem_cons, mem_visited_slots hN, mem_visited_slots hN, drain_next_slots hN h,
      Finset.mem_erase]
    by_cases hj : j = i
    · simp [hj,drain_next_mem hN h]
    · simp [hj]

theorem drain_from_eq (hN : N ≤ 32) (k : ℕ) (mask : Word) (hk : (visited N mask).length ≤ k) :
    drain_from N k mask = visited N mask := by
  induction k generalizing mask with
  | zero => rw [drain_from, List.length_eq_zero_iff.mp (Nat.le_zero.mp hk)]
  | succ k ih =>
    rw [drain_from]
    cases hd : drain_next N mask with
    | none => rw [visited_nil hN hd]
    | some r =>
      obtain ⟨i,mask'⟩ := r
      rw [visited_cons hN hd] at hk ⊢
      exact congrArg (i :: ·) (ih mask' (Nat.le_of_succ_le_succ hk))

theorem drain_mask_eq (hN : N ≤ 32) (mask : Word) : drain_mask N mask = visited N mask :=
  drain_from_eq hN 32 mask ((visited_length_le N mask).trans hN)

theorem drain_mask_slots (hN : N ≤ 32) (mask : Word) :
    (drain_mask N mask).Nodup ∧ (drain_mask N mask).toFinset = slots mask := by
  rw [drain_mask_eq hN]
  refine ⟨(visited_pairwise N mask).nodup,?_⟩
  ext i
  rw [List.mem_toFinset, mem_visited_slots hN]

end Drain

end Lockness.BagMasks
