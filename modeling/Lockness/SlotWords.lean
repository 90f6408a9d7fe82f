import Mathlib.Data.BitVec
import Mathlib.Tactic.Common

/-!
# The two status words of the slot channel

The senders' word has two flags on top and counts reservations below them. On
x86-64 it has 64 bits, every attempt adds one and the futex is its upper half;
elsewhere it has 32 bits, an attempt sets the lowest one and the futex is the
whole word. The receiver's word has three flags and nothing else.
-/

set_option autoImplicit false

namespace Lockness.SlotWords

/-- `cfg!(all(target_arch = "x86_64", not(miri)))`. -/
inductive Target where
  | x86_64
  | portable
  deriving DecidableEq

/-- `SendStatusU::BITS`. -/
abbrev Target.BITS : Target → ℕ
  | .x86_64 => 64
  | .portable => 32

abbrev SendStatusU (c : Target) := BitVec c.BITS

/-- `from_bits_retain(bits).contains(flag)`, for either status. -/
def contains {n : ℕ} (bits flag : BitVec n) : Bool := bits &&& flag == flag

theorem contains_twoPow {n : ℕ} (w : BitVec n) (k : ℕ) (hk : k < n) :
    contains w (BitVec.twoPow n k) = w.getLsbD k := by
  have h0 : BitVec.twoPow n k ≠ 0#n := by
    intro h
    simpa [hk] using congrArg (fun x => x.getLsbD k) h
  rw [contains, BitVec.and_twoPow]
  cases w.getLsbD k <;> simp [h0.symm]

theorem or_one (n : ℕ) : n ||| 1 = 2*(n/2)+1 := by
  apply Nat.eq_of_testBit_eq
  intro i
  cases i with
  | zero => simp
  | succ i =>
    rw [Nat.testBit_or, Nat.testBit_succ, Nat.testBit_succ, Nat.testBit_succ,
      show (2*(n/2)+1)/2 = n/2 by omega]
    simp

namespace SendStatus

variable {c : Target}

def RECEIVER_DEAD (c : Target) : SendStatusU c := 1 <<< (c.BITS-1)
def SLEEPING (c : Target) : SendStatusU c := 1 <<< (c.BITS-2)
def all (c : Target) : SendStatusU c := RECEIVER_DEAD c ||| SLEEPING c

def ABORT : SendStatusU .x86_64 := (all .x86_64 &&& (~~~all .x86_64+1)) >>> 1

def reservations (w : SendStatusU c) : SendStatusU c := w &&& ~~~all c

def dead (w : SendStatusU c) : Bool := contains w (RECEIVER_DEAD c)

def sleeping (w : SendStatusU c) : Bool := contains w (SLEEPING c)

/-- The first operation of `try_send`: `fetch_add(1)` or `fetch_or(1)`. -/
def attempt : (c : Target) → SendStatusU c → SendStatusU c
  | .x86_64, w => w+1
  | .portable, w => w ||| 1

/-- Whether `try_send` aborts on the word that it found. -/
def aborts : (c : Target) → SendStatusU c → Bool
  | .x86_64, w => reservations w > ABORT
  | .portable, _ => false

/-- The 32 bits that a futex call compares: `u64_to_futex` or the word. -/
def futex : (c : Target) → SendStatusU c → BitVec 32
  | .x86_64, w => w.extractLsb' 32 32
  | .portable, w => w

def count (w : SendStatusU c) : ℕ := (reservations w).toNat

theorem ABORT_eq : ABORT.toNat = 2^61 := by decide

theorem dead_eq (w : SendStatusU c) : dead w = w.getLsbD (c.BITS-1) := by
  cases c
  · exact contains_twoPow w 63 (by decide)
  · exact contains_twoPow w 31 (by decide)

theorem sleeping_eq (w : SendStatusU c) : sleeping w = w.getLsbD (c.BITS-2) := by
  cases c
  · exact contains_twoPow w 62 (by decide)
  · exact contains_twoPow w 30 (by decide)

theorem count_eq (w : SendStatusU c) : count w = w.toNat%2^(c.BITS-2) := by
  have hmask : (~~~all c).toNat = 2^(c.BITS-2)-1 := by cases c <;> decide
  rw [count, reservations, BitVec.toNat_and, hmask, Nat.and_two_pow_sub_one_eq_mod]

theorem reservations_eq_zero (w : SendStatusU c) : reservations w = 0 ↔ count w = 0 := by
  rw [count, ← BitVec.toNat_inj]
  simp

theorem reservations_pos (w : SendStatusU c) : 0 < reservations w ↔ count w ≠ 0 := by
  rw [count, BitVec.lt_def]
  simp [Nat.pos_iff_ne_zero]

theorem aborts_iff (w : SendStatusU .x86_64) : aborts .x86_64 w = true ↔ 2^61 < count w := by
  rw [aborts, decide_eq_true_iff, gt_iff_lt, BitVec.lt_def, ABORT_eq]
  rfl

def Carries (w : SendStatusU c) : Prop := c = .x86_64 ∧ count w+1 = 2^62

theorem attempt_spec {w : SendStatusU c} (hw : ¬ Carries w) :
    count (attempt c w) ≠ 0 ∧ count (attempt c w) ≤ count w+1 ∧
      dead (attempt c w) = dead w ∧ sleeping (attempt c w) = sleeping w := by
  cases c with
  | x86_64 =>
    have hlt := w.isLt
    have hcount := count_eq w
    have hne : count w+1 ≠ 2^62 := fun h => hw ⟨rfl,h⟩
    simp only [Target.BITS] at hlt hcount
    have hnat : (w+1).toNat = w.toNat+1 := by
      rw [BitVec.toNat_add]
      change (w.toNat+1)%2^64 = _
      omega
    have hbit (k : ℕ) (hk : k = 62 ∨ k = 63) : (w.toNat+1).testBit k = w.toNat.testBit k := by
      rw [Nat.testBit_eq_decide_div_mod_eq, Nat.testBit_eq_decide_div_mod_eq]
      rcases hk with rfl | rfl <;> congr 2 <;> omega
    have hadd : count (attempt .x86_64 w) = count w+1 := by
      rw [count_eq, attempt, hnat]
      simp only [Target.BITS]
      omega
    refine ⟨by omega,by omega,?_,?_⟩
    · rw [dead_eq, dead_eq, attempt, ← BitVec.testBit_toNat, ← BitVec.testBit_toNat, hnat]
      exact hbit 63 (.inr rfl)
    · rw [sleeping_eq, sleeping_eq, attempt, ← BitVec.testBit_toNat, ← BitVec.testBit_toNat, hnat]
      exact hbit 62 (.inl rfl)
  | portable =>
    have hnat : (attempt .portable w).toNat = 2*(w.toNat/2)+1 := by
      rw [attempt, BitVec.toNat_or, ← or_one]
      rfl
    have hcount : count (attempt .portable w) = 2*(count w/2)+1 := by
      rw [count_eq, count_eq, hnat]
      simp only [Target.BITS]
      omega
    have hone (k : ℕ) (hk : 0 < k) : (1 : SendStatusU .portable).getLsbD k = false := by
      change (1#32).getLsbD k = false
      rw [BitVec.getLsbD_one]
      simp
      omega
    refine ⟨by omega,by omega,?_,?_⟩
    · rw [dead_eq, dead_eq, attempt, BitVec.getLsbD_or, hone _ (by decide), Bool.or_false]
    · rw [sleeping_eq, sleeping_eq, attempt, BitVec.getLsbD_or, hone _ (by decide), Bool.or_false]

@[simp] theorem dead_or_SLEEPING (w : SendStatusU c) : dead (w ||| SLEEPING c) = dead w := by
  have h : (SLEEPING c).getLsbD (c.BITS-1) = false := by cases c <;> decide
  rw [dead_eq, dead_eq, BitVec.getLsbD_or, h, Bool.or_false]

@[simp] theorem sleeping_or_SLEEPING (w : SendStatusU c) : sleeping (w ||| SLEEPING c) = true := by
  have h : (SLEEPING c).getLsbD (c.BITS-2) = true := by cases c <;> decide
  rw [sleeping_eq, BitVec.getLsbD_or, h, Bool.or_true]

@[simp] theorem count_or_SLEEPING (w : SendStatusU c) : count (w ||| SLEEPING c) = count w := by
  have h : SLEEPING c &&& ~~~all c = 0#c.BITS := by cases c <;> decide
  rw [count, count, reservations, reservations, BitVec.and_or_distrib_right, h, BitVec.or_zero]

@[simp] theorem dead_zero (c : Target) : dead (c := c) 0#c.BITS = false := by cases c <;> decide
@[simp] theorem sleeping_zero (c : Target) : sleeping (c := c) 0#c.BITS = false := by
  cases c <;> decide
@[simp] theorem count_zero (c : Target) : count (c := c) 0#c.BITS = 0 := by cases c <;> decide
@[simp] theorem dead_RECEIVER_DEAD : dead (RECEIVER_DEAD c) = true := by cases c <;> decide
@[simp] theorem sleeping_RECEIVER_DEAD : sleeping (RECEIVER_DEAD c) = false := by cases c <;> decide
@[simp] theorem count_RECEIVER_DEAD : count (RECEIVER_DEAD c) = 0 := by cases c <;> decide

theorem futex_flags {a b : SendStatusU c} (h : futex c a = futex c b) :
    dead a = dead b ∧ sleeping a = sleeping b := by
  cases c with
  | x86_64 =>
    have hbit (k : ℕ) (hk : k < 32) : a.getLsbD (32+k) = b.getLsbD (32+k) := by
      have := congrArg (fun x => x.getLsbD k) h
      simpa [futex,hk] using this
    rw [dead_eq, dead_eq, sleeping_eq, sleeping_eq]
    exact ⟨hbit 31 (by decide),hbit 30 (by decide)⟩
  | portable =>
    have hab : a = b := h
    rw [hab]
    exact ⟨rfl,rfl⟩

end SendStatus

namespace RecvStatus

def COMMIT : BitVec 32 := 1
def SLEEPING : BitVec 32 := 2
def SENDER_DEAD : BitVec 32 := 4

def commit (w : BitVec 32) : Bool := contains w COMMIT
def sleeping (w : BitVec 32) : Bool := contains w SLEEPING
def dead (w : BitVec 32) : Bool := contains w SENDER_DEAD

theorem commit_eq (w : BitVec 32) : commit w = w.getLsbD 0 := contains_twoPow w 0 (by decide)
theorem dead_eq (w : BitVec 32) : dead w = w.getLsbD 2 := contains_twoPow w 2 (by decide)

@[simp] theorem commit_or (a b : BitVec 32) : commit (a ||| b) = (commit a || commit b) := by
  simp [commit_eq]
@[simp] theorem commit_and (a b : BitVec 32) : commit (a &&& b) = (commit a && commit b) := by
  simp [commit_eq]
@[simp] theorem dead_or (a b : BitVec 32) : dead (a ||| b) = (dead a || dead b) := by
  simp [dead_eq]
@[simp] theorem dead_and (a b : BitVec 32) : dead (a &&& b) = (dead a && dead b) := by
  simp [dead_eq]
@[simp] theorem commit_COMMIT : commit COMMIT = true := by decide
@[simp] theorem commit_SLEEPING : commit SLEEPING = false := by decide
@[simp] theorem commit_SENDER_DEAD : commit SENDER_DEAD = false := by decide
@[simp] theorem commit_zero : commit 0#32 = false := by decide
@[simp] theorem sleeping_SLEEPING : sleeping SLEEPING = true := by decide
@[simp] theorem dead_COMMIT : dead COMMIT = false := by decide
@[simp] theorem dead_SLEEPING : dead SLEEPING = false := by decide
@[simp] theorem dead_SENDER_DEAD : dead SENDER_DEAD = true := by decide
@[simp] theorem dead_zero : dead 0#32 = false := by decide

end RecvStatus
end Lockness.SlotWords
