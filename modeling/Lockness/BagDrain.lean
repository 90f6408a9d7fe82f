import Lockness.BagMasks

/-!
# The loop of `drain_mask`

Sender, receiver and `Inner::drop` find their slots by one loop. Each round takes
the next slot from the leading zeros of the mask, hands it to a closure and
clears its bit. The closure is any action, which may keep a state or panic, and
the arithmetic is that of a build with or without overflow checks. In a bag of up
to 32 slots nothing overflows, and the closure meets the slots that are set in
their order.
-/

set_option autoImplicit false

namespace Lockness.BagDrain
open Lockness.WordBits Lockness.BagMasks

/-- `a - b` on `u32`; `none` is the panic of a build that checks overflow. -/
def sub (overflow_checks : Bool) (a b : Word) : Option Word :=
  if overflow_checks = true ∧ a < b then none else some (a-b)

/-- `a << b` on `u32`, which shifts by `b` modulo 32 where overflow is not checked. -/
def shl (overflow_checks : Bool) (a b : Word) : Option Word :=
  if overflow_checks = true ∧ 32 ≤ b then none else some (a <<< (b &&& 31))

/-- `mask & !(1 << (u32::BITS - i - 1))` -/
def without (overflow_checks : Bool) (mask i : Word) : Option Word := do
  let k ← sub overflow_checks 32 i
  let k ← sub overflow_checks k 1
  let bit ← shl overflow_checks 1 k
  return mask &&& ~~~bit

inductive Ending where
  | returned
  | overflow
  | running
  deriving DecidableEq

section Loop

variable {m : Type → Type*} [Monad m] {N : ℕ} {T : Type}

/-- The loop of `drain_mask` for a number of rounds, with the call `bag.do_(&mut f, i)`
as `do_`. -/
def drain_loop (overflow_checks : Bool) (do_ : Fin N → m Unit) : ℕ → Word → m Ending
  | 0, _ => return .running
  | rounds+1, mask =>
    let i := mask.clz
    if h : i.toNat < N then do
      do_ ⟨i.toNat,h⟩
      match without overflow_checks mask i with
      | none => return .overflow
      | some mask => drain_loop overflow_checks do_ rounds mask
    else return .returned

/-- `DrainMaskBuf::do_` for `&[CachePadded<T>; N]` -/
def do_ref (bag : Fin N → T) (f : T → m Unit) (i : Fin N) : m Unit := f (bag i)

/-- `DrainMaskBuf::do_` for `&mut [CachePadded<T>; N]` -/
def do_mut (f : T → m T) (i : Fin N) : StateT (Fin N → T) m Unit := do
  let bag ← get
  let slot ← f (bag i)
  set (Function.update bag i slot)

end Loop

section Arithmetic

variable {c : Bool} {a b : Word}

theorem sub_some (h : b ≤ a) : sub c a b = some (a-b) := by
  rw [sub, if_neg (fun hlt => absurd hlt.2 (BitVec.not_lt.mpr h))]

theorem shl_some (h : b < 32) : shl c a b = some (a <<< b.toNat) := by
  have hmod : (b &&& 31).toNat = b.toNat := by
    rw [BitVec.toNat_and]
    exact (Nat.and_two_pow_sub_one_eq_mod b.toNat 5).trans (Nat.mod_eq_of_lt h)
  rw [shl, if_neg (fun hle => absurd h (BitVec.not_lt.mpr hle.2)), BitVec.shiftLeft_eq', hmod]

theorem without_some (c : Bool) {mask : Word} (hi : leading_zeros mask < 32) :
    without c mask mask.clz = some (mask &&& ~~~((1:Word) <<< (32-leading_zeros mask-1))) := by
  have h1 : mask.clz ≤ 32 := BitVec.le_def.mpr hi.le
  have h2 : (32-mask.clz).toNat = 32-leading_zeros mask := BitVec.toNat_sub_of_le h1
  have h3 : (1:Word) ≤ 32-mask.clz := by
    rw [BitVec.le_def, h2]
    exact Nat.le_sub_of_add_le (by change 1+_ ≤ 32; omega)
  have h4 : (32-mask.clz-1).toNat = 32-leading_zeros mask-1 := by
    rw [BitVec.toNat_sub_of_le h3, h2]
    rfl
  have h5 : 32-mask.clz-1 < 32 := by
    rw [BitVec.lt_def, h4]
    change _ < 32
    omega
  rw [without, sub_some h1]
  simp only [Option.bind_eq_bind, Option.bind_some, sub_some h3, shl_some h5, h4]
  rfl

end Arithmetic

section Run

variable {m : Type → Type*} [Monad m] [LawfulMonad m] {N : ℕ} {T : Type}

theorem drain_loop_eq (hN : N ≤ 32) (overflow_checks : Bool) (do_ : Fin N → m Unit)
    (rounds : ℕ) (mask : Word) : drain_loop overflow_checks do_ rounds mask = do
      forM ((visited N mask).take rounds) do_
      return (if (visited N mask).length < rounds then .returned else .running) := by
  induction rounds generalizing mask with
  | zero => simp [drain_loop]
  | succ rounds ih =>
    rw [drain_loop]
    cases hd : drain_next N mask with
    | none =>
      have hv := visited_nil hN hd
      simp only [drain_next, dite_eq_right_iff, reduceCtorEq, imp_false] at hd
      have hle : ¬ mask.clz.toNat < N := hd
      simp [hle,hv]
    | some r =>
      obtain ⟨i,mask'⟩ := r
      have hv := visited_cons hN hd
      simp only [drain_next, Option.dite_none_right_eq_some, Option.some.injEq, Prod.mk.injEq] at hd
      obtain ⟨hi,rfl,rfl⟩ := hd
      have hlt : mask.clz.toNat < N := hi
      simp only [dif_pos hlt, without_some overflow_checks (hi.trans_le hN), ih, hv,
        List.take_succ_cons, List.forM_cons, List.length_cons, Nat.succ_lt_succ_iff, bind_assoc]
      rfl

theorem drain_loop_ends (hN : N ≤ 32) (overflow_checks : Bool) (do_ : Fin N → m Unit)
    {rounds : ℕ} (hr : N < rounds) (mask : Word) : drain_loop overflow_checks do_ rounds mask = do
      forM (visited N mask) do_
      return .returned := by
  have hlt := (visited_length_le N mask).trans_lt hr
  rw [drain_loop_eq hN, List.take_of_length_le hlt.le, if_pos hlt]

theorem drain_loop_drain_mask (hN : N ≤ 32) (overflow_checks : Bool) (do_ : Fin N → m Unit)
    {rounds : ℕ} (hr : N < rounds) (mask : Word) : drain_loop overflow_checks do_ rounds mask = do
      forM (drain_mask N mask) do_
      return .returned := by
  rw [drain_mask_eq hN, drain_loop_ends hN overflow_checks do_ hr]

/-- The loop ends after one round for each visit and one more, in either build and whatever the
closure does. It visits each slot that is set once, in increasing order, and does not depend on
the bits that belong to no slot. -/
theorem drain_mask_visits (hN : N ≤ 32) (overflow_checks : Bool) (do_ : Fin N → m Unit)
    (mask : Word) :
    (∀ rounds, drain_loop overflow_checks do_ rounds mask = do
      forM ((visited N mask).take rounds) do_
      return (if (visited N mask).length < rounds then .returned else .running)) ∧
    (∀ rounds, N < rounds → drain_loop overflow_checks do_ rounds mask = do
      forM (visited N mask) do_
      return .returned) ∧
    (visited N mask).Pairwise (·<·) ∧
    (∀ i, i ∈ visited N mask ↔ mask.getLsbD (31-i) = true) ∧
    ∀ mask', (∀ i : Fin N, mask'.getLsbD (31-i) = mask.getLsbD (31-i)) → ∀ rounds,
      drain_loop overflow_checks do_ rounds mask' = drain_loop overflow_checks do_ rounds mask := by
  refine ⟨fun rounds => drain_loop_eq hN overflow_checks do_ rounds mask,
    fun rounds hr => drain_loop_ends hN overflow_checks do_ hr mask,visited_pairwise N mask,
    fun i => mem_visited,fun mask' hbits rounds => ?_⟩
  have hv : visited N mask' = visited N mask := by simp only [visited, hbits]
  rw [drain_loop_eq hN, drain_loop_eq hN, hv]

theorem drain_mask_visits_two : ((drain_loop true (fun i => modify (·++[i])) 31
    0xC0000001#32 : StateM (List (Fin 30)) Ending).run []) = (.returned,[0,1]) := by
  rw [(drain_mask_visits (by decide) true _ _).2.1 31 (by decide)]
  rfl

end Run

section Bag

variable {m : Type → Type*} [Monad m] [LawfulMonad m] {N : ℕ} {T : Type}

/-- `drain_mask` of a shared bag calls its closure on the slots that are set. -/
theorem drain_loop_ref (hN : N ≤ 32) (overflow_checks : Bool) (bag : Fin N → T) (f : T → m Unit)
    {rounds : ℕ} (hr : N < rounds) (mask : Word) :
    drain_loop overflow_checks (do_ref bag f) rounds mask = do
      forM ((visited N mask).map bag) f
      return .returned := by
  rw [drain_loop_ends hN overflow_checks _ hr, List.forM_map]
  rfl

theorem forM_do_mut (f : T → T) {l : List (Fin N)} (hl : l.Nodup) (bag : Fin N → T) :
    (forM l (do_mut (m := Id) f)).run bag =
      ((),fun i => if i ∈ l then f (bag i) else bag i) := by
  induction l generalizing bag with
  | nil => rfl
  | cons i l ih =>
    obtain ⟨hi,hl⟩ := List.nodup_cons.mp hl
    have hone : (do_mut (m := Id) f i).run bag = ((),Function.update bag i (f (bag i))) := rfl
    rw [List.forM_cons, StateT.run_bind, hone]
    refine (ih hl _).trans (congrArg (Prod.mk ()) (funext fun j => ?_))
    by_cases hj : j = i
    · subst hj
      simp [hi]
    · simp [hj]

/-- `drain_mask` of an exclusive bag changes the slots that are set and no others. -/
theorem drain_loop_mut (hN : N ≤ 32) (overflow_checks : Bool) (f : T → T) {rounds : ℕ}
    (hr : N < rounds) (mask : Word) (bag : Fin N → T) :
    (drain_loop overflow_checks (do_mut (m := Id) f) rounds mask).run bag =
      (.returned,fun i => if i ∈ slots mask then f (bag i) else bag i) := by
  have hrun := forM_do_mut f (visited_pairwise N mask).nodup bag
  simp only [mem_visited_slots hN] at hrun
  rw [drain_loop_ends hN overflow_checks _ hr, StateT.run_bind, hrun]
  rfl

end Bag

end Lockness.BagDrain
