import Lockness.VecCalls

/-!
# The capacity after `init`

`init` asks `reserve` for the bytes that the capacity lacks. `reserve` adds them
to the bytes in use, which after a change of the elements are those of the
header alone, and returns at once if the sum fits the old block. So a block that
is kept reaches the minimum only if doubling it does, or if it held no more than
a header.
-/

set_option autoImplicit false

namespace Lockness.VecRegrowth
open Lockness.PoolRuns Lockness.VecLayout Lockness.VecHeap Lockness.VecMachine Lockness.VecHeader
open Lockness.VecGrowth Lockness.VecElements Lockness.VecLife Lockness.VecRoom Lockness.VecStack
open Lockness.VecCalls

variable {M Λ β : Type}

def quota (T : Layout) : ℕ := if T.size = 1 then 8 else if T.size ≤ 1024 then 4 else 1

def pushes (c : Target M β) (a : Allocator β) (T : Layout) : List (List β) → VecM M Λ β Unit
  | [] => pure ()
  | x::xs => do
    push c a T x
    pushes c a T xs

/-- The vec has the minimum capacity, and room for as many pushes without a reallocation. -/
structure Restored (c : Target M β) (T : Layout) (s : State M Λ β) : Prop where
  capacity : ∃ h, header_of c s = some h ∧ MIN_NON_ZERO_CAP c T ≤ h.capacity
  pushes : ∀ a xs, xs.length ≤ quota T → xs.length < 2^c.BITS → (∀ x ∈ xs, x.length = T.size) →
    Asserts c T s → ∃ s' h h', pushes c a T xs s = .ok () s' ∧ s'.data = s.data ∧
      header_of c s = some h ∧ header_of c s' = some h' ∧ h'.capacity = h.capacity

/-- No block is kept, or the one that is kept is large enough or so small that it grows far
enough. -/
def Restores (c : Target M β) (a : Allocator β) (T : Layout) (h : Header M) (s : State M Λ β) :
    Prop :=
  s.data = dangling c T ∨ h.alignment ≠ (header_space c T).align ∨
  MIN_NON_ZERO_CAP c T ≤ h.capacity ∨ h.capacity ≤ (header_space c T).size ∨
  2*h.capacity < (header_space c T).size+MIN_NON_ZERO_CAP c T ∧
    (MIN_NON_ZERO_CAP c T ≤ 2*h.capacity ∨
      a.realloc s.heap (own h s) (max (2*h.capacity)
        ((header_space c T).size+(MIN_NON_ZERO_CAP c T-h.capacity))) = dangling c T)

variable {c : Target M β} {P : Allocator β → Prop} {a : Allocator β} {T U : Layout}
  {h : Header M} {s s' : State M Λ β} {m : M}

theorem min_eq (c : Target M β) (T : Layout) :
    MIN_NON_ZERO_CAP c T = quota T*T.size+(header_space c T).size := rfl

theorem pushes_fit {xs : List (List β)} (hr : Roomy c T h s) (has : Asserts c T s)
    (hx : ∀ x ∈ xs, x.length = T.size)
    (hroom : (header_space c T).size+(h.len+xs.length)*T.size ≤ h.capacity)
    (hlen : h.len+xs.length < 2^c.BITS) :
    ∃ s' h', pushes c a T xs s = .ok () s' ∧ s'.data = s.data ∧ Roomy c T h' s' ∧
      h'.capacity = h.capacity := by
  induction xs generalizing s h with
  | nil => exact ⟨s,h,rfl,rfl,hr,rfl⟩
  | cons x xs ih =>
    rw [List.length_cons] at hroom hlen
    have hone : (h.len+1)*T.size ≤ (h.len+(xs.length+1))*T.size :=
      Nat.mul_le_mul_right _ (by omega)
    obtain ⟨s₁,hp,hd,hr₁⟩ :=
      push_fits (a := a) hr has (hx x List.mem_cons_self) (by omega) (by omega)
    have hcomm : h.len+1+xs.length = h.len+(xs.length+1) := by omega
    obtain ⟨s₂,h₂,hps,hd₂,hr₂,hcap⟩ := ih hr₁ (fun h0 => hd ▸ has h0)
      (fun y hy => hx y (List.mem_cons_of_mem x hy)) (by simpa only [hcomm] using hroom)
      (by simpa only [hcomm] using hlen)
    refine ⟨s₂,h₂,?_,hd₂.trans hd,hr₂,hcap⟩
    rw [pushes, bind_ok hp]
    exact hps

theorem restored_of_capacity (hr : Roomy c T h s) (h0 : h.len = 0) :
    Restored c T s ↔ MIN_NON_ZERO_CAP c T ≤ h.capacity := by
  have hh := header_of_held hr.held
  constructor
  · rintro ⟨⟨h',hh',hle⟩,-⟩
    rw [hh] at hh'
    cases hh'
    exact hle
  · intro hle
    refine ⟨⟨h,hh,hle⟩,fun a xs hxs hlt hx has => ?_⟩
    have hmul : xs.length*T.size ≤ quota T*T.size := Nat.mul_le_mul_right _ hxs
    rw [min_eq] at hle
    obtain ⟨s',h',hp,hd,hr',hcap⟩ := pushes_fit (a := a) hr has hx
      (by rw [h0, Nat.zero_add]; omega) (by rwa [h0, Nat.zero_add])
    exact ⟨s',h,h',hp,hd,hh,header_of_held hr'.held,hcap⟩

theorem min_le_init_capacity (hr : Roomy c U h s) (h0 : h.len = 0) :
    MIN_NON_ZERO_CAP c T ≤ init_capacity c a T h s ↔ Restores c a T h s := by
  have hbound : 2*h.capacity < 2^c.BITS :=
    legal_twice (hr.alignment ▸ (header_space c U).align_pos) hr.held.legal
  have hsat : saturating_mul c h.capacity 2 = 2*h.capacity := by
    rw [saturating_mul, usize_MAX, Nat.mul_comm]
    exact min_eq_left (by omega)
  have hreq (n : ℕ) : required_cap c T h n = (header_space c T).size+n := by
    rw [required_cap, h0, Nat.zero_mul, Nat.zero_add]
  have hmin := min_le c T
  rw [init_capacity, Restores]
  simp only [new_capacity, hsat, hreq]
  split_ifs <;> omega

/-- `init` of an empty vec leaves room for the first elements of the new type in just these
cases. -/
theorem init_restores_minimum (hs : Reached c P U s) (hh : header_of c s = some h)
    (h0 : h.len = 0) (ht : Compiles c T) (hi : init c a T m s = .ok () s') :
    Restored c T s' ↔ Restores c a T h s := by
  obtain ⟨h',hr⟩ := roomy_of_reached hs
  rw [header_of_held hr.held, Option.some.injEq] at hh
  subst hh
  rw [restored_of_capacity (init_returns ht hr (.inr h0) hi) rfl]
  exact min_le_init_capacity hr h0

section Sample

/-- A block of 36 bytes doubles for elements of eight. -/
theorem init_restores_minimum_again : ∃ s s' : State ℕ Unit (Header ℕ ⊕ ℕ),
    Reached (sample ℕ true) (fun _ => True) triple s ∧
    init (sample ℕ true) (shelf ℕ) long 6 s = .ok () s' ∧
    (∃ h, header_of (sample ℕ true) s' = some h ∧ h.capacity = 72) ∧
    Restored (sample ℕ true) long s' := by
  obtain ⟨s,s',hs,hh,hi,hh'⟩ : ∃ s s' : State ℕ Unit (Header ℕ ⊕ ℕ),
      Reached (sample ℕ true) (fun _ => True) triple s ∧
      header_of (sample ℕ true) s = some ⟨5,3,8,0,36⟩ ∧
      init (sample ℕ true) (shelf ℕ) long 6 s = .ok () s' ∧
      ∃ h, header_of (sample ℕ true) s' = some h ∧ h.capacity = 72 :=
    ⟨_,_,.new (s := ⟨blank ℕ,0,[]⟩) (a := shelf ℕ) (m := 5) trivial (by decide) rfl,
      rfl,rfl,_,rfl,rfl⟩
  have hgrows : Restores (sample ℕ true) (shelf ℕ) long ⟨5,3,8,0,36⟩ s :=
    .inr (.inr (.inr (.inr ⟨by decide,.inl (by decide)⟩)))
  exact ⟨s,s',hs,hi,hh',(init_restores_minimum hs hh rfl (by decide) hi).mpr hgrows⟩

/-- A block of 40 bytes, enough for four elements of four, is kept for elements of eight, though
four of these need 56. -/
theorem init_keeps_too_little : ∃ s s' : State ℕ Unit (Header ℕ ⊕ ℕ),
    Reached (sample ℕ true) (fun _ => True) (int 2 (by decide)) s ∧
    (∃ h, header_of (sample ℕ true) s = some h ∧ h.len = 0) ∧
    Compiles (sample ℕ true) long ∧
    init (sample ℕ true) (shelf ℕ) long 6 s = .ok () s' ∧
    (∃ h, header_of (sample ℕ true) s' = some h ∧ h.capacity = 40) ∧
    MIN_NON_ZERO_CAP (sample ℕ true) long = 56 ∧
    ¬ Restored (sample ℕ true) long s' := by
  refine ⟨_,_,.new (s := ⟨blank ℕ,0,[]⟩) (a := shelf ℕ) (m := 5) trivial (by decide) rfl,
    ⟨_,rfl,rfl⟩,by decide,rfl,⟨_,rfl,rfl⟩,by decide,?_⟩
  rintro ⟨⟨h,hh,hle⟩,-⟩
  cases hh
  exact absurd hle (by decide)

end Sample

end Lockness.VecRegrowth
