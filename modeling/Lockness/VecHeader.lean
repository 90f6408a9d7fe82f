import Lockness.VecMachine

/-!
# The header and its block

A vec holds a header when the header's bytes lie at the start of a live block
with exactly the size and alignment that the header records. What the parts of
an operation do is stated from there on; no later module unfolds them.
-/

set_option autoImplicit false

namespace Lockness.VecHeader
open Lockness.VecLayout Lockness.VecHeap Lockness.VecMachine

variable {M Λ β O : Type}

section Runs

variable {α γ : Type} {x : VecM M Λ β α} {f : α → VecM M Λ β γ} {s s' : State M Λ β} {y : α}
  {e : Stop}

theorem bind_ok (h : x s = .ok y s') : (x >>= f) s = f y s' := by
  change EStateM.bind x f s = f y s'
  rw [EStateM.bind, h]

theorem bind_error (h : x s = .error e s') : (x >>= f) s = .error e s' := by
  change EStateM.bind x f s = .error e s'
  rw [EStateM.bind, h]

@[simp] theorem pure_run (y : α) (s : State M Λ β) : (pure y : VecM M Λ β α) s = .ok y s := rfl

@[simp] theorem throw_run (e : Stop) (s : State M Λ β) :
    (throw e : VecM M Λ β α) s = .error e s := rfl

@[simp] theorem bind_get (f : State M Λ β → VecM M Λ β γ) (s : State M Λ β) :
    (get >>= f) s = f s s := rfl

@[simp] theorem bind_modify (g : State M Λ β → State M Λ β) (f : PUnit → VecM M Λ β γ)
    (s : State M Λ β) : (modify g >>= f) s = f ⟨⟩ (g s) := rfl

@[simp] theorem bind_throw (e : Stop) (f : α → VecM M Λ β γ) (s : State M Λ β) :
    (throw e >>= f) s = .error e s := rfl

end Runs

variable {c : Target M β} {h h' : Header M} {s s' : State M Λ β} {T U : Layout}

/-- `debug_assert!(self.is_allocated())` passes. -/
def Asserts (c : Target M β) (T : Layout) (s : State M Λ β) : Prop :=
  c.debug_assertions = true → s.data ≠ dangling c T

instance (c : Target M β) (T : Layout) (s : State M Λ β) : Decidable (Asserts c T s) :=
  inferInstanceAs (Decidable (_ → _))

theorem bind_is_allocated {γ : Type} (f : Bool → VecM M Λ β γ) (s : State M Λ β) :
    (is_allocated c T >>= f) s = f (decide (s.data ≠ dangling c T)) s := rfl

theorem assert_run (c : Target M β) (T : Layout) (s : State M Λ β) :
    debug_assert c (decide (s.data ≠ dangling c T)) s =
      if Asserts c T s then .ok () s else .error (.panic .assertion) s := by
  rw [debug_assert]
  by_cases hd : c.debug_assertions = true <;> by_cases hs : s.data = dangling c T <;>
    simp [Asserts,hd,hs]

section Stores

/-- The bytes outside of the `n` from `i` on, and all else but the bytes, are as before. -/
structure Stored (s s' : State M Λ β) (i n : ℕ) : Prop where
  data : s'.data = s.data
  log : s'.log = s.log
  blocks : s'.heap.blocks = s.heap.blocks
  apart : ∀ k j, k+j ≤ i ∨ i+n ≤ k → s'.heap.load k j = s.heap.load k j
  untouched : ∀ b ∈ s.heap.blocks, b.Has i n → Untouched (s.heap.blocks.erase b) s.heap s'.heap

variable {b : Block} {i n align : ℕ} {l : List β}

theorem store_run (hb : b ∈ s.heap.blocks) (hi : b.Has i l.length) (ha : align ∣ i) :
    ∃ s', store i align l s = .ok () s' ∧ Stored s s' i l.length ∧
      s'.heap.load i l.length = some l := by
  obtain ⟨m,hm⟩ := store_covers (l := l) ⟨b,hb,hi⟩
  refine ⟨{ s with heap := m },?_,⟨rfl,rfl,(store_some hm).1,?_,?_⟩,load_store hm⟩
  · rw [store, bind_get]
    simp only [hm, if_pos ha]
    rfl
  · exact fun k j hk => load_store_apart hm hk
  · exact fun b' hb' hi' => untouched_store hb' hi' hm

theorem load_run (hl : s.heap.load i n = some l) (ha : align ∣ i) :
    load i n align s = .ok l s := by
  rw [load, bind_get]
  simp only [hl, if_pos ha, pure_run]

end Stores

def own (h : Header M) (s : State M Λ β) : Block := ⟨s.data,h.capacity,h.alignment⟩

def others (h : Header M) (s : State M Λ β) : List Block := s.heap.blocks.erase (own h s)

structure Headed (c : Target M β) (h : Header M) (s : State M Λ β) : Prop where
  load : s.heap.load s.data c.header.size = some (c.encode h)
  align : c.header.align ∣ s.data
  fits : h.Fits c.BITS

structure Held (c : Target M β) (h : Header M) (s : State M Λ β) : Prop extends
    Headed c h s where
  block : own h s ∈ s.heap.blocks
  aligned : h.alignment ∣ s.data
  legal : Legal c h.capacity h.alignment
  room : c.header.size ≤ h.capacity

theorem read_header_run (hh : Headed c h s) : read_header c s = .ok h s := by
  rw [read_header, bind_get, bind_ok (load_run hh.load hh.align)]
  simp only [c.decode_encode h hh.fits, pure_run]

theorem from_ref_run (hh : Headed c h s) (T : Layout) :
    from_ref c T s = if Asserts c T s then .ok h s else .error (.panic .assertion) s := by
  rw [from_ref, bind_is_allocated]
  have ha := assert_run c T s
  split at ha
  · rw [bind_ok ha, read_header_run hh, if_pos ‹_›]
  · rw [bind_error ha, if_neg ‹_›]

theorem len_run (hh : Headed c h s) (T : Layout) :
    len c T s = if Asserts c T s then .ok h.len s else .error (.panic .assertion) s := by
  rw [len, bind_is_allocated]
  have ha := assert_run c T s
  have hr := from_ref_run hh T
  split at ha
  · rw [if_pos ‹_›] at hr ⊢
    rw [bind_ok ha, bind_ok hr, pure_run]
  · rw [bind_error ha, if_neg ‹_›]

theorem capacity_bytes_run (hh : Headed c h s) (T : Layout) :
    capacity_bytes c T s =
      if Asserts c T s then .ok h.capacity s else .error (.panic .assertion) s := by
  rw [capacity_bytes, bind_is_allocated]
  have ha := assert_run c T s
  have hr := from_ref_run hh T
  split at ha
  · rw [if_pos ‹_›] at hr ⊢
    rw [bind_ok ha, bind_ok hr, pure_run]
  · rw [bind_error ha, if_neg ‹_›]

theorem own_has {k n : ℕ} (hk : k+n ≤ h.capacity) :
    (own h s).Has (s.data+k) n := ⟨Nat.le_add_right _ _,by simp only [own]; omega⟩

theorem Held.stored (hh : Held c h s) {i n : ℕ} (hs : Stored s s' i n)
    (hi : s.data+c.header.size ≤ i) : Held c h s' where
  load := by rw [hs.data, hs.apart _ _ (.inl hi), hh.load]
  align := hs.data ▸ hh.align
  fits := hh.fits
  block := by
    rw [hs.blocks, own, hs.data]
    exact hh.block
  aligned := hs.data ▸ hh.aligned
  legal := hh.legal
  room := hh.room

theorem Held.relog (hh : Held c h s) (l : List (Effect M Λ)) : Held c h { s with log := l } where
  load := hh.load
  align := hh.align
  fits := hh.fits
  block := hh.block
  aligned := hh.aligned
  legal := hh.legal
  room := hh.room

theorem Stored.others {i n : ℕ} (hs : Stored s s' i n) : others h s' = others h s := by
  rw [VecHeader.others, own, hs.data, hs.blocks]
  rfl

theorem write_header_at {b : Block} (hb : b ∈ s.heap.blocks) (hi : b.Has s.data c.header.size)
    (ha : c.header.align ∣ s.data) (h' : Header M) :
    ∃ s', write_header c h' s = .ok () s' ∧ Stored s s' s.data c.header.size ∧
      s'.heap.load s.data c.header.size = some (c.encode h') := by
  have hl := c.encode_length h'
  obtain ⟨s',hs,hst,hload⟩ := store_run hb (hl.symm ▸ hi) ha
  rw [hl] at hst hload
  refine ⟨s',?_,hst,hload⟩
  rw [write_header, bind_get]
  exact hs

theorem write_header_run (hh : Held c h s) (h' : Header M) :
    ∃ s', write_header c h' s = .ok () s' ∧ Stored s s' s.data c.header.size ∧
      s'.heap.load s.data c.header.size = some (c.encode h') :=
  write_header_at hh.block (own_has (k := 0) (by rw [Nat.zero_add]; exact hh.room)) hh.align h'

theorem Held.written (hh : Held c h s) (hs : Stored s s' s.data c.header.size)
    (hl : s'.heap.load s.data c.header.size = some (c.encode h')) (hf : h'.Fits c.BITS)
    (hcap : h'.capacity = h.capacity) (halign : h'.alignment = h.alignment) : Held c h' s' where
  load := hs.data ▸ hl
  align := hs.data ▸ hh.align
  fits := hf
  block := by
    rw [hs.blocks, own, hs.data, hcap, halign]
    exact hh.block
  aligned := by
    rw [hs.data, halign]
    exact hh.aligned
  legal := by
    rw [hcap, halign]
    exact hh.legal
  room := hcap ▸ hh.room

theorem legal_lt {size align : ℕ} (ha : 0 < align) (hl : Legal c size align) : size < 2^c.BITS := by
  have h1 := le_next_multiple_of size ha
  have h2 := hl.2
  have h3 : 2^(c.BITS-1) ≤ 2^c.BITS := Nat.pow_le_pow_right (by decide) (Nat.sub_le _ _)
  have h4 := Nat.two_pow_pos (c.BITS-1)
  simp only [isize_MAX] at h2
  omega

end Lockness.VecHeader
