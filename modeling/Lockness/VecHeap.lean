import Mathlib.Data.List.Basic
import Mathlib.Data.List.Pairwise
import Lockness.VecLayout

/-!
# Memory with an allocator

Live blocks never overlap, which the heap carries as a field. Bytes are of any
type, so that one may be uninitialised or carry provenance. An access names
bytes of one live block. An allocator is any pair of functions that answer with
addresses the heap has room at; `0` is the answer of one that has run out of
memory.
-/

set_option autoImplicit false

namespace Lockness.VecHeap

structure Block where
  addr : ℕ
  size : ℕ
  align : ℕ
  deriving DecidableEq

def Block.Has (b : Block) (i n : ℕ) : Prop := b.addr ≤ i ∧ i+n ≤ b.addr+b.size

instance (b : Block) (i n : ℕ) : Decidable (b.Has i n) := inferInstanceAs (Decidable (_ ∧ _))

def Apart (b b' : Block) : Prop := b.addr+b.size ≤ b'.addr ∨ b'.addr+b'.size ≤ b.addr

structure Heap (β : Type*) where
  blocks : List Block
  bytes : ℕ → β
  apart : blocks.Pairwise Apart

/-- A block of this size and alignment can be put among the given ones. -/
def Fresh (bs : List Block) (b : Block) : Prop := b.align ∣ b.addr ∧ ∀ b' ∈ bs, Apart b b'

variable {β : Type*}

section Access

theorem apart_comm {b b' : Block} (h : Apart b b') : Apart b' b := h.symm

def Heap.peek (m : Heap β) (i n : ℕ) : List β := (List.range n).map (fun j => m.bytes (i+j))

def Heap.Covers (m : Heap β) (i n : ℕ) : Prop := ∃ b ∈ m.blocks, b.Has i n

instance (m : Heap β) (i n : ℕ) : Decidable (m.Covers i n) :=
  inferInstanceAs (Decidable (∃ b ∈ m.blocks, b.Has i n))

def Heap.load (m : Heap β) (i n : ℕ) : Option (List β) :=
  if m.Covers i n then some (m.peek i n) else none

def Heap.store (m : Heap β) (i : ℕ) (l : List β) : Option (Heap β) :=
  if m.Covers i l.length then
    some { m with bytes := fun j => if i ≤ j then (l[j-i]?).getD (m.bytes j) else m.bytes j }
  else none

variable {m m' : Heap β} {i j n k : ℕ} {l : List β}

@[simp] theorem peek_length (m : Heap β) (i n : ℕ) : (m.peek i n).length = n := by
  simp [Heap.peek]

theorem load_covers (h : m.Covers i n) : m.load i n = some (m.peek i n) := if_pos h

theorem load_some (h : m.load i n = some l) : m.Covers i n ∧ l = m.peek i n := by
  rw [Heap.load] at h
  split at h
  · exact ⟨‹_›,(Option.some.inj h).symm⟩
  · cases h

theorem peek_congr (h : ∀ j < n, m'.bytes (k+j) = m.bytes (i+j)) : m'.peek k n = m.peek i n :=
  List.map_congr_left (fun j hj => h j (List.mem_range.mp hj))

theorem store_covers (h : m.Covers i l.length) : ∃ m', m.store i l = some m' := ⟨_,if_pos h⟩

theorem store_some (h : m.store i l = some m') : m'.blocks = m.blocks ∧
    (∀ j, i ≤ j → j < i+l.length → some (m'.bytes j) = l[j-i]?) ∧
    ∀ j, j < i ∨ i+l.length ≤ j → m'.bytes j = m.bytes j := by
  rw [Heap.store] at h
  split at h
  · obtain rfl := Option.some.inj h
    refine ⟨rfl,fun j h1 h2 => ?_,fun j hj => ?_⟩
    · have hlt : j-i < l.length := by omega
      simp only [if_pos h1, List.getElem?_eq_getElem hlt, Option.getD_some]
    · rcases hj with hj | hj
      · exact if_neg (by omega)
      · have hle : l.length ≤ j-i := by omega
        simp only [if_pos (show i ≤ j by omega), List.getElem?_eq_none hle, Option.getD_none]
  · cases h

theorem covers_congr (h : m'.blocks = m.blocks) : m'.Covers i n ↔ m.Covers i n := by
  rw [Heap.Covers, Heap.Covers, h]

theorem load_store (h : m.store i l = some m') : m'.load i l.length = some l := by
  obtain ⟨hb,hin,-⟩ := store_some h
  have hc : m'.Covers i l.length := by
    rw [covers_congr hb]
    by_contra hn
    rw [Heap.store, if_neg hn] at h
    cases h
  rw [load_covers hc, Option.some.injEq]
  apply List.ext_getElem?
  intro j
  by_cases hj : j < l.length
  · have := hin (i+j) (by omega) (by omega)
    simp only [Nat.add_sub_cancel_left] at this
    rw [← this]
    simp [Heap.peek,hj]
  · rw [List.getElem?_eq_none (by simp; omega), List.getElem?_eq_none (by omega)]

theorem load_store_apart (h : m.store i l = some m') (hk : k+n ≤ i ∨ i+l.length ≤ k) :
    m'.load k n = m.load k n := by
  obtain ⟨hb,-,hout⟩ := store_some h
  have hp : m'.peek k n = m.peek k n := peek_congr (fun j hj => hout _ (by omega))
  simp only [Heap.load, covers_congr hb, hp]

end Access

section Blocks

/-- A new block; `fill` is what its bytes happen to be. -/
def Heap.insert (m : Heap β) (b : Block) (h : Fresh m.blocks b) (fill : ℕ → β) : Heap β where
  blocks := b :: m.blocks
  bytes := fun j => if b.Has j 1 then fill j else m.bytes j
  apart := List.pairwise_cons.mpr ⟨h.2,m.apart⟩

def Heap.remove (m : Heap β) (b : Block) : Heap β where
  blocks := m.blocks.erase b
  bytes := m.bytes
  apart := m.apart.sublist List.erase_sublist

/-- The block `b` moved to `b'`, with as many of its bytes as fit. -/
def Heap.move (m : Heap β) (b b' : Block) (h : Fresh (m.blocks.erase b) b') (fill : ℕ → β) :
    Heap β where
  blocks := b' :: m.blocks.erase b
  bytes := fun j => if b'.Has j 1 then
      if j-b'.addr < b.size then m.bytes (b.addr+(j-b'.addr)) else fill j
    else m.bytes j
  apart := List.pairwise_cons.mpr ⟨h.2,m.apart.sublist List.erase_sublist⟩

def Untouched (bs : List Block) (m m' : Heap β) : Prop :=
  ∀ b ∈ bs, ∀ j, b.Has j 1 → m'.bytes j = m.bytes j

variable {m m' m'' : Heap β} {b b' : Block} {i n : ℕ} {fill : ℕ → β} {bs : List Block}

theorem Untouched.refl (bs : List Block) (m : Heap β) : Untouched bs m m := fun _ _ _ _ => rfl

theorem Untouched.trans (h : Untouched bs m m') (h' : Untouched bs m' m'') : Untouched bs m m'' :=
  fun b hb j hj => (h' b hb j hj).trans (h b hb j hj)

theorem Untouched.mono {cs : List Block} (h : Untouched bs m m') (hsub : ∀ b ∈ cs, b ∈ bs) :
    Untouched cs m m' := fun b hb => h b (hsub b hb)

theorem apart_not_has (h : Apart b b') {j : ℕ} (hj : b'.Has j 1) : ¬ b.Has j 1 := by
  rintro ⟨h1,h2⟩
  obtain ⟨h3,h4⟩ := hj
  rcases h with h | h <;> omega

theorem untouched_insert (h : Fresh m.blocks b) : Untouched m.blocks m (m.insert b h fill) :=
  fun _ hb _ hj => if_neg (apart_not_has (h.2 _ hb) hj)

theorem untouched_move (h : Fresh (m.blocks.erase b) b') :
    Untouched (m.blocks.erase b) m (m.move b b' h fill) :=
  fun _ hb _ hj => if_neg (apart_not_has (h.2 _ hb) hj)

theorem untouched_store {l : List β} (hb : b ∈ m.blocks) (hi : b.Has i l.length)
    (h : m.store i l = some m') : Untouched (m.blocks.erase b) m m' := by
  obtain ⟨-,-,hout⟩ := store_some h
  intro b' hb' j hj
  have hap : Apart b b' := by
    have hperm := m.apart.perm (List.perm_cons_erase hb) (fun h => apart_comm h)
    exact (List.pairwise_cons.mp hperm).1 b' hb'
  apply hout
  obtain ⟨h1,h2⟩ := hi
  obtain ⟨h3,h4⟩ := hj
  rcases hap with h | h <;> omega

theorem load_move (h : Fresh (m.blocks.erase b) b') (hb : b ∈ m.blocks) (hn : i+n ≤ b.size)
    (hn' : i+n ≤ b'.size) : (m.move b b' h fill).load (b'.addr+i) n = m.load (b.addr+i) n := by
  have h1 : (m.move b b' h fill).Covers (b'.addr+i) n :=
    ⟨b',List.mem_cons_self,⟨by omega,by omega⟩⟩
  have h2 : m.Covers (b.addr+i) n := ⟨b,hb,⟨by omega,by omega⟩⟩
  rw [load_covers h1, load_covers h2]
  congr 1
  apply peek_congr
  intro j hj
  have hin : b'.Has (b'.addr+(i+j)) 1 := ⟨by omega,by omega⟩
  have hoff : b'.addr+(i+j)-b'.addr = i+j := by omega
  rw [Nat.add_assoc, Nat.add_assoc]
  simp only [Heap.move, if_pos hin, hoff, if_pos (show i+j < b.size by omega)]

end Blocks

/-- Code outside: it may answer differently at every call. -/
structure Allocator (β : Type*) where
  alloc : Heap β → ℕ → ℕ → ℕ
  realloc : Heap β → Block → ℕ → ℕ
  fill : ℕ → β
  alloc_fresh : ∀ (m : Heap β) (size align : ℕ), alloc m size align ≠ 0 →
    Fresh m.blocks ⟨alloc m size align,size,align⟩
  realloc_fresh : ∀ (m : Heap β) (b : Block) (size : ℕ), realloc m b size ≠ 0 →
    Fresh (m.blocks.erase b) ⟨realloc m b size,size,b.align⟩

def Allocator.Hands (a : Allocator β) (ptr : ℕ) : Prop :=
  (∃ m size align, ptr = a.alloc m size align) ∨ ∃ m b size, ptr = a.realloc m b size

def top (base : ℕ) (bs : List Block) : ℕ := (bs.map (fun b => b.addr+b.size)).foldr max base

theorem le_top {base : ℕ} {bs : List Block} {b : Block} (hb : b ∈ bs) :
    b.addr+b.size ≤ top base bs := by
  induction bs with
  | nil => cases hb
  | cons c bs ih =>
    simp only [top, List.map_cons, List.foldr_cons]
    rcases List.mem_cons.mp hb with rfl | hb
    · exact le_max_left _ _
    · exact (ih hb).trans (le_max_right _ _)

theorem base_le_top (base : ℕ) (bs : List Block) : base ≤ top base bs := by
  induction bs with
  | nil => exact le_rfl
  | cons c bs ih => exact ih.trans (le_max_right _ _)

theorem fresh_top (base : ℕ) (bs : List Block) {size align : ℕ} (h0 :
    VecLayout.next_multiple_of (top base bs) align ≠ 0) :
    Fresh bs ⟨VecLayout.next_multiple_of (top base bs) align,size,align⟩ := by
  have ha : 0 < align := by
    apply Nat.pos_of_ne_zero
    rintro rfl
    exact h0 (Nat.mul_zero _)
  have hle := VecLayout.le_next_multiple_of (top base bs) ha
  exact ⟨VecLayout.dvd_next_multiple_of _ _,fun b hb => .inr ((le_top hb).trans hle)⟩

/-- The allocator that takes what lies above `base` and never reuses an address. -/
def bump (β : Type*) (base : ℕ) (fill : ℕ → β) : Allocator β where
  alloc m _ align := VecLayout.next_multiple_of (top base m.blocks) align
  realloc m b _ := VecLayout.next_multiple_of (top base (m.blocks.erase b)) b.align
  fill := fill
  alloc_fresh m _ _ h0 := fresh_top base m.blocks h0
  realloc_fresh m b _ h0 := fresh_top base (m.blocks.erase b) h0

theorem bump_hands {β : Type*} {base ptr : ℕ} {fill : ℕ → β} (h : (bump β base fill).Hands ptr) :
    ptr = 0 ∨ base ≤ ptr := by
  have key (bs : List Block) (align : ℕ) : VecLayout.next_multiple_of (top base bs) align = 0 ∨
      base ≤ VecLayout.next_multiple_of (top base bs) align := by
    rcases Nat.eq_zero_or_pos align with rfl | ha
    · exact .inl (Nat.mul_zero _)
    · exact .inr ((base_le_top base bs).trans (VecLayout.le_next_multiple_of _ ha))
  rcases h with ⟨m,_,align,rfl⟩ | ⟨m,b,_,rfl⟩
  · exact key _ _
  · exact key _ _

theorem bump_realloc_ne {β : Type*} {base : ℕ} {fill : ℕ → β} (hbase : 0 < base) (m : Heap β)
    {b : Block} (hb : 0 < b.align) (size : ℕ) : (bump β base fill).realloc m b size ≠ 0 := by
  have h1 := base_le_top base (m.blocks.erase b)
  have h2 := VecLayout.le_next_multiple_of (top base (m.blocks.erase b)) hb
  change VecLayout.next_multiple_of (top base (m.blocks.erase b)) b.align ≠ 0
  omega

end Lockness.VecHeap
