import Lockness.VecHeader

/-!
# Growth

`reserve` either returns with a block that has the room it was asked for, the
header and all elements at their old offsets, or it stops. It stops by the
panic of its overflow check with nothing changed, by a failed debug assertion,
when the allocator refuses, or with a size that no layout can have.
-/

set_option autoImplicit false

namespace Lockness.VecGrowth
open Lockness.VecLayout Lockness.VecHeap Lockness.VecMachine Lockness.VecHeader

variable {M Λ β : Type} {c : Target M β} {a : Allocator β} {h : Header M} {s s' : State M Λ β}
  {T : Layout} {n : ℕ}

/-- The block of `s` holds the same header and elements in `s'`, and has grown to `cap`. -/
structure Grown (c : Target M β) (h : Header M) (s : State M Λ β) (cap : ℕ) (s' : State M Λ β) :
    Prop where
  held : Held c { h with capacity := cap } s'
  le : h.capacity ≤ cap
  log : s'.log = s.log
  others : others { h with capacity := cap } s' = others h s
  kept : ∀ k n, c.header.size ≤ k → k+n ≤ h.capacity →
    s'.heap.load (s'.data+k) n = s.heap.load (s.data+k) n
  untouched : Untouched (VecHeader.others h s) s.heap s'.heap

theorem Grown.refl (hh : Held c h s) : Grown c h s h.capacity s where
  held := hh
  le := le_rfl
  log := rfl
  others := rfl
  kept := fun _ _ _ _ => rfl
  untouched := .refl _ _

def required_cap (c : Target M β) (T : Layout) (h : Header M) (n : ℕ) : ℕ :=
  h.len*T.size+(header_space c T).size+n

def new_capacity (c : Target M β) (T : Layout) (h : Header M) (n : ℕ) : ℕ :=
  max (saturating_mul c h.capacity 2) (required_cap c T h n)

inductive Reserved (c : Target M β) (a : Allocator β) (T : Layout) (h : Header M) (n : ℕ)
    (s : State M Λ β) : EStateM.Result Stop (State M Λ β) Unit → Prop
  | ok {cap : ℕ} {s' : State M Λ β} : Grown c h s cap s' → n = 0 ∨ required_cap c T h n ≤ cap →
      s'.data = s.data ∨ a.Hands s'.data → Reserved c a T h n s (.ok () s')
  | assertion {s' : State M Λ β} : c.debug_assertions = true →
      Reserved c a T h n s (.error (.panic .assertion) s')
  | overflow : 2^c.BITS ≤ required_cap c T h n →
      Reserved c a T h n s (.error (.panic .allocation) s)
  | refused (s' : State M Λ β) : Reserved c a T h n s (.error .abort s')
  | oversize : h.capacity < required_cap c T h n →
      ¬ Legal c (new_capacity c T h n) h.alignment → Reserved c a T h n s (.error .oversize s)

theorem usize_run {k : ℕ} (hk : k < 2^c.BITS) (s : State M Λ β) : usize c k s = .ok k s := by
  rw [usize, if_pos hk, pure_run]

theorem assertion_of_not (ha : ¬ Asserts c T s) : c.debug_assertions = true := by
  by_contra hd
  exact ha (fun h => absurd h hd)

section Moved

variable {cap ptr : ℕ} {heap : Heap β} (hh : Held c h s) (hcap : h.capacity ≤ cap)
  (hdvd : c.header.align ∣ h.alignment) (hf : Fresh (others h s) ⟨ptr,cap,h.alignment⟩)
  (hm : heap = s.heap.move (own h s) ⟨ptr,cap,h.alignment⟩ hf a.fill)

include hh hcap hm

theorem moved_load (k n : ℕ) (hk : k+n ≤ h.capacity) :
    heap.load (ptr+k) n = s.heap.load (s.data+k) n := by
  rw [hm]
  exact load_move (b := own h s) hf hh.block hk (hk.trans hcap)

include hdvd

theorem moved_headed : Headed c h ⟨heap,ptr,s.log⟩ where
  load := by
    have := moved_load hh hcap hf hm 0 c.header.size (by rw [Nat.zero_add]; exact hh.room)
    exact this.trans hh.load
  align := Nat.dvd_trans hdvd hf.1
  fits := hh.fits

theorem moved_grown (hl : Legal c cap h.alignment) (hpos : 0 < h.alignment) :
    ∃ s', write_header c { h with capacity := cap } ⟨heap,ptr,s.log⟩ = .ok () s' ∧
      Grown c h s cap s' ∧ s'.data = ptr := by
  have hblocks : heap.blocks = ⟨ptr,cap,h.alignment⟩ :: others h s := by
    rw [hm]
    rfl
  have hmem : (⟨ptr,cap,h.alignment⟩ : Block) ∈ heap.blocks := hblocks ▸ List.mem_cons_self
  have herase : heap.blocks.erase ⟨ptr,cap,h.alignment⟩ = others h s := by
    rw [hblocks, List.erase_cons_head]
  have hroom := hh.room.trans hcap
  have halign : c.header.align ∣ ptr := Nat.dvd_trans hdvd hf.1
  have hhas : Block.Has ⟨ptr,cap,h.alignment⟩ ptr c.header.size :=
    ⟨le_rfl,Nat.add_le_add_left hroom ptr⟩
  obtain ⟨s',hs,hst,hload⟩ := write_header_at (s := ⟨heap,ptr,s.log⟩) hmem hhas halign
    { h with capacity := cap }
  refine ⟨s',hs,⟨⟨⟨?_,?_,?_⟩,?_,?_,hl,hroom⟩,hcap,hst.log,?_,?_,?_⟩,hst.data⟩
  · rw [hst.data]
    exact hload
  · rw [hst.data]
    exact halign
  · exact ⟨hh.fits.value_size,hh.fits.alignment,hh.fits.len,legal_lt hpos hl⟩
  · rw [hst.blocks, own, hst.data]
    exact hmem
  · rw [hst.data]
    exact hf.1
  · rw [hst.others]
    exact herase
  · intro k n hk hn
    rw [hst.data, hst.apart _ _ (.inr (Nat.add_le_add_left hk ptr))]
    exact moved_load hh hcap hf hm k n hn
  · have h1 : Untouched (others h s) s.heap heap := by
      rw [hm]
      exact untouched_move hf
    exact h1.trans (herase ▸ hst.untouched _ hmem hhas)

end Moved

theorem realloc_refused {ptr size align new_size : ℕ}
    (hb : (⟨ptr,size,align⟩ : Block) ∈ s.heap.blocks) (hl : Legal c new_size align)
    (h0 : a.realloc s.heap ⟨ptr,size,align⟩ new_size = 0) :
    realloc c a ptr size align new_size s = .ok 0 s := by
  rw [realloc, bind_get]
  simp only [hb, hl, not_true, if_false, dif_pos h0, pure_run]

theorem realloc_granted {ptr size align new_size : ℕ}
    (hb : (⟨ptr,size,align⟩ : Block) ∈ s.heap.blocks) (hl : Legal c new_size align)
    (h0 : a.realloc s.heap ⟨ptr,size,align⟩ new_size ≠ 0) :
    realloc c a ptr size align new_size s =
      .ok (a.realloc s.heap ⟨ptr,size,align⟩ new_size) { s with
        heap := s.heap.move ⟨ptr,size,align⟩ ⟨_,new_size,align⟩ (a.realloc_fresh _ _ _ h0)
          a.fill } := by
  rw [realloc, bind_get]
  simp only [hb, hl, not_true, if_false, dif_neg h0]
  rfl

theorem realloc_illegal {ptr size align new_size : ℕ}
    (hb : (⟨ptr,size,align⟩ : Block) ∈ s.heap.blocks) (hl : ¬ Legal c new_size align) :
    realloc c a ptr size align new_size s = .error .oversize s := by
  rw [realloc, bind_get]
  simp only [hb, hl, not_true, not_false_eq_true, if_false, if_true, throw_run]

section Cases

variable (hh : Held c h s) (hused : h.len*T.size+(header_space c T).size < 2^c.BITS)

include hh

theorem reserve_assertion (hn : n ≠ 0) (ha : ¬ Asserts c T s) :
    reserve c a T n s = .error (.panic .assertion) s := by
  rw [reserve, if_neg hn, bind_error (by rw [len_run hh.toHeaded, if_neg ha])]

include hused

theorem reserve_overflow (hn : n ≠ 0) (ha : Asserts c T s)
    (hreq : 2^c.BITS ≤ required_cap c T h n) :
    reserve c a T n s = .error (.panic .allocation) s := by
  have hlen : len c T s = .ok h.len s := by rw [len_run hh.toHeaded, if_pos ha]
  have hadd : checked_add c (h.len*T.size+(header_space c T).size) n = none :=
    if_neg (Nat.not_lt.mpr hreq)
  rw [reserve, if_neg hn, bind_ok hlen, bind_ok (usize_run hused s)]
  simp only [hadd, throw_run]

theorem reserve_compared (hn : n ≠ 0) (ha : Asserts c T s)
    (hreq : required_cap c T h n < 2^c.BITS) : reserve c a T n s =
    if required_cap c T h n ≤ h.capacity then .ok () s
    else (realloc c a s.data h.capacity (header_space c T).align (new_capacity c T h n) >>=
      fun ptr => do
        if ptr = 0 then throw .abort
        modify (fun s => { s with data := ptr })
        write_header c { ← from_ref c T with capacity := new_capacity c T h n }) s := by
  have hlen : len c T s = .ok h.len s := by rw [len_run hh.toHeaded, if_pos ha]
  have hcapacity : capacity_bytes c T s = .ok h.capacity s := by
    rw [capacity_bytes_run hh.toHeaded, if_pos ha]
  have hadd : checked_add c (h.len*T.size+(header_space c T).size) n =
      some (required_cap c T h n) := if_pos hreq
  rw [reserve, if_neg hn, bind_ok hlen, bind_ok (usize_run hused s)]
  simp only [hadd]
  rw [bind_ok hcapacity]
  split
  · rfl
  · rfl

theorem reserve_fits (hn : n ≠ 0) (ha : Asserts c T s)
    (hfit : required_cap c T h n ≤ h.capacity) : reserve c a T n s = .ok () s := by
  rw [reserve_compared hh hused hn ha (hfit.trans_lt hh.fits.capacity), if_pos hfit]

variable (halign : h.alignment = (header_space c T).align)

include halign

theorem reserve_oversize (hn : n ≠ 0) (ha : Asserts c T s)
    (hreq : required_cap c T h n < 2^c.BITS) (hlt : h.capacity < required_cap c T h n)
    (hl : ¬ Legal c (new_capacity c T h n) h.alignment) :
    reserve c a T n s = .error .oversize s := by
  rw [reserve_compared hh hused hn ha hreq, if_neg (Nat.not_le.mpr hlt), ← halign,
    bind_error (realloc_illegal hh.block hl)]

def moved (a : Allocator β) (h : Header M) (s : State M Λ β) (cap ptr : ℕ)
    (hf : Fresh (others h s) ⟨ptr,cap,h.alignment⟩) : State M Λ β :=
  ⟨s.heap.move (own h s) ⟨ptr,cap,h.alignment⟩ hf a.fill,ptr,s.log⟩

theorem reserve_grows (hn : n ≠ 0) (ha : Asserts c T s) (hreq : required_cap c T h n < 2^c.BITS)
    (hlt : h.capacity < required_cap c T h n)
    (hl : Legal c (new_capacity c T h n) h.alignment) :
    (a.realloc s.heap (own h s) (new_capacity c T h n) = 0 ∧
      reserve c a T n s = .error .abort s) ∨
    (∃ s', reserve c a T n s = .ok () s' ∧ Grown c h s (new_capacity c T h n) s' ∧
      s'.data = a.realloc s.heap (own h s) (new_capacity c T h n) ∧ a.Hands s'.data) ∨
    ∃ ptr hf, reserve c a T n s =
        .error (.panic .assertion) (moved a h s (new_capacity c T h n) ptr hf) ∧
      c.debug_assertions = true ∧ ptr = dangling c T := by
  rw [reserve_compared hh hused hn ha hreq, if_neg (Nat.not_le.mpr hlt), ← halign]
  by_cases h0 : a.realloc s.heap (own h s) (new_capacity c T h n) = 0
  · refine .inl ⟨h0,?_⟩
    rw [bind_ok (realloc_refused hh.block hl h0), if_pos rfl, bind_throw]
  have hf : Fresh (others h s) ⟨a.realloc s.heap (own h s) (new_capacity c T h n),
    new_capacity c T h n,h.alignment⟩ := a.realloc_fresh s.heap (own h s) _ h0
  rw [bind_ok (realloc_granted hh.block hl h0)]
  rw [if_neg (show a.realloc s.heap ⟨s.data,h.capacity,h.alignment⟩ _ ≠ 0 from h0)]
  simp only [bind_modify]
  have hle : h.capacity ≤ new_capacity c T h n := hlt.le.trans (le_max_right _ _)
  have hpos : 0 < h.alignment := halign ▸ (header_space c T).align_pos
  have hdvd : c.header.align ∣ h.alignment := halign ▸ c.header.union_align_left T
  have hr' := from_ref_run (moved_headed (a := a) hh hle hdvd hf rfl) T
  right
  split at hr'
  · obtain ⟨s',hw,hg,hdata⟩ := moved_grown (a := a) hh hle hdvd hf rfl hl hpos
    exact .inl ⟨s',(bind_ok hr').trans hw,hg,hdata,hdata ▸ .inr ⟨_,_,_,rfl⟩⟩
  · rename_i hna
    rw [Asserts, Classical.not_imp, not_not] at hna
    exact .inr ⟨_,hf,bind_error hr',hna⟩

end Cases

/-- What `reserve` does to a vec that holds a header of the alignment of `T`. -/
theorem reserve_run (hh : Held c h s) (halign : h.alignment = (header_space c T).align)
    (hused : h.len*T.size+(header_space c T).size < 2^c.BITS) :
    Reserved c a T h n s (reserve c a T n s) := by
  by_cases hn : n = 0
  · rw [reserve, if_pos hn]
    exact .ok (.refl hh) (.inl hn) (.inl rfl)
  by_cases ha : Asserts c T s
  swap
  · rw [reserve_assertion hh hn ha]
    exact .assertion (assertion_of_not ha)
  by_cases hreq : required_cap c T h n < 2^c.BITS
  swap
  · rw [reserve_overflow hh hused hn ha (Nat.not_lt.mp hreq)]
    exact .overflow (Nat.not_lt.mp hreq)
  by_cases hlt : h.capacity < required_cap c T h n
  swap
  · rw [reserve_fits hh hused hn ha (Nat.not_lt.mp hlt)]
    exact .ok (.refl hh) (.inr (Nat.not_lt.mp hlt)) (.inl rfl)
  by_cases hl : Legal c (new_capacity c T h n) h.alignment
  swap
  · rw [reserve_oversize hh hused halign hn ha hreq hlt hl]
    exact .oversize hlt hl
  rcases reserve_grows (a := a) hh hused halign hn ha hreq hlt hl with
    ⟨-,hr⟩ | ⟨s',hr,hg,-,hhands⟩ | ⟨_,_,hr,hdbg,-⟩ <;> rw [hr]
  · exact .refused s
  · exact .ok hg (.inr (le_max_right _ _)) (.inr hhands)
  · exact .assertion hdbg

end Lockness.VecGrowth
