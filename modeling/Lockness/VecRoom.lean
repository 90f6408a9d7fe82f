import Lockness.VecLife

/-!
# What every vec keeps

A header that describes its block, and room in the block for header and elements:
the operations need no more to be defined, whatever the elements are and
however they end. With debug assertions a growth may also end with the block at
the address of a dangling pointer, where nothing looks at it any more.
-/

set_option autoImplicit false

namespace Lockness.VecRoom
open Lockness.VecLayout Lockness.VecHeap Lockness.VecMachine Lockness.VecHeader Lockness.VecGrowth
open Lockness.VecElements Lockness.VecLife

variable {M Λ β O : Type} {c : Target M β} {a : Allocator β} {T U : Layout} {h h' : Header M}
  {s s' : State M Λ β} {m : M} {n : ℕ} {bs : List Block}

structure Roomy (c : Target M β) (T : Layout) (h : Header M) (s : State M Λ β) : Prop where
  held : Held c h s
  value_size : h.value_size = ELEM_SIZE T
  alignment : h.alignment = (header_space c T).align
  room : (header_space c T).size+h.len*T.size ≤ h.capacity

theorem roomy_of_live {vs : List (List β)} (hl : Live c T h vs s) : Roomy c T h s := by
  refine ⟨hl.held,?_,hl.alignment,hl.len ▸ hl.room⟩
  have hlt := hl.held.fits.value_size
  rw [hl.value_size] at hlt ⊢
  exact (Nat.mod_eq_of_lt hlt).symm

theorem elem_size_le (T : Layout) : ELEM_SIZE T ≤ T.size := Nat.mod_le _ _

/-- How an operation may end: by a return, by unwinding, by an abort or with a size that no
layout has, but with no other undefined behaviour. -/
def Safely {α : Type} (returns unwinds : State M Λ β → Prop) :
    EStateM.Result Stop (State M Λ β) α → Prop
  | .ok _ s => returns s
  | .error (.panic _) s => unwinds s
  | .error .ub _ => False
  | .error _ _ => True

theorem Safely.of_error {α γ : Type} {P P' Q Q' : State M Λ β → Prop} {e : Stop}
    (hs : Safely P Q (.error e s : EStateM.Result Stop (State M Λ β) α)) (hq : Q s → Q' s) :
    Safely P' Q' (.error e s : EStateM.Result Stop (State M Λ β) γ) := by
  cases e with
  | panic => exact hq hs
  | ub => exact hs
  | abort => trivial
  | oversize => trivial

theorem Safely.imp {α : Type} {P P' Q Q' : State M Λ β → Prop}
    {r : EStateM.Result Stop (State M Λ β) α} (hs : Safely P Q r) (hp : ∀ s, P s → P' s)
    (hq : ∀ s, Q s → Q' s) : Safely P' Q' r := by
  cases r with
  | ok _ s => exact hp s hs
  | error e s => exact hs.of_error (hq s)

def Owns (c : Target M β) (T : Layout) (bs : List Block) (s : State M Λ β) : Prop :=
  ∃ h, Roomy c T h s ∧ others h s = bs

/-- The block of a vec was moved to the address of a dangling pointer and given up by a
failed debug assertion. -/
def Lost (c : Target M β) (T : Layout) (bs : List Block) (s : State M Λ β) : Prop :=
  c.debug_assertions = true ∧ s.data = dangling c T ∧
    ∃ b, b.addr = dangling c T ∧ s.heap.blocks = b :: bs

theorem Roomy.used_lt (hr : Roomy c T h s) :
    h.len*T.size+(header_space c T).size < 2^c.BITS := by
  have := hr.held.fits.capacity
  have := hr.room
  omega

theorem Roomy.stored {i : ℕ} (hr : Roomy c T h s) (hs : Stored s s' i n)
    (hi : s.data+c.header.size ≤ i) (hn : (own h s).Has i n) :
    Roomy c T h s' ∧ Local h s h s' :=
  ⟨⟨hr.held.stored hs hi,hr.value_size,hr.alignment,hr.room⟩,hs.others,
    hs.untouched _ hr.held.block hn⟩

variable (h') in
theorem Roomy.rewrite (hr : Roomy c T h s) (hv : h'.value_size = h.value_size)
    (ha : h'.alignment = h.alignment) (hc : h'.capacity = h.capacity) (hlen : h'.len < 2^c.BITS)
    (hroom : (header_space c T).size+h'.len*T.size ≤ h.capacity) :
    ∃ s', write_header c h' s = .ok () s' ∧ Roomy c T h' s' ∧ Local h s h' s' ∧
      s'.data = s.data ∧ s'.log = s.log := by
  obtain ⟨s',hw,hst,hload⟩ := write_header_run hr.held h'
  have hf := hr.held.fits
  have hown : own h' s = own h s := by rw [own, own, hc, ha]
  refine ⟨s',hw,⟨?_,hv.trans hr.value_size,ha.trans hr.alignment,hc ▸ hroom⟩,⟨?_,?_⟩,hst.data,
    hst.log⟩
  · exact hr.held.written hst hload ⟨hv ▸ hf.value_size,ha ▸ hf.alignment,hlen,hc ▸ hf.capacity⟩
      hc ha
  · rw [hst.others, others, others, hown]
  · exact hst.untouched _ hr.held.block ⟨le_rfl,Nat.add_le_add_left hr.held.room _⟩

theorem Roomy.relen {k : ℕ} (hr : Roomy c T h s) (hk : k < 2^c.BITS)
    (hroom : (header_space c T).size+k*T.size ≤ h.capacity) :
    ∃ s', write_header c { h with len := k } s = .ok () s' ∧ Roomy c T { h with len := k } s' ∧
      Local h s { h with len := k } s' ∧ s'.data = s.data ∧ s'.log = s.log :=
  hr.rewrite _ rfl rfl rfl hk hroom

theorem Roomy.relog (hr : Roomy c T h s) (l : List (Effect M Λ)) :
    Roomy c T h { s with log := l } :=
  ⟨hr.held.relog l,hr.value_size,hr.alignment,hr.room⟩

section Growth

theorem local_of_grown {cap : ℕ} (hg : Grown c h s cap s') :
    Local h s { h with capacity := cap } s' := ⟨hg.others,hg.untouched⟩

theorem grown_roomy {cap : ℕ} (hr : Roomy c T h s) (hg : Grown c h s cap s') :
    Roomy c T { h with capacity := cap } s' :=
  ⟨hg.held,hr.value_size,hr.alignment,hr.room.trans hg.le⟩

/-- The part of `reserve_run` that a vec of any elements needs, at the type `U` of `init`
where its elements are none. -/
theorem reserve_safely (hh : Held c h s) (ha : h.alignment = (header_space c U).align)
    (hused : h.len*U.size+(header_space c U).size < 2^c.BITS) :
    Safely (fun s' => ∃ cap, Grown c h s cap s' ∧ (n = 0 ∨ required_cap c U h n ≤ cap))
      (fun s' => (s' = s ∨ Lost c U (others h s) s') ∧ s'.log = s.log) (reserve c a U n s) := by
  by_cases hn : n = 0
  · rw [reserve, if_pos hn]
    exact ⟨_,.refl hh,.inl hn⟩
  by_cases has : Asserts c U s
  swap
  · rw [reserve_assertion hh hn has]
    exact ⟨.inl rfl,rfl⟩
  by_cases hreq : required_cap c U h n < 2^c.BITS
  swap
  · rw [reserve_overflow hh hused hn has (Nat.not_lt.mp hreq)]
    exact ⟨.inl rfl,rfl⟩
  by_cases hlt : h.capacity < required_cap c U h n
  swap
  · rw [reserve_fits hh hused hn has (Nat.not_lt.mp hlt)]
    exact ⟨_,.refl hh,.inr (Nat.not_lt.mp hlt)⟩
  by_cases hl : Legal c (new_capacity c U h n) h.alignment
  swap
  · rw [reserve_oversize hh hused ha hn has hreq hlt hl]
    trivial
  rcases reserve_grows (a := a) hh hused ha hn has hreq hlt hl with
    ⟨-,hr⟩ | ⟨s',hr,hg,-⟩ | ⟨ptr,hf,hr,hdbg,hptr⟩ <;> rw [hr]
  · trivial
  · exact ⟨_,hg,.inr (le_max_right _ _)⟩
  · exact ⟨.inr ⟨hdbg,hptr,_,hptr,rfl⟩,rfl⟩

end Growth

section Push

variable {x : List β}

theorem usize_cases (c : Target M β) (n : ℕ) (s : State M Λ β) :
    usize c n s = .ok (n%2^c.BITS) s ∨ (2^c.BITS ≤ n ∧ c.overflow_checks = true) ∧
      usize c n s = .error (.panic .arithmetic) s := by
  rw [usize]
  split
  · rw [Nat.mod_eq_of_lt ‹_›]
    exact .inl rfl
  · rename_i hn
    split
    · exact .inr ⟨⟨Nat.not_lt.mp hn,‹_›⟩,rfl⟩
    · exact .inl rfl

theorem wrapped_room (hr : Roomy c T h s)
    (hroom : (header_space c T).size+(h.len+1)*T.size ≤ h.capacity) :
    (header_space c T).size+(h.len+1)%2^c.BITS*T.size ≤ h.capacity := by
  by_cases hlt : h.len+1 < 2^c.BITS
  · rwa [Nat.mod_eq_of_lt hlt]
  · have hcap := hr.held.fits.capacity
    have hsize : T.size = 0 := by
      by_contra h0
      have : (h.len+1)*1 ≤ (h.len+1)*T.size := Nat.mul_le_mul_left _ (Nat.pos_of_ne_zero h0)
      omega
    rw [hsize] at hroom ⊢
    omega

theorem Roomy.next_room {cap : ℕ} (hr : Roomy c T h s) (hg : Grown c h s cap s')
    (hn : T.size = 0 ∨ required_cap c T h T.size ≤ cap) :
    (header_space c T).size+(h.len+1)*T.size ≤ cap := by
  have h1 := (grown_roomy hr hg).room
  simp only at h1
  rw [Nat.succ_mul]
  rcases hn with h0 | hn
  · omega
  · rw [required_cap] at hn
    omega

theorem push_counted {cap : ℕ} {s₁ : State M Λ β} (hr : Roomy c T h s)
    (hrun : reserve c a T T.size s = .ok () s₁) (hg : Grown c h s cap s₁) (has : Asserts c T s₁)
    (hn : T.size = 0 ∨ required_cap c T h T.size ≤ cap) (hx : x.length = T.size) :
    (∃ s', push c a T x s = .ok () s' ∧ s'.data = s₁.data ∧
      Roomy c T { h with len := (h.len+1)%2^c.BITS, capacity := cap } s' ∧
      Local h s { h with len := (h.len+1)%2^c.BITS, capacity := cap } s' ∧ s'.log = s.log) ∨
    (2^c.BITS ≤ h.len+1 ∧ c.overflow_checks = true) ∧
      ∃ s', push c a T x s = .error (.panic .arithmetic) s' ∧
      Roomy c T { h with capacity := cap } s' ∧ Local h s { h with capacity := cap } s' := by
  have hr₁ := grown_roomy hr hg
  have hroom := hr.next_room hg hn
  have hnext := push_address_le c T s₁.data (Nat.lt_add_one h.len)
  have hfirst := header_le c T s₁.data h.len
  have hhas : (own { h with capacity := cap } s₁).Has (push_address c T s₁.data h.len)
      x.length := by
    rw [hx]
    refine ⟨(Nat.le_add_right _ _).trans hfirst,hnext.trans ?_⟩
    simp only [own, push_address]
    omega
  have hdvd := push_address_dvd c T h.len (hr₁.alignment ▸ hg.held.aligned)
  obtain ⟨s₂,hs,hst,-⟩ := store_run hg.held.block hhas hdvd
  obtain ⟨hr₂,hloc₂⟩ := hr₁.stored hst hfirst (hx ▸ hhas)
  have hloc := (local_of_grown hg).trans hloc₂
  have has₂ : Asserts c T s₂ := fun h0 => hst.data ▸ has h0
  have hl₁ : len c T s₁ = .ok h.len s₁ := by rw [len_run hg.held.toHeaded, if_pos has]
  have hf₂ : from_ref c T s₂ = .ok { h with capacity := cap } s₂ := by
    rw [from_ref_run hr₂.held.toHeaded, if_pos has₂]
  rw [push, bind_ok hrun, bind_get, bind_ok hl₁, bind_ok hs, bind_ok hf₂]
  rcases usize_cases c (h.len+1) s₂ with hu | ⟨hle,hu⟩
  swap
  · rw [bind_error hu]
    exact .inr ⟨hle,s₂,rfl,hr₂,hloc⟩
  have hmod : (h.len+1)%2^c.BITS < 2^c.BITS := Nat.mod_lt _ (Nat.two_pow_pos _)
  have hwrap : (header_space c T).size+(h.len+1)%2^c.BITS*T.size ≤ cap := wrapped_room hr₂ hroom
  rw [bind_ok hu]
  generalize (h.len+1)%2^c.BITS = n at hmod hwrap ⊢
  obtain ⟨s₃,hw,hr₃,hloc₃,hd₃,hlog₃⟩ := hr₂.relen hmod hwrap
  rw [hw]
  exact .inl ⟨s₃,rfl,hd₃.trans hst.data,hr₃,hloc.trans hloc₃,hlog₃.trans (hst.log.trans hg.log)⟩

theorem push_safely (hr : Roomy c T h s) (hx : x.length = T.size) :
    Safely (Owns c T (others h s)) (fun s' => Owns c T (others h s) s' ∨ Lost c T (others h s) s')
      (push c a T x s) := by
  have hres := reserve_safely (a := a) (n := T.size) hr.held hr.alignment hr.used_lt
  generalize hrun : reserve c a T T.size s = r at hres
  cases r with
  | error e s₁ =>
    rw [push, bind_error hrun]
    refine hres.of_error (fun hun => ?_)
    rcases hun.1 with rfl | hlost
    · exact .inl ⟨h,hr,rfl⟩
    · exact .inr hlost
  | ok _ s₁ =>
    obtain ⟨cap,hg,hn⟩ := hres
    by_cases has : Asserts c T s₁
    swap
    · rw [push, bind_ok hrun, bind_get, bind_error (by rw [len_run hg.held.toHeaded, if_neg has])]
      exact .inl ⟨_,grown_roomy hr hg,hg.others⟩
    rcases push_counted hr hrun hg has hn hx with ⟨s',hp,-,hr',hloc,-⟩ | ⟨-,s',hp,hr',hloc⟩ <;>
      rw [hp]
    · exact ⟨_,hr',hloc.others⟩
    · exact .inl ⟨_,hr',hloc.others⟩

theorem push_fits (hr : Roomy c T h s) (has : Asserts c T s) (hx : x.length = T.size)
    (hroom : (header_space c T).size+(h.len+1)*T.size ≤ h.capacity) (hlen : h.len+1 < 2^c.BITS) :
    ∃ s', push c a T x s = .ok () s' ∧ s'.data = s.data ∧
      Roomy c T { h with len := h.len+1 } s' := by
  have hrun : reserve c a T T.size s = .ok () s := by
    by_cases h0 : T.size = 0
    · rw [reserve, if_pos h0, pure_run]
    · refine reserve_fits hr.held hr.used_lt h0 has ?_
      rw [Nat.succ_mul] at hroom
      rw [required_cap]
      omega
  have hn : T.size = 0 ∨ required_cap c T h T.size ≤ h.capacity := by
    rw [Nat.succ_mul] at hroom
    rw [required_cap]
    omega
  rcases push_counted hr hrun (.refl hr.held) has hn hx with ⟨s',hp,hd,hr',-⟩ | ⟨hle,-⟩
  · rw [Nat.mod_eq_of_lt hlen] at hr'
    exact ⟨s',hp,hd,hr'⟩
  · omega

theorem push_grows (hr : Roomy c T h s) (hdbg : c.debug_assertions = false) (h0 : T.size ≠ 0)
    (hreq : required_cap c T h T.size < 2^c.BITS) (hlt : h.capacity < required_cap c T h T.size)
    (hl : Legal c (new_capacity c T h T.size) h.alignment)
    (hgrant : a.realloc s.heap (own h s) (new_capacity c T h T.size) ≠ 0)
    (hlen : h.len+1 < 2^c.BITS) (hx : x.length = T.size) :
    ∃ s', push c a T x s = .ok () s' ∧
      Roomy c T { h with len := h.len+1, capacity := new_capacity c T h T.size } s' := by
  have hoff (s : State M Λ β) : Asserts c T s := fun hon => nomatch hdbg.symm.trans hon
  rcases reserve_grows (a := a) hr.held hr.used_lt hr.alignment h0 (hoff s) hreq hlt hl with
    ⟨h0,-⟩ | ⟨s₁,hg,hgrown,-⟩ | ⟨_,_,-,hon,-⟩
  · exact absurd h0 hgrant
  · rcases push_counted hr hg hgrown (hoff s₁) (.inr (le_max_right _ _)) hx with
      ⟨s',hp,-,hr',-⟩ | ⟨hle,-⟩
    · rw [Nat.mod_eq_of_lt hlen] at hr'
      exact ⟨s',hp,hr'⟩
    · omega
  · nomatch hdbg.symm.trans hon

end Push

section Pop

theorem elem_len_le (T : Layout) (n : ℕ) : n*ELEM_SIZE T ≤ n*T.size :=
  Nat.mul_le_mul_left n (elem_size_le T)

theorem Roomy.offset_le (hr : Roomy c T h s) {i : ℕ} (hi : i < h.len) :
    pop_offset c h i+h.value_size ≤ h.capacity := by
  have h1 : next_multiple_of (max (header_space c .unit).size h.value_size) h.alignment ≤
      (header_space c T).size := by
    refine next_multiple_of_le (hr.alignment ▸ (header_space c T).align_pos) ?_
      (hr.alignment ▸ (header_space c T).size_dvd)
    rw [hr.value_size]
    refine max_le ?_ ((elem_size_le T).trans (c.header.union_size_right T))
    rw [header_space, Layout.union_unit_size]
    exact c.header.union_size_left T
  have h2 : (i+1)*h.value_size ≤ h.len*h.value_size := Nat.mul_le_mul_right _ hi
  have h3 := elem_len_le T h.len
  have h4 := hr.room
  rw [← hr.value_size] at h3
  rw [Nat.succ_mul] at h2
  rw [pop_offset]
  omega

theorem Roomy.header_le_offset (hr : Roomy c T h s) (i : ℕ) : c.header.size ≤ pop_offset c h i := by
  have h1 := le_next_multiple_of (max (header_space c .unit).size h.value_size)
    (hr.alignment ▸ (header_space c T).align_pos : 0 < h.alignment)
  have h2 : c.header.size = (header_space c .unit).size := c.header.union_unit_size.symm
  have h3 := le_max_left (header_space c .unit).size h.value_size
  rw [pop_offset]
  omega

theorem pop_slot_some (hr : Roomy c T h s) (ha : Asserts c U s) (h0 : h.len ≠ 0) :
    ∃ x s', pop_slot c U s = .ok (some (h.metadata,s.data+pop_offset c h (h.len-1),x)) s' ∧
      x.length = h.value_size ∧ Roomy c T { h with len := h.len-1 } s' ∧
      Local h s { h with len := h.len-1 } s' ∧ s'.data = s.data ∧ s'.log = s.log := by
  have hlt : h.len-1 < h.len := Nat.sub_lt (Nat.pos_of_ne_zero h0) one_pos
  have hoff := hr.offset_le hlt
  have hfits : pop_offset c h (h.len-1) < 2^c.BITS := by
    have := hr.held.fits.capacity
    omega
  have hcovers : s.heap.Covers (s.data+pop_offset c h (h.len-1)) h.value_size :=
    ⟨_,hr.held.block,own_has hoff⟩
  have hroom : (header_space c T).size+(h.len-1)*T.size ≤ h.capacity :=
    (Nat.add_le_add_left (Nat.mul_le_mul_right _ hlt.le) _).trans hr.room
  have hl₁ : len c U s = .ok h.len s := by rw [len_run hr.held.toHeaded, if_pos ha]
  have hf₁ : from_ref c U s = .ok h s := by rw [from_ref_run hr.held.toHeaded, if_pos ha]
  obtain ⟨s',hw,hr',hloc,hd,hlog⟩ := hr.relen (hlt.trans hr.held.fits.len) hroom
  refine ⟨s.heap.peek (s.data+pop_offset c h (h.len-1)) h.value_size,s',?_,
    peek_length _ _ _,hr',hloc,hd,hlog⟩
  rw [pop_slot, bind_ok hl₁, if_neg h0, bind_ok hf₁, bind_get, bind_ok (usize_run hfits s),
    bind_ok (load_run (load_covers hcovers) (Nat.one_dvd _)), bind_ok hw, pure_run]

theorem call_closure_safely {x : List β} {ptr : ℕ} (hr : Roomy c T h s)
    (hlo : s.data+c.header.size ≤ ptr) (hhi : ptr+x.length ≤ s.data+h.capacity)
    (f : M → ℕ → List β → Answer M Λ β O) {r : Answer M Λ β O} (hf : f m ptr x = r) :
    ∃ s', call_closure c f m ptr x s =
        (match r.out with | .ok o => .ok o s' | .error e => .error e s') ∧
      Roomy c T { h with metadata := r.metadata } s' ∧
      Local h s { h with metadata := r.metadata } s' ∧
      s'.log = s.log++r.log.map .closure ∧ s'.data = s.data := by
  have hlen : ((List.range x.length).map r.bytes).length = x.length := by simp
  have hhas : (own h s).Has ptr ((List.range x.length).map r.bytes).length :=
    ⟨(Nat.le_add_right _ _).trans hlo,hlen.symm ▸ hhi⟩
  obtain ⟨s₁,hs,hst,-⟩ := store_run hr.held.block hhas (Nat.one_dvd _)
  obtain ⟨hr₁,hloc₁⟩ := hr.stored hst hlo hhas
  obtain ⟨s₂,hw,hr₂,hloc₂,hd₂,hlog₂⟩ :=
    hr₁.rewrite { h with metadata := r.metadata } rfl rfl rfl hr.held.fits.len hr.room
  have hloc := hloc₁.trans hloc₂
  refine ⟨{ s₂ with log := s₂.log++r.log.map .closure },?_,hr₂.relog _,
    ⟨hloc.others,hloc.untouched⟩,by rw [hlog₂, hst.log],hd₂.trans hst.data⟩
  rw [call_closure]
  simp only [hf]
  rw [bind_ok hs, bind_ok (read_header_run hr₁.held.toHeaded), bind_ok hw, bind_modify]
  cases r.out <;> rfl

theorem pop_some (hr : Roomy c T h s) (ha : Asserts c U s) (h0 : h.len ≠ 0)
    (f : M → ℕ → List β → Answer M Λ β O) :
    ∃ ptr x s₁ s', pop_slot c U s = .ok (some (h.metadata,ptr,x)) s₁ ∧
      x.length = h.value_size ∧ (pop c U f s = match (f h.metadata ptr x).out with
        | .ok o => .ok (some o) s'
        | .error e => .error e s') ∧
      Roomy c T { h with metadata := (f h.metadata ptr x).metadata, len := h.len-1 } s' ∧
      Local h s { h with metadata := (f h.metadata ptr x).metadata, len := h.len-1 } s' ∧
      s'.log = s.log++(f h.metadata ptr x).log.map .closure ∧ s'.data = s.data := by
  have hlt : h.len-1 < h.len := Nat.sub_lt (Nat.pos_of_ne_zero h0) one_pos
  have hoff := hr.offset_le hlt
  obtain ⟨x,s₁,hs,hx,hr₁,hloc₁,hd₁,hlog₁⟩ := pop_slot_some hr ha h0
  have hlo := hr.header_le_offset (h.len-1)
  have hhi : s.data+pop_offset c h (h.len-1)+x.length ≤ s₁.data+h.capacity := by omega
  obtain ⟨s₂,hc,hr₂,hloc₂,hlog₂,hd₂⟩ :=
    call_closure_safely hr₁ (hd₁ ▸ Nat.add_le_add_left hlo _) hhi f rfl
  refine ⟨_,x,s₁,s₂,hs,hx,?_,hr₂,hloc₁.trans hloc₂,by rw [hlog₂, hlog₁],hd₂.trans hd₁⟩
  rw [pop, bind_ok hs]
  simp only
  cases hout : (f h.metadata (s.data+pop_offset c h (h.len-1)) x).out with
  | ok o =>
    simp only [hout] at hc
    rw [bind_ok hc, pure_run]
  | error e =>
    simp only [hout] at hc
    rw [bind_error hc]

end Pop

end Lockness.VecRoom
