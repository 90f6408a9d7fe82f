import Lockness.VecGrowth

/-!
# Elements

`push` finds the place of an element from the layout of the static type, `pop`
from two fields of the header. Both formulas name the same address, so the
elements of a live vec are found at every static type.
-/

set_option autoImplicit false

namespace Lockness.VecElements
open Lockness.VecLayout Lockness.VecHeap Lockness.VecMachine Lockness.VecHeader Lockness.VecGrowth

variable {M Λ β O : Type}

/-- The vec holds the elements `vs` of the type `T`, the last one on top. -/
structure Live (c : Target M β) (T : Layout) (h : Header M) (vs : List (List β))
    (s : State M Λ β) : Prop where
  held : Held c h s
  value_size : h.value_size = T.size
  alignment : h.alignment = (header_space c T).align
  len : h.len = vs.length
  room : (header_space c T).size+vs.length*T.size ≤ h.capacity
  stored : ∀ (i : ℕ) (hi : i < vs.length),
    s.heap.load (push_address c T s.data i) T.size = some vs[i]

/-- The other blocks of the program and their bytes are the same. -/
structure Local (h : Header M) (s : State M Λ β) (h' : Header M) (s' : State M Λ β) : Prop where
  others : others h' s' = others h s
  untouched : Untouched (VecHeader.others h s) s.heap s'.heap

variable {c : Target M β} {a : Allocator β} {T U : Layout} {h : Header M} {vs : List (List β)}
  {s s' : State M Λ β} {x : List β}

theorem Local.trans {h' h'' : Header M} {s'' : State M Λ β} (hl : Local h s h' s')
    (hl' : Local h' s' h'' s'') : Local h s h'' s'' where
  others := hl'.others.trans hl.others
  untouched := hl.untouched.trans (hl.others ▸ hl'.untouched)

theorem Live.relog (hl : Live c T h vs s) (l : List (Effect M Λ)) :
    Live c T h vs { s with log := l } where
  held := hl.held.relog l
  value_size := hl.value_size
  alignment := hl.alignment
  len := hl.len
  room := hl.room
  stored := hl.stored

section Addresses

theorem push_address_dvd (c : Target M β) (T : Layout) {data : ℕ} (i : ℕ)
    (hd : (header_space c T).align ∣ data) : T.align ∣ push_address c T data i := by
  have h1 : T.align ∣ (header_space c T).align := c.header.union_align_right T
  have h2 := Nat.dvd_trans h1 (header_space c T).size_dvd
  exact Nat.dvd_add (Nat.dvd_add (Nat.dvd_trans h1 hd) h2) (Nat.dvd_mul_left_of_dvd T.size_dvd i)

theorem push_address_le (c : Target M β) (T : Layout) (data : ℕ) {i j : ℕ} (hij : i < j) :
    push_address c T data i+T.size ≤ push_address c T data j := by
  have : (i+1)*T.size ≤ j*T.size := Nat.mul_le_mul_right _ hij
  rw [Nat.succ_mul] at this
  simp only [push_address]
  omega

theorem header_le (c : Target M β) (T : Layout) (data i : ℕ) :
    data+c.header.size ≤ push_address c T data i := by
  have : c.header.size ≤ (header_space c T).size := c.header.union_size_left T
  simp only [push_address]
  omega

/-- `pop` derives from the header what `push` derives from the type. -/
theorem pop_address (hv : h.value_size = T.size) (ha : h.alignment = (header_space c T).align)
    (data i : ℕ) : data+pop_offset c h i = push_address c T data i := by
  rw [pop_offset, hv, ha, push_address, Nat.add_assoc]
  congr 2
  exact c.header.union_size_eq T

theorem Live.within (hl : Live c T h vs s) {i : ℕ} (hi : i < vs.length) :
    push_address c T s.data i+T.size ≤ s.data+h.capacity := by
  have h1 := push_address_le c T s.data hi
  have h2 := hl.room
  simp only [push_address] at h1 ⊢
  omega

end Addresses

def Written (c : Target M β) (a : Allocator β) (T : Layout) (x : List β) (i : ℕ)
    (s s' : State M Λ β) : Prop :=
  ∃ s₁ s₂, reserve c a T T.size s = .ok () s₁ ∧
    store (push_address c T s₁.data i) T.align x s₁ = .ok () s₂ ∧ s'.data = s₁.data

inductive Pushed (c : Target M β) (a : Allocator β) (T : Layout) (h : Header M)
    (vs : List (List β)) (x : List β) (s : State M Λ β) :
    EStateM.Result Stop (State M Λ β) Unit → Prop
  | ok {cap : ℕ} {s' : State M Λ β} :
      Live c T { h with len := h.len+1, capacity := cap } (vs++[x]) s' →
      Local h s { h with len := h.len+1, capacity := cap } s' → s'.log = s.log →
      s'.data = s.data ∨ a.Hands s'.data → Written c a T x vs.length s s' →
      Pushed c a T h vs x s (.ok () s')
  | assertion {s' : State M Λ β} : c.debug_assertions = true →
      Pushed c a T h vs x s (.error (.panic .assertion) s')
  | overflow : 2^c.BITS ≤ required_cap c T h T.size →
      Pushed c a T h vs x s (.error (.panic .allocation) s)
  | refused (s' : State M Λ β) : Pushed c a T h vs x s (.error .abort s')
  | oversize : ¬ Legal c (new_capacity c T h T.size) h.alignment →
      Pushed c a T h vs x s (.error .oversize s)

theorem Live.moved {cap : ℕ} (hl : Live c T h vs s) (hg : Grown c h s cap s') {i : ℕ}
    (hi : i < vs.length) : s'.heap.load (push_address c T s'.data i) T.size = some vs[i] := by
  have h1 := header_le c T 0 i
  have h2 := hl.within hi
  have hk := hg.kept ((header_space c T).size+i*T.size) T.size
    (by simp only [push_address] at h1; omega) (by simp only [push_address] at h2; omega)
  rw [← Nat.add_assoc, ← Nat.add_assoc] at hk
  exact hk.trans (hl.stored i hi)

theorem Live.used_lt (hl : Live c T h vs s) :
    h.len*T.size+(header_space c T).size < 2^c.BITS := by
  have := hl.held.fits.capacity
  have := hl.room
  rw [hl.len]
  omega

theorem push_element {cap : ℕ} (hl : Live c T h vs s) (hg : Grown c h s cap s')
    (hroom : (header_space c T).size+(vs.length+1)*T.size ≤ cap) (hx : x.length = T.size) :
    ∃ s₁ s₂, store (push_address c T s'.data vs.length) T.align x s' = .ok () s₁ ∧
      Held c { h with capacity := cap } s₁ ∧ s₁.data = s'.data ∧
      (vs.length+1 < 2^c.BITS →
        write_header c { h with len := h.len+1, capacity := cap } s₁ = .ok () s₂ ∧
        Live c T { h with len := h.len+1, capacity := cap } (vs++[x]) s₂ ∧
        Local h s { h with len := h.len+1, capacity := cap } s₂ ∧ s₂.log = s.log ∧
        s₂.data = s'.data) := by
  have hnext := push_address_le c T s'.data (Nat.lt_add_one vs.length)
  have hlast : push_address c T s'.data (vs.length+1) ≤ s'.data+cap := by
    simp only [push_address]
    omega
  have hfirst := header_le c T s'.data vs.length
  have hhas : (own { h with capacity := cap } s').Has (push_address c T s'.data vs.length)
      x.length := by
    rw [hx]
    exact ⟨(Nat.le_add_right _ _).trans hfirst,hnext.trans hlast⟩
  have hdvd := push_address_dvd c T vs.length (hl.alignment ▸ hg.held.aligned)
  obtain ⟨s₁,hs,hst,hload⟩ := store_run hg.held.block hhas hdvd
  have hh₁ := hg.held.stored hst hfirst
  obtain ⟨s₂,hw,hst₂,hload₂⟩ := write_header_run hh₁ { h with len := h.len+1, capacity := cap }
  refine ⟨s₁,s₂,hs,hh₁,hst.data,fun hlen =>
    ⟨hw,⟨?_,hl.value_size,hl.alignment,?_,?_,?_⟩,⟨?_,?_⟩,?_,hst₂.data.trans hst.data⟩⟩
  · have hf := hh₁.fits
    refine hh₁.written hst₂ hload₂ ⟨hf.value_size,hf.alignment,?_,hf.capacity⟩ rfl rfl
    rw [hl.len]
    exact hlen
  · simp only [List.length_append, List.length_singleton, hl.len]
  · simpa only [List.length_append, List.length_singleton] using hroom
  · intro i hi
    have hbehind (i : ℕ) : s₂.heap.load (push_address c T s₂.data i) T.size =
        s₁.heap.load (push_address c T s'.data i) T.size := by
      rw [hst₂.data, hst.data]
      refine hst₂.apart _ _ (.inr ?_)
      rw [hst.data]
      exact header_le c T s'.data i
    rw [hbehind]
    rw [List.length_append, List.length_singleton] at hi
    rcases Nat.lt_succ_iff_lt_or_eq.mp hi with hi | rfl
    · rw [hst.apart _ _ (.inl (push_address_le c T s'.data hi)), hl.moved hg hi,
        List.getElem_append_left hi]
    · rw [← hx, hload]
      simp
  · rw [hst₂.others]
    exact hst.others.trans hg.others
  · have h₁ : Untouched (others { h with capacity := cap } s') s'.heap s₁.heap :=
      hst.untouched _ hg.held.block hhas
    have h₂ : Untouched (others { h with capacity := cap } s₁) s₁.heap s₂.heap :=
      hst₂.untouched _ hh₁.block ⟨le_rfl,Nat.add_le_add_left hh₁.room _⟩
    rw [hg.others] at h₁
    rw [hst.others, hg.others] at h₂
    exact (hg.untouched.trans h₁).trans h₂
  · rw [hst₂.log, hst.log, hg.log]

theorem push_run (hl : Live c T h vs s) (hx : x.length = T.size)
    (hlen : vs.length+1 < 2^c.BITS) : Pushed c a T h vs x s (push c a T x s) := by
  have hr := reserve_run (a := a) (n := T.size) hl.held hl.alignment hl.used_lt
  rw [push]
  generalize hres : reserve c a T T.size s = r at hr
  cases hr with
  | assertion hd =>
    rw [bind_error hres]
    exact .assertion hd
  | overflow ho =>
    rw [bind_error hres]
    exact .overflow ho
  | refused =>
    rw [bind_error hres]
    exact .refused _
  | oversize _ ho =>
    rw [bind_error hres]
    exact .oversize ho
  | @ok cap s₁ hg hn hands =>
    rw [bind_ok hres, bind_get]
    by_cases ha : Asserts c T s₁
    swap
    · rw [bind_error (by rw [len_run hg.held.toHeaded, if_neg ha])]
      exact .assertion (assertion_of_not ha)
    have hroom : (header_space c T).size+(vs.length+1)*T.size ≤ cap := by
      have h1 := hl.room
      have h2 := hg.le
      have h3 := hl.len
      rw [Nat.succ_mul]
      rcases hn with h0 | hn
      · omega
      · rw [required_cap, h3] at hn
        omega
    obtain ⟨s₂,s₃,hs,hh,hd,hw⟩ := push_element hl hg hroom hx
    obtain ⟨hwr,hlive,hloc,hlog,hd₃⟩ := hw hlen
    have ha₂ : Asserts c T s₂ := fun h0 => hd ▸ ha h0
    have hl₁ : len c T s₁ = .ok vs.length s₁ := by
      rw [len_run hg.held.toHeaded, if_pos ha, hl.len]
    have hf₂ : from_ref c T s₂ = .ok { h with capacity := cap } s₂ := by
      rw [from_ref_run hh.toHeaded, if_pos ha₂]
    have hu : usize c (h.len+1) s₂ = .ok (h.len+1) s₂ := usize_run (hl.len ▸ hlen) s₂
    rw [bind_ok hl₁, bind_ok hs, bind_ok hf₂, bind_ok hu]
    exact hwr ▸ .ok hlive hloc hlog (hd₃ ▸ hands) ⟨s₁,s₂,hres,hs,hd₃⟩

section Popping

variable {h' : Header M} {ws : List (List β)}

structure Trims (h h' : Header M) (vs : List (List β)) : Prop where
  value_size : h'.value_size = h.value_size
  alignment : h'.alignment = h.alignment
  capacity : h'.capacity = h.capacity
  len : h'.len = vs.length

theorem Live.rewrite (hl : Live c T h (vs++ws) s) (ht : Trims h h' vs) :
    ∃ s', write_header c h' s = .ok () s' ∧ Live c T h' vs s' ∧ Local h s h' s' ∧
      s'.log = s.log ∧ s'.data = s.data ∧
      ∀ i n, s.data+c.header.size ≤ i → s'.heap.load i n = s.heap.load i n := by
  have hlen := hl.len
  rw [List.length_append] at hlen
  have hroom := hl.room
  rw [List.length_append, Nat.add_mul] at hroom
  have hf : h'.Fits c.BITS := by
    have hf := hl.held.fits
    refine ⟨ht.value_size ▸ hf.value_size,ht.alignment ▸ hf.alignment,?_,ht.capacity ▸ hf.capacity⟩
    have := hf.len
    rw [ht.len]
    omega
  obtain ⟨s',hw,hst,hload⟩ := write_header_run hl.held h'
  have hbehind (i n : ℕ) (hi : s.data+c.header.size ≤ i) :
      s'.heap.load i n = s.heap.load i n := hst.apart i n (.inr hi)
  have hown : own h' s = own h s := by rw [own, own, ht.capacity, ht.alignment]
  refine ⟨s',hw,⟨?_,?_,?_,ht.len,?_,?_⟩,⟨?_,?_⟩,hst.log,hst.data,hbehind⟩
  · exact hl.held.written hst hload hf ht.capacity ht.alignment
  · exact ht.value_size.trans hl.value_size
  · exact ht.alignment.trans hl.alignment
  · rw [ht.capacity]
    omega
  · intro i hi
    have hi' : i < (vs++ws).length := by
      rw [List.length_append]
      omega
    rw [hst.data, hbehind _ _ (header_le c T s.data i), hl.stored i hi',
      List.getElem_append_left hi]
  · rw [hst.others, others, others, hown]
  · exact hst.untouched _ hl.held.block ⟨le_rfl,Nat.add_le_add_left hl.held.room _⟩

theorem Live.stored_behind {i n : ℕ} (hl : Live c T h vs s) (hst : Stored s s' i n)
    (hi : push_address c T s.data vs.length ≤ i) (hn : (own h s).Has i n) :
    Live c T h vs s' ∧ Local h s h s' := by
  refine ⟨⟨?_,hl.value_size,hl.alignment,hl.len,hl.room,?_⟩,hst.others,
    hst.untouched _ hl.held.block hn⟩
  · exact hl.held.stored hst ((header_le c T s.data vs.length).trans hi)
  · intro j hj
    rw [hst.data, hst.apart _ _ (.inl ((push_address_le c T s.data hj).trans hi)), hl.stored j hj]

theorem pop_slot_refuses (hh : Held c h s) (ha : ¬ Asserts c U s) :
    pop_slot c U s = .error (.panic .assertion) s := by
  rw [pop_slot, bind_error (by rw [len_run hh.toHeaded, if_neg ha])]

theorem pop_slot_none (hh : Held c h s) (ha : Asserts c U s) (h0 : h.len = 0) :
    pop_slot c U s = .ok none s := by
  have hlen : VecMachine.len c U s = .ok 0 s := by rw [len_run hh.toHeaded, if_pos ha, h0]
  rw [pop_slot, bind_ok hlen, if_pos rfl, pure_run]

theorem pop_slot_last (hl : Live c T h (vs++[x]) s) (ha : Asserts c U s) :
    ∃ s', pop_slot c U s = .ok (some (h.metadata,push_address c T s.data vs.length,x)) s' ∧
      Live c T { h with len := vs.length } vs s' ∧ Local h s { h with len := vs.length } s' ∧
      s'.log = s.log ∧ s'.data = s.data ∧
      s'.heap.load (push_address c T s.data vs.length) T.size = some x := by
  have hlen : h.len = vs.length+1 := by rw [hl.len, List.length_append, List.length_singleton]
  have hi : vs.length < (vs++[x]).length := by simp
  have hload := hl.stored vs.length hi
  have hget : (vs++[x])[vs.length] = x := by simp
  rw [hget, ← hl.value_size] at hload
  have ht : Trims h { h with len := vs.length } vs := ⟨rfl,rfl,rfl,rfl⟩
  obtain ⟨s',hw,hlive,hloc,hlog,hdata,hbehind⟩ := hl.rewrite ht
  have hptr := pop_address hl.value_size hl.alignment s.data vs.length
  have hoff : pop_offset c h vs.length < 2^c.BITS := by
    have h1 := hl.within hi
    have h2 := hl.held.fits.capacity
    omega
  have hl₁ : VecMachine.len c U s = .ok (vs.length+1) s := by
    rw [len_run hl.held.toHeaded, if_pos ha, hlen]
  have hf₁ : from_ref c U s = .ok h s := by rw [from_ref_run hl.held.toHeaded, if_pos ha]
  refine ⟨s',?_,hlive,hloc,hlog,hdata,?_⟩
  · rw [pop_slot, bind_ok hl₁, if_neg (Nat.succ_ne_zero _), bind_ok hf₁, bind_get]
    rw [Nat.add_sub_cancel, bind_ok (usize_run hoff s), hptr]
    rw [bind_ok (load_run hload (Nat.one_dvd _)), bind_ok hw, pure_run]
  · rw [hbehind _ _ (header_le c T s.data vs.length), ← hl.value_size, hload]

theorem call_closure_run (hl : Live c T h vs s)
    (hroom : push_address c T s.data vs.length+T.size ≤ s.data+h.capacity) (hx : x.length = T.size)
    (f : M → ℕ → List β → Answer M Λ β O) {r : Answer M Λ β O}
    (hr : f h.metadata (push_address c T s.data vs.length) x = r) :
    ∃ s', call_closure c f h.metadata (push_address c T s.data vs.length) x s =
        (match r.out with | .ok o => .ok o s' | .error e => .error e s') ∧
      Live c T { h with metadata := r.metadata } vs s' ∧
      Local h s { h with metadata := r.metadata } s' ∧
      s'.log = s.log++r.log.map .closure ∧ s'.data = s.data := by
  have hbytes : ((List.range x.length).map r.bytes).length = T.size := by simp [hx]
  have hhas : (own h s).Has (push_address c T s.data vs.length) T.size := by
    have := header_le c T s.data vs.length
    exact ⟨by simp only [own]; omega,hroom⟩
  obtain ⟨s₁,hs,hst,-⟩ := store_run (l := (List.range x.length).map r.bytes) hl.held.block
    (hbytes ▸ hhas) (Nat.one_dvd _)
  rw [hbytes] at hst
  obtain ⟨hl₁,hloc₁⟩ := hl.stored_behind hst le_rfl hhas
  have hl₁' : Live c T h (vs++[]) s₁ := by rwa [List.append_nil]
  have ht : Trims h { h with metadata := r.metadata } vs := ⟨rfl,rfl,rfl,hl.len⟩
  obtain ⟨s₂,hw,hl₂,hloc₂,hlog₂,hdata₂,-⟩ := hl₁'.rewrite ht
  have hloc := hloc₁.trans hloc₂
  refine ⟨{ s₂ with log := s₂.log++r.log.map .closure },?_,hl₂.relog _,
    ⟨hloc.others,hloc.untouched⟩,?_,?_⟩
  · rw [call_closure]
    simp only [hr]
    rw [bind_ok hs, bind_ok (read_header_run hl₁.held.toHeaded), bind_ok hw, bind_modify]
    cases r.out <;> rfl
  · rw [hlog₂, hst.log]
  · rw [hdata₂, hst.data]

end Popping
end Lockness.VecElements
