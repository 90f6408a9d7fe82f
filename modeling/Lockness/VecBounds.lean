import Lockness.VecCalls

/-!
# The vec stays inside its block

Header and elements fit the block at all times, `pop` looks where `push` has
written, and neither touches a byte of another block. Accesses elsewhere are
undefined in the model, so that it is enough for all operations to be defined.
-/

set_option autoImplicit false

namespace Lockness.VecBounds
open Lockness.PoolRuns Lockness.VecLayout Lockness.VecHeap Lockness.VecMachine Lockness.VecHeader
open Lockness.VecGrowth Lockness.VecElements Lockness.VecLife Lockness.VecRoom Lockness.VecStack
open Lockness.VecCalls

variable {M Λ β : Type}

/-- In a block of `cap` bytes at `data` that holds `len` elements there is a place for the next
one. -/
structure Place (c : Target M β) (T : Layout) (data cap len : ℕ) : Prop where
  aligned : T.align ∣ push_address c T data len
  behind : data+(header_space c T).size ≤ push_address c T data len
  apart : ∀ i < len, push_address c T data i+T.size ≤ push_address c T data len
  within : push_address c T data len+T.size ≤ data+cap

/-- A vec of the elements `T` with the header `h`. -/
structure Inside (c : Target M β) (T : Layout) (h : Header M) (s : State M Λ β) : Prop where
  header : header_of c s = some h
  block : (⟨s.data,h.capacity,(header_space c T).align⟩ : Block) ∈ s.heap.blocks
  room : (header_space c T).size+h.len*T.size ≤ h.capacity
  found : ∀ i < h.len, s.data+pop_offset c h i = push_address c T s.data i
  popped : ∀ U m ptr x s', pop_slot c U s = .ok (some (m,ptr,x)) s' →
    ptr = push_address c T s.data (h.len-1)
  pop_defined : ∀ U O (f : M → ℕ → List β → Answer M Λ β O) s',
    pop c U f s = .error .ub s' → ∃ m ptr x, (f m ptr x).out = .error .ub
  pushed : ∀ a x s', x.length = T.size → h.len+1 < 2^c.BITS → push c a T x s = .ok () s' →
    Written c a T x h.len s s' ∧ ∃ cap,
      (⟨s'.data,cap,(header_space c T).align⟩ : Block) ∈ s'.heap.blocks ∧
      Place c T s'.data cap h.len ∧
      Untouched (s.heap.blocks.erase ⟨s.data,h.capacity,(header_space c T).align⟩) s.heap s'.heap
  push_defined : ∀ a x s', x.length = T.size → h.len+1 < 2^c.BITS →
    push c a T x s ≠ .error .ub s'
  init_defined : ∀ a T' m s', Element c T' → h.len = 0 ∨ T' = T →
    init c a T' m s ≠ .error .ub s'
  drop_defined : ∀ U s', drop c U s ≠ .error .ub s'

variable {c : Target M β} {P : Allocator β → Prop} {T U : Layout} {h : Header M}
  {vs : List (List β)} {s s' : State M Λ β} {a : Allocator β} {x : List β}

theorem own_of_live (hl : Live c T h vs s) :
    own h s = ⟨s.data,h.capacity,(header_space c T).align⟩ := by rw [own, hl.alignment]

theorem Place.of_live (hl : Live c T h (vs++[x]) s) : Place c T s.data h.capacity vs.length where
  aligned := push_address_dvd c T _ (hl.alignment ▸ hl.held.aligned)
  behind := Nat.le_add_right _ _
  apart := fun _ hi => push_address_le c T s.data hi
  within := hl.within (by simp)

theorem popped_at {m : M} {ptr : ℕ} (hl : Live c T h vs s)
    (hp : pop_slot c U s = .ok (some (m,ptr,x)) s') :
    ptr = push_address c T s.data (h.len-1) := by
  have ha := asserts_of_pop_slot hl hp
  rcases List.eq_nil_or_concat vs with rfl | ⟨ws,y,rfl⟩
  · rw [pop_slot_none hl.held ha hl.len] at hp
    cases hp
  · rw [List.concat_eq_append] at hl
    obtain ⟨s₁,hs,-⟩ := pop_slot_last hl ha
    rw [hs] at hp
    cases hp
    rw [hl.len, List.length_append, List.length_singleton, Nat.add_sub_cancel]

theorem pushed_at (hl : Live c T h vs s) (hx : x.length = T.size) (hlen : h.len+1 < 2^c.BITS)
    (hp : push c a T x s = .ok () s') : Written c a T x h.len s s' ∧ ∃ cap,
      (⟨s'.data,cap,(header_space c T).align⟩ : Block) ∈ s'.heap.blocks ∧
      Place c T s'.data cap h.len ∧
      Untouched (s.heap.blocks.erase ⟨s.data,h.capacity,(header_space c T).align⟩) s.heap
        s'.heap := by
  rw [hl.len] at hlen ⊢
  obtain ⟨cap,hl',hloc,-,-,hw⟩ := push_returns hl hx hlen hp
  have hblock := hl'.held.block
  rw [own_of_live hl'] at hblock
  have hun := hloc.untouched
  rw [others, own_of_live hl] at hun
  exact ⟨hw,cap,hblock,.of_live hl',hun⟩

theorem Inside.of_live (hl : Live c T h vs s) : Inside c T h s where
  header := header_of_live hl
  block := own_of_live hl ▸ hl.held.block
  room := hl.len ▸ hl.room
  found := fun i _ => pop_address hl.value_size hl.alignment s.data i
  popped := fun _ _ _ _ _ => popped_at hl
  pop_defined := fun _ _ _ _ => VecCalls.pop_defined (roomy_of_live hl)
  pushed := fun _ _ _ => pushed_at hl
  push_defined := fun _ _ _ hx _ => VecCalls.push_defined (roomy_of_live hl) hx
  init_defined := fun _ _ _ _ ht hlegal =>
    VecCalls.init_defined ht.min (roomy_of_live hl) hlegal.symm
  drop_defined := fun _ _ => VecCalls.drop_defined hl.held

theorem live_of_run {heap : Heap β} {es : List (Event M β)} {s : System M Λ β} {v : Vec}
    (hrun : Steps (Step c P) ⟨heap,[],none⟩ es s) (hv : s.vec = some v) :
    ∃ h vs, Live c v.ty h vs ⟨s.heap,v.data,s.log⟩ := by
  obtain ⟨k,-,hr⟩ := stack_run hrun
  obtain ⟨heap',log,vec⟩ := s
  subst hv
  obtain ⟨h,vs,-,hl⟩ := represents_some (s := ⟨heap',v.data,log⟩) hr
  exact ⟨h,vs,hl⟩

/-- In every state that a program reaches, its vec is inside its block. -/
theorem stays_inside {heap : Heap β} {es : List (Event M β)} {s : System M Λ β} {v : Vec}
    (hrun : Steps (Step c P) ⟨heap,[],none⟩ es s) (hv : s.vec = some v) :
    ∃ h, Inside c v.ty h ⟨s.heap,v.data,s.log⟩ := by
  obtain ⟨h,vs,hl⟩ := live_of_run hrun hv
  exact ⟨h,.of_live hl⟩

/-- A block of four small elements, grown for two larger ones. -/
theorem stays_inside_reused : ∃ t : State ℕ Unit (Header ℕ ⊕ ℕ),
    Steps (Step (sample ℕ true) (fun _ => True)) ⟨blank ℕ,[],none⟩
      [.new short 5,.init long 8,.push (item 1).toList,.push (item 2).toList]
      (owning long t) ∧
    (∃ h, header_of (sample ℕ true) t = some h ∧ h.len = 2 ∧ h.capacity = 64) ∧
    ∃ h, Inside (sample ℕ true) long h t := by
  obtain ⟨_,h₁,_,h₂,_,h₃,t,h₄,hh⟩ : ∃ s₁ : System ℕ Unit (Header ℕ ⊕ ℕ),
      Step (sample ℕ true) (fun _ => True) ⟨blank ℕ,[],none⟩ (.new short 5) s₁ ∧
      ∃ s₂, Step (sample ℕ true) (fun _ => True) s₁ (.init long 8) s₂ ∧
      ∃ s₃, Step (sample ℕ true) (fun _ => True) s₂ (.push (item 1).toList) s₃ ∧
      ∃ t, Step (sample ℕ true) (fun _ => True) s₃ (.push (item 2).toList)
          (owning long t) ∧
        ∃ h, header_of (sample ℕ true) t = some h ∧ h.len = 2 ∧ h.capacity = 64 := by
    refine ⟨_,⟨.new (a := shelf ℕ) trivial (by decide) rfl,(by decide : short.size < 2^32)⟩,?_⟩
    refine ⟨_,⟨.init (a := shelf ℕ) trivial (by decide) (.inr (by rintro h ⟨⟩; rfl)) rfl,
      (by decide : long.size < 2^32)⟩,?_⟩
    refine ⟨_,⟨.push (a := shelf ℕ) (item 1) trivial rfl,by rintro _ h ⟨⟩ ⟨⟩; decide⟩,?_⟩
    refine ⟨_,⟨.push (a := shelf ℕ) (item 2) trivial rfl,by rintro _ h ⟨⟩ ⟨⟩; decide⟩,?_⟩
    exact ⟨_,rfl,rfl,rfl⟩
  have hs := (((Steps.refl.next h₁).next h₂).next h₃).next h₄
  exact ⟨t,hs,hh,stays_inside hs rfl⟩

end Lockness.VecBounds
