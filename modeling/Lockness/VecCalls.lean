import Lockness.VecRoom
import Lockness.VecStack

/-!
# The vecs that a program can reach

The calls are those of the stack, but elements may be of any size and any
number, so that lengths may wrap around. Whatever was called before, header and
elements have room, and what `init` will make of the block depends on a few
numbers in the header.
-/

set_option autoImplicit false

namespace Lockness.VecCalls
open Lockness.PoolRuns Lockness.VecLayout Lockness.VecHeap Lockness.VecMachine Lockness.VecHeader
open Lockness.VecGrowth Lockness.VecElements Lockness.VecLife Lockness.VecRoom Lockness.VecStack

variable {M Λ β : Type}

/-- A vec that was given the element type `T` last, by a program that calls as `from_raw`
allows and whose allocator meets `P`. -/
inductive Reached (c : Target M β) (P : Allocator β → Prop) : Layout → State M Λ β → Prop
  | new {s s' : State M Λ β} {a : Allocator β} {T : Layout} {m : M} : P a → Compiles c T →
      new c a T m s = .ok () s' → Reached c P T s'
  | push {s s' : State M Λ β} {a : Allocator β} {T : Layout} (x : List.Vector β T.size) :
      Reached c P T s → P a → push c a T x.toList s = .ok () s' → Reached c P T s'
  | pop {s s' : State M Λ β} {T : Layout} (U : Layout) {O : Type}
      (f : M → ℕ → List β → Answer M Λ β O) : Reached c P T s →
      (∃ o, pop c U f s = .ok o s') ∨ (∃ p, pop c U f s = .error (.panic p) s') → Reached c P T s'
  | init {s s' : State M Λ β} {a : Allocator β} {T T' : Layout} {m : M} : Reached c P T s → P a →
      Compiles c T' → T' = T ∨ (∀ h, header_of c s = some h → h.len = 0) →
      init c a T' m s = .ok () s' → Reached c P T' s'

variable {c : Target M β} {P : Allocator β → Prop} {a : Allocator β} {T U : Layout}
  {h : Header M} {s s' : State M Λ β} {m : M} {cap : ℕ} {O : Type}

theorem header_of_held (hh : Held c h s) : header_of c s = some h := by
  rw [header_of, hh.load]
  exact c.decode_encode h hh.fits

section Init

theorem fresh_roomy (hh : Held c (fresh c T m cap) s) (hroom : (header_space c T).size ≤ cap) :
    Roomy c T (fresh c T m cap) s where
  held := hh
  value_size := rfl
  alignment := header_alignment_eq c T
  room := by simpa [fresh] using hroom

/-- The capacity that `init` leaves when it returns. -/
def init_capacity (c : Target M β) (a : Allocator β) (T : Layout) (h : Header M)
    (s : State M Λ β) : ℕ :=
  if s.data = dangling c T ∨ h.alignment ≠ (header_space c T).align then MIN_NON_ZERO_CAP c T
  else if MIN_NON_ZERO_CAP c T ≤ h.capacity ∨
      required_cap c T h (MIN_NON_ZERO_CAP c T-h.capacity) ≤ h.capacity then h.capacity
  else if a.realloc s.heap (own h s) (new_capacity c T h (MIN_NON_ZERO_CAP c T-h.capacity)) =
      dangling c T then MIN_NON_ZERO_CAP c T
  else new_capacity c T h (MIN_NON_ZERO_CAP c T-h.capacity)

theorem placed_fresh (hd : s.data = dangling c T) (hp : place c a T m s = .ok () s') :
    Roomy c T (fresh c T m (MIN_NON_ZERO_CAP c T)) s' := by
  rcases place_fresh (a := a) hd m with ⟨-,hr⟩ | hr | ⟨s₁,hr,hh,-⟩ <;> rw [hr] at hp <;> cases hp
  exact fresh_roomy hh (min_le c T)

theorem new_returns (hn : new c a T m s = .ok () s') :
    Roomy c T (fresh c T m (MIN_NON_ZERO_CAP c T)) s' ∧
      others (fresh c T m (MIN_NON_ZERO_CAP c T)) s' = s.heap.blocks ∧
      Untouched s.heap.blocks s.heap s'.heap ∧ s'.log = s.log ∧ a.Hands s'.data := by
  rw [VecMachine.new, bind_modify, init_placed (make_room_dangling rfl)] at hn
  rcases place_fresh (a := a) (c := c) (T := T) (s := { s with data := dangling c T }) rfl m with
    ⟨-,hf⟩ | hf | ⟨s₂,hf,hh,hrest⟩ <;> rw [hf] at hn <;> cases hn
  exact ⟨fresh_roomy hh (min_le c T),hrest⟩

theorem placed_kept (hh : Held c h s) (hd : s.data ≠ dangling c T)
    (ha : h.alignment = (header_space c T).align) (hroom : (header_space c T).size ≤ h.capacity)
    (hp : place c a T m s = .ok () s') : Roomy c T (fresh c T m h.capacity) s' := by
  obtain ⟨s₁,hr,hh',-⟩ := place_kept (a := a) hh hd ha hroom m
  rw [hr] at hp
  split at hp <;> cases hp
  exact fresh_roomy hh' hroom

theorem init_used (ht : Compiles c T) (hr : Roomy c U h s) (hlegal : T = U ∨ h.len = 0) :
    h.len*T.size+(header_space c T).size < 2^c.BITS := by
  rcases hlegal with rfl | h0
  · exact hr.used_lt
  · rw [h0, Nat.zero_mul, Nat.zero_add]
    exact (min_le c T).trans_lt ht

theorem reserve_returns {n : ℕ} (hh : Held c h s) (ha : h.alignment = (header_space c T).align)
    (hused : h.len*T.size+(header_space c T).size < 2^c.BITS) (hn : n ≠ 0)
    (hr : reserve c a T n s = .ok () s') :
    required_cap c T h n ≤ h.capacity ∧ s' = s ∨
    h.capacity < required_cap c T h n ∧ Grown c h s (new_capacity c T h n) s' ∧
      s'.data = a.realloc s.heap (own h s) (new_capacity c T h n) := by
  by_cases has : Asserts c T s
  swap
  · rw [reserve_assertion hh hn has] at hr
    cases hr
  by_cases hreq : required_cap c T h n < 2^c.BITS
  swap
  · rw [reserve_overflow hh hused hn has (Nat.not_lt.mp hreq)] at hr
    cases hr
  by_cases hlt : h.capacity < required_cap c T h n
  swap
  · rw [reserve_fits hh hused hn has (Nat.not_lt.mp hlt)] at hr
    cases hr
    exact .inl ⟨Nat.not_lt.mp hlt,rfl⟩
  by_cases hl : Legal c (new_capacity c T h n) h.alignment
  swap
  · rw [reserve_oversize hh hused ha hn has hreq hlt hl] at hr
    cases hr
  rcases reserve_grows (a := a) hh hused ha hn has hreq hlt hl with
    ⟨-,hg⟩ | ⟨s₁,hg,hgrown,hdata,-⟩ | ⟨_,_,hg,-⟩ <;> rw [hg] at hr <;> cases hr
  exact .inr ⟨hlt,hgrown,hdata⟩

theorem init_parts (hi : init c a T m s = .ok () s') :
    ∃ s₁, make_room c a T s = .ok () s₁ ∧ place c a T m s₁ = .ok () s' := by
  cases hx : make_room c a T s with
  | ok _ s₁ => exact ⟨s₁,rfl,init_placed hx m ▸ hi⟩
  | error e s₁ =>
    obtain ⟨_,_,hu,-⟩ := unwinding_error (c := c) hx m
    rw [init, bind_error hu] at hi
    cases hi

theorem make_room_alike {s₁ : State M Λ β} (hh : Held c h s) (hd : s.data ≠ dangling c T)
    (ha : h.alignment = (header_space c T).align)
    (hused : h.len*T.size+(header_space c T).size < 2^c.BITS)
    (hx : make_room c a T s = .ok () s₁) :
    ∃ cap, Grown c h s cap s₁ ∧ (header_space c T).size ≤ cap ∧
      ((MIN_NON_ZERO_CAP c T ≤ h.capacity ∨
          required_cap c T h (MIN_NON_ZERO_CAP c T-h.capacity) ≤ h.capacity) ∧
        cap = h.capacity ∧ s₁ = s ∨
      ¬ (MIN_NON_ZERO_CAP c T ≤ h.capacity ∨
          required_cap c T h (MIN_NON_ZERO_CAP c T-h.capacity) ≤ h.capacity) ∧
        cap = new_capacity c T h (MIN_NON_ZERO_CAP c T-h.capacity) ∧
        s₁.data = a.realloc s.heap (own h s) cap) := by
  have hmin := min_le c T
  have hreq (n : ℕ) : (header_space c T).size ≤ required_cap c T h n := by
    rw [required_cap]
    omega
  rw [make_room_kept hh hd ha] at hx
  split at hx
  · have hn : MIN_NON_ZERO_CAP c T-h.capacity ≠ 0 := by omega
    rcases reserve_returns hh ha hused hn hx with ⟨hfit,rfl⟩ | ⟨hlt,hg,hdata⟩
    · exact ⟨_,.refl hh,(hreq _).trans hfit,.inl ⟨.inr hfit,rfl,rfl⟩⟩
    · exact ⟨_,hg,(hreq _).trans (le_max_right _ _),.inr ⟨by omega,rfl,hdata⟩⟩
  · cases hx
    have hle := Nat.not_lt.mp ‹_›
    exact ⟨_,.refl hh,hmin.trans hle,.inl ⟨.inl hle,rfl,rfl⟩⟩

theorem init_returns (ht : Compiles c T) (hr : Roomy c U h s) (hlegal : T = U ∨ h.len = 0)
    (hi : init c a T m s = .ok () s') :
    Roomy c T (fresh c T m (init_capacity c a T h s)) s' := by
  obtain ⟨s₁,hx,hp⟩ := init_parts hi
  rw [init_capacity]
  by_cases hd : s.data = dangling c T
  · rw [make_room_dangling hd] at hx
    cases hx
    rw [if_pos (.inl hd)]
    exact placed_fresh hd hp
  by_cases ha : h.alignment = (header_space c T).align
  swap
  · rw [make_room_replaced hr.held hd ha] at hx
    split at hx <;> cases hx
    rw [if_pos (.inr ha)]
    exact placed_fresh rfl hp
  rw [if_neg (by simp [hd,ha])]
  obtain ⟨cap,hg,hroom,⟨hfit,rfl,rfl⟩ | ⟨hfit,rfl,hdata⟩⟩ :=
    make_room_alike hr.held hd ha (init_used ht hr hlegal) hx
  · rw [if_pos hfit]
    exact placed_kept hr.held hd ha hroom hp
  · rw [if_neg hfit, ← hdata]
    split
    · exact placed_fresh ‹_› hp
    · exact placed_kept hg.held ‹_› ha hroom hp

/-- With an allocator that uses no address of a dangling pointer, `init` keeps the one block or
releases it for another, and drops the old metadata. -/
theorem init_hands_over (hP : Unmarked c a) (ht : Compiles c T) (hr : Roomy c U h s)
    (hlegal : T = U ∨ h.len = 0) (hd : s.data ≠ dangling c T)
    (hi : init c a T m s = .ok () s') :
    ∃ cap, Roomy c T (fresh c T m cap) s' ∧ Local h s (fresh c T m cap) s' ∧
      s'.log = s.log++[.drop_metadata h.metadata] ∧ (s'.data = s.data ∨ a.Hands s'.data) := by
  obtain ⟨s₁,hx,hp⟩ := init_parts hi
  by_cases ha : h.alignment = (header_space c T).align
  swap
  · rw [make_room_replaced hr.held hd ha] at hx
    split at hx <;> cases hx
    rcases place_fresh (a := a) (c := c) (T := T) (s := released c T h s) rfl m with
      ⟨-,hf⟩ | hf | ⟨s₂,hf,hh,ho,hun,hlog,hhands⟩ <;> rw [hf] at hp <;> cases hp
    exact ⟨_,fresh_roomy hh (min_le c T),⟨ho,hun⟩,hlog,.inr hhands⟩
  obtain ⟨cap,hg,hroom,hcap⟩ := make_room_alike hr.held hd ha (init_used ht hr hlegal) hx
  have hhands : s₁.data = s.data ∨ a.Hands s₁.data := by
    rcases hcap with ⟨-,-,rfl⟩ | ⟨-,-,hdata⟩
    · exact .inl rfl
    · exact .inr (.inr ⟨_,_,_,hdata⟩)
  have hd₁ : s₁.data ≠ dangling c T := by
    rcases hhands with h0 | h0
    · exact h0.symm ▸ hd
    · exact hP _ h0 T
  obtain ⟨s₂,hk,hh,ho,hun,hlog,hdata⟩ := place_kept (a := a) hg.held hd₁ ha hroom m
  rw [hk] at hp
  split at hp <;> cases hp
  rw [hg.log] at hlog
  have hloc : Local { h with capacity := cap } s₁ (fresh c T m cap) _ := ⟨ho,hun⟩
  exact ⟨cap,fresh_roomy hh hroom,(local_of_grown hg).trans hloc,hlog,hdata.symm ▸ hhands⟩

theorem init_fails {e : Stop} (hab : e ≠ .abort) (hpa : ∀ p, e ≠ .panic p)
    (hi : init c a T m s = .error e s') :
    (∃ s₁, make_room c a T s = .error e s₁) ∨
    ∃ s₁, make_room c a T s = .ok () s₁ ∧ place c a T m s₁ = .error e s' := by
  cases hx : make_room c a T s with
  | ok _ s₁ => exact .inr ⟨s₁,rfl,init_placed hx m ▸ hi⟩
  | error e' s₁ =>
    by_cases hne : ∀ p, e' ≠ .panic p
    · rw [init_stops hx hne, EStateM.Result.error.injEq] at hi
      exact .inl ⟨s₁,by rw [hi.1]⟩
    · simp only [Classical.not_forall, not_not] at hne
      obtain ⟨p,rfl⟩ := hne
      rw [init_unwinds hx, EStateM.Result.error.injEq] at hi
      split at hi
      · exact absurd hi.1.symm hab
      · exact absurd hi.1.symm (hpa p)

theorem init_never {e : Stop} (hab : e ≠ .abort) (hpa : ∀ p, e ≠ .panic p) (ht : Compiles c T)
    (hr : Roomy c U h s) (hlegal : T = U ∨ h.len = 0)
    (hplace : ∀ s₁ : State M Λ β, s₁.data = dangling c T → place c a T m s₁ ≠ .error e s')
    (hgrow : h.alignment = (header_space c T).align → h.capacity < MIN_NON_ZERO_CAP c T →
      ∀ s₁, reserve c a T (MIN_NON_ZERO_CAP c T-h.capacity) s ≠ .error e s₁) :
    init c a T m s ≠ .error e s' := by
  intro hi
  by_cases hd : s.data = dangling c T
  · rcases init_fails hab hpa hi with ⟨s₁,hx⟩ | ⟨s₁,hx,hp⟩ <;> rw [make_room_dangling hd] at hx <;>
      cases hx
    exact hplace s hd hp
  by_cases ha : h.alignment = (header_space c T).align
  swap
  · rcases init_fails hab hpa hi with ⟨s₁,hx⟩ | ⟨s₁,hx,hp⟩ <;>
      rw [make_room_replaced hr.held hd ha] at hx <;> split at hx
    · cases hx
      exact hpa _ rfl
    · cases hx
    · cases hx
    · cases hx
      exact hplace _ rfl hp
  rcases init_fails hab hpa hi with ⟨s₁,hx⟩ | ⟨s₁,hx,hp⟩
  · rw [make_room_kept hr.held hd ha] at hx
    split at hx
    · exact hgrow ha ‹_› s₁ hx
    · cases hx
  · obtain ⟨cap,hg,hroom,-⟩ := make_room_alike hr.held hd ha (init_used ht hr hlegal) hx
    by_cases hd₁ : s₁.data = dangling c T
    · exact hplace s₁ hd₁ hp
    · obtain ⟨_,hp',-⟩ := place_kept (a := a) hg.held hd₁ ha hroom m
      rw [hp'] at hp
      split at hp <;> cases hp
      exact hpa _ rfl

theorem place_defined (hd : s.data = dangling c T) : place c a T m s ≠ .error .ub s' := by
  rcases place_fresh (a := a) hd m with ⟨-,hr⟩ | hr | ⟨s₁,hr,-⟩ <;> rw [hr] <;> nofun

theorem init_defined (ht : Compiles c T) (hr : Roomy c U h s) (hlegal : T = U ∨ h.len = 0) :
    init c a T m s ≠ .error .ub s' := by
  refine init_never (by decide) (fun _ h => nomatch h) ht hr hlegal (fun _ => place_defined)
    (fun ha _ s₁ hres => ?_)
  have hs := reserve_safely (a := a) (n := MIN_NON_ZERO_CAP c T-h.capacity) hr.held ha
    (init_used ht hr hlegal)
  rwa [hres] at hs

end Init

section Reached

theorem pop_asserts {r : EStateM.Result Stop (State M Λ β) (Option O)}
    {f : M → ℕ → List β → Answer M Λ β O} (hh : Held c h s) (ha : ¬ Asserts c U s)
    (hp : pop c U f s = r) : r = .error (.panic .assertion) s := by
  rw [← hp, pop, bind_error (pop_slot_refuses hh ha)]

theorem push_defined {x : List β} (hr : Roomy c T h s) (hx : x.length = T.size) :
    push c a T x s ≠ .error .ub s' := by
  have hs := push_safely (a := a) hr hx
  intro hp
  rwa [hp] at hs

theorem pop_defined {f : M → ℕ → List β → Answer M Λ β O} (hr : Roomy c T h s)
    (hp : pop c U f s = .error .ub s') : ∃ m ptr x, (f m ptr x).out = .error .ub := by
  by_cases ha : Asserts c U s
  swap
  · cases pop_asserts hr.held ha hp
  by_cases h0 : h.len = 0
  · rw [pop, bind_ok (pop_slot_none hr.held ha h0)] at hp
    cases hp
  · obtain ⟨ptr,x,-,s₁,-,-,hrun,-⟩ := pop_some hr ha h0 f
    rw [hrun] at hp
    cases hout : (f h.metadata ptr x).out with
    | ok o =>
      rw [hout] at hp
      cases hp
    | error e =>
      rw [hout] at hp
      cases hp
      exact ⟨_,ptr,x,hout⟩

theorem drop_defined (hh : Held c h s) : VecMachine.drop c U s ≠ .error .ub s' := by
  by_cases hd : s.data = dangling c U
  · simp [drop_dangling hd]
  by_cases hempty : c.debug_assertions = true → h.len = 0
  · rw [drop_releases hh hd hempty]
    split <;> simp
  · rw [Classical.not_imp] at hempty
    simp [drop_asserts hh hd hempty.1 hempty.2]

theorem pop_reaches {f : M → ℕ → List β → Answer M Λ β O} (hr : Roomy c T h s)
    (hp : (∃ o, pop c U f s = .ok o s') ∨ ∃ p, pop c U f s = .error (.panic p) s') :
    ∃ h', Roomy c T h' s' := by
  by_cases ha : Asserts c U s
  swap
  · rcases hp with ⟨_,hp⟩ | ⟨_,hp⟩ <;> cases pop_asserts hr.held ha hp
    exact ⟨h,hr⟩
  by_cases h0 : h.len = 0
  · have hrun : pop c U f s = .ok none s := by
      rw [pop, bind_ok (pop_slot_none hr.held ha h0)]
      rfl
    rcases hp with ⟨_,hp⟩ | ⟨_,hp⟩ <;> rw [hrun] at hp <;> cases hp
    exact ⟨h,hr⟩
  · obtain ⟨ptr,x,-,s₁,-,-,hrun,hr₁,-⟩ := pop_some hr ha h0 f
    cases hout : (f h.metadata ptr x).out <;> rw [hout] at hrun <;>
      rcases hp with ⟨_,hp⟩ | ⟨_,hp⟩ <;> rw [hrun] at hp <;> cases hp <;> exact ⟨_,hr₁⟩

theorem roomy_of_reached (hs : Reached c P T s) : ∃ h, Roomy c T h s := by
  induction hs with
  | @new s s' a T m _ ht hn =>
    rw [VecMachine.new, bind_modify] at hn
    obtain ⟨s₁,hx,hp⟩ := init_parts hn
    rw [make_room_dangling rfl] at hx
    cases hx
    exact ⟨_,placed_fresh rfl hp⟩
  | @push s s' a T x _ _ hp ih =>
    obtain ⟨h,hr⟩ := ih
    have hs := push_safely (a := a) hr x.toList_length
    rw [hp] at hs
    obtain ⟨h',hr',-⟩ := hs
    exact ⟨h',hr'⟩
  | pop U f _ hp ih =>
    obtain ⟨h,hr⟩ := ih
    exact pop_reaches hr hp
  | init _ _ ht hlegal hi ih =>
    obtain ⟨h,hr⟩ := ih
    exact ⟨_,init_returns ht hr (hlegal.imp_right (fun h0 => h0 h (header_of_held hr.held))) hi⟩

theorem reached_of_run {heap : Heap β} {es : List (Event M β)} {sys : System M Λ β}
    (hrun : Steps (Call c P) ⟨heap,[],none⟩ es sys) :
    ∀ v, sys.vec = some v → Reached c P v.ty ⟨sys.heap,v.data,sys.log⟩ := by
  induction hrun with
  | refl => exact fun v hv => nomatch hv
  | next _ hone ih =>
    intro v hv
    cases hone with
    | new ha ht hn =>
      cases hv
      exact .new ha ht hn
    | push x ha hp =>
      cases hv
      have hs := ih _ rfl
      exact .push x hs ha hp
    | @pop_none s s' T U hp =>
      cases hv
      have hs := ih _ rfl
      refine .pop U (fun m _ _ => ⟨m,s.heap.bytes,[],.ok ()⟩ : M → ℕ → List β → Answer M Λ β Unit)
        hs (.inl ⟨none,?_⟩)
      rw [VecMachine.pop]
      exact bind_ok hp
    | pop f hs' hp =>
      cases hv
      have hs := ih _ rfl
      rcases hp with ⟨o,ho⟩ | he
      · exact .pop _ f hs (.inl ⟨some o,ho⟩)
      · exact .pop _ f hs (.inr he)
    | init ha ht hlegal hi =>
      cases hv
      have hs := ih _ rfl
      exact .init hs ha ht hlegal hi
    | drop => cases hv

end Reached

end Lockness.VecCalls
