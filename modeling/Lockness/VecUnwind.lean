import Lockness.VecCalls

/-!
# When a metadata destructor panics in `init`

`init` drops the old metadata after it has written the new header over the old
one, or, when it replaces a block of another alignment, after it has released the
block. The vec is whole in the first case and has no block in the second. There
the methods rely on a debug assertion; without it they read the header of a block
that is not there.
-/

set_option autoImplicit false

namespace Lockness.VecUnwind
open Lockness.PoolRuns Lockness.VecLayout Lockness.VecHeap Lockness.VecMachine Lockness.VecHeader
open Lockness.VecGrowth Lockness.VecElements Lockness.VecLife Lockness.VecRoom Lockness.VecStack
open Lockness.VecCalls

variable {M Λ β : Type}

/-- A call of a safe method at the element type `T`. -/
inductive Method (M Λ β : Type) (T : Layout) : Type 1 where
  | is_empty
  | push (a : Allocator β) (x : List.Vector β T.size)
  | pop (O : Type) (f : M → ℕ → List β → Answer M Λ β O)
  | init (a : Allocator β) (m : M)

def Method.run (c : Target M β) {T : Layout} : Method M Λ β T → VecM M Λ β Unit
  | .is_empty => do let _ ← VecMachine.is_empty c T
  | .push a x => VecMachine.push c a T x.toList
  | .pop _ f => do let _ ← VecMachine.pop c T f
  | .init a m => VecMachine.init c a T m

/-- What safe code can pass: a closure whose behaviour is defined. -/
def Method.Sound {T : Layout} : Method M Λ β T → Prop
  | .pop _ f => ∀ m ptr x, (f m ptr x).out ≠ .error .ub
  | _ => True

/-- A call after which the program goes on, its panic caught if it has panicked. -/
inductive Uses (c : Target M β) (T : Layout) : State M Λ β → Method M Λ β T → State M Λ β → Prop
  | returns {s s' : State M Λ β} {call : Method M Λ β T} : call.Sound →
      call.run c s = .ok () s' → Uses c T s call s'
  | panics {s s' : State M Λ β} {call : Method M Λ β T} {p : Panic} : call.Sound →
      call.run c s = .error (.panic p) s' → Uses c T s call s'

/-- Besides the blocks `bs` there are at most some at the address of a dangling pointer, which
the vec has taken for none. -/
def Left (c : Target M β) (T : Layout) (bs bs' : List Block) : Prop :=
  ∃ extra, bs'.Perm (extra++bs) ∧ ∀ b ∈ extra, b.addr = dangling c T

/-- The vec has room, or has no block and assertions that tell. -/
def Fit (c : Target M β) (T : Layout) (bs : List Block) (s : State M Λ β) : Prop :=
  (∃ h, Roomy c T h s ∧ Left c T bs (others h s)) ∨
  c.debug_assertions = true ∧ s.data = dangling c T ∧ Left c T bs s.heap.blocks

variable {c : Target M β} {P : Allocator β → Prop} {a : Allocator β} {T U : Layout}
  {h : Header M} {s s' s₀ : State M Λ β} {m : M} {x : List β} {bs bs' : List Block} {p p₀ : Panic}

section Left

theorem left_refl (c : Target M β) (T : Layout) (bs : List Block) : Left c T bs bs :=
  ⟨[],.refl _,fun _ hb => nomatch hb⟩

theorem Left.perm {cs : List Block} (hl : Left c T bs bs') (hp : cs.Perm bs') : Left c T bs cs := by
  obtain ⟨extra,hperm,haddr⟩ := hl
  exact ⟨extra,hp.trans hperm,haddr⟩

theorem Left.cons {b : Block} (hl : Left c T bs bs') (hb : b.addr = dangling c T) :
    Left c T bs (b :: bs') := by
  obtain ⟨extra,hperm,haddr⟩ := hl
  refine ⟨b :: extra,hperm.cons b,fun b' hb' => ?_⟩
  rcases List.mem_cons.mp hb' with rfl | hb'
  · exact hb
  · exact haddr b' hb'

theorem Left.forgets (hl : Left c T bs (others h s)) (hh : Held c h s)
    (hd : s.data = dangling c T) : Left c T bs s.heap.blocks :=
  (hl.cons (b := own h s) hd).perm (List.perm_cons_erase hh.block)

end Left

section Steps

theorem fit_of_owns (hl : Left c T bs bs') (ho : Owns c T bs' s) : Fit c T bs s := by
  obtain ⟨h,hr,ho⟩ := ho
  exact .inl ⟨h,hr,ho.symm ▸ hl⟩

theorem fit_of_lost (hl : Left c T bs bs') (ho : Lost c T bs' s) : Fit c T bs s := by
  obtain ⟨hdbg,hd,b,hb,hblocks⟩ := ho
  exact .inr ⟨hdbg,hd,hblocks ▸ hl.cons hb⟩

theorem Fit.relog (hf : Fit c T bs s) (l : List (Effect M Λ)) : Fit c T bs { s with log := l } := by
  rcases hf with ⟨h,hr,hl⟩ | ⟨hdbg,hd,hl⟩
  · exact .inl ⟨h,hr.relog l,hl⟩
  · exact .inr ⟨hdbg,hd,hl⟩

abbrev StaysFit (c : Target M β) (T : Layout) (bs : List Block) {α : Type} :
    EStateM.Result Stop (State M Λ β) α → Prop := Safely (Fit c T bs) (Fit c T bs)

theorem len_none (hdbg : c.debug_assertions = true) (hd : s.data = dangling c T) :
    len c T s = .error (.panic .assertion) s := by
  have hrun := assert_run c T s
  rw [if_neg (fun ha => ha hdbg hd)] at hrun
  rw [len, bind_is_allocated, bind_error hrun]

theorem discards {α : Type} {y : VecM M Λ β α} (hk : StaysFit c T bs (y s)) :
    StaysFit c T bs ((do let _ ← y : VecM M Λ β Unit) s) := by
  generalize hr : y s = r at hk
  cases r with
  | ok o s' =>
    rw [bind_ok hr]
    exact hk
  | error e s' =>
    rw [bind_error hr]
    exact hk.of_error id

theorem place_fresh_keeps (hd : s.data = dangling c T) (hl : Left c T bs s.heap.blocks) :
    StaysFit c T bs (place c a T m s) := by
  rcases place_fresh (a := a) hd m with ⟨-,hr⟩ | hr | ⟨s₁,hr,hh,ho,-⟩ <;> rw [hr]
  · trivial
  · trivial
  · exact .inl ⟨_,fresh_roomy hh (min_le c T),ho.symm ▸ hl⟩

theorem place_kept_keeps (hh : Held c h s) (hd : s.data ≠ dangling c T)
    (ha : h.alignment = (header_space c T).align) (hroom : (header_space c T).size ≤ h.capacity)
    (hl : Left c T bs (others h s)) : StaysFit c T bs (place c a T m s) := by
  obtain ⟨s₁,hr,hh',ho,-⟩ := place_kept (a := a) hh hd ha hroom m
  have hfit : Fit c T bs s₁ := .inl ⟨_,fresh_roomy hh' hroom,ho.symm ▸ hl⟩
  rw [hr]
  split <;> exact hfit

theorem init_keeps (hx : ∀ s₁, make_room c a T s = .ok () s₁ → StaysFit c T bs (place c a T m s₁))
    (he : ∀ p s₁, make_room c a T s = .error (.panic p) s₁ → Fit c T bs s₁)
    (hub : ∀ s₁, make_room c a T s ≠ .error .ub s₁) : StaysFit c T bs (init c a T m s) := by
  cases hrun : make_room c a T s with
  | ok _ s₁ => exact init_placed hrun m ▸ hx s₁ hrun
  | error e s₁ =>
    cases e with
    | panic p =>
      rw [init_unwinds hrun]
      split
      · trivial
      · exact (he p s₁ hrun).relog _
    | abort =>
      rw [init_stops hrun (fun _ he => nomatch he)]
      trivial
    | oversize =>
      rw [init_stops hrun (fun _ he => nomatch he)]
      trivial
    | ub => exact absurd hrun (hub s₁)

theorem init_none_keeps (hd : s.data = dangling c T) (hl : Left c T bs s.heap.blocks) :
    StaysFit c T bs (init c a T m s) := by
  have hrun := make_room_dangling (a := a) hd
  apply init_keeps
  · intro s₁ hx
    rw [hrun] at hx
    cases hx
    exact place_fresh_keeps hd hl
  · intro p s₁ hx
    rw [hrun] at hx
    cases hx
  · intro s₁ hx
    rw [hrun] at hx
    cases hx

theorem init_fit_keeps (hr : Roomy c T h s) (hl : Left c T bs (others h s)) :
    StaysFit c T bs (init c a T m s) := by
  by_cases hd : s.data = dangling c T
  · exact init_none_keeps hd (hl.forgets hr.held hd)
  have hkept := make_room_kept (a := a) hr.held hd hr.alignment
  have hres := reserve_safely (a := a) (n := MIN_NON_ZERO_CAP c T-h.capacity) hr.held hr.alignment
    hr.used_lt
  apply init_keeps
  · intro s₁ hx
    obtain ⟨cap,hg,hroom,-⟩ := make_room_alike hr.held hd hr.alignment hr.used_lt hx
    have hl₁ := hg.others.symm ▸ hl
    by_cases hd₁ : s₁.data = dangling c T
    · exact place_fresh_keeps hd₁ (Left.forgets hl₁ hg.held hd₁)
    · exact place_kept_keeps hg.held hd₁ hr.alignment hroom hl₁
  · intro p s₁ hx
    rw [hkept] at hx
    split at hx
    · rw [hx] at hres
      rcases hres.1 with rfl | hlost
      · exact .inl ⟨h,hr,hl⟩
      · exact fit_of_lost hl hlost
    · cases hx
  · intro s₁ hx
    rw [hkept] at hx
    split at hx
    · rw [hx] at hres
      exact hres
    · cases hx

theorem push_keeps (hf : Fit c T bs s) (hx : x.length = T.size) :
    StaysFit c T bs (push c a T x s) := by
  rcases hf with ⟨h,hr,hl⟩ | ⟨hdbg,hd,hl⟩
  · refine (push_safely hr hx).imp (fun _ => fit_of_owns hl) (fun _ hs => ?_)
    rcases hs with hs | hs
    · exact fit_of_owns hl hs
    · exact fit_of_lost hl hs
  · have hlen := len_none hdbg hd
    have hfit : Fit c T bs s := .inr ⟨hdbg,hd,hl⟩
    by_cases h0 : T.size = 0
    · rw [push, bind_ok (by rw [reserve, if_pos h0, pure_run]), bind_get, bind_error hlen]
      exact hfit
    · rw [push, bind_error (by rw [reserve, if_neg h0, bind_error hlen])]
      exact hfit

theorem is_empty_keeps (hf : Fit c T bs s) : StaysFit c T bs (is_empty c T s) := by
  have hfit := hf
  rcases hf with ⟨h,hr,-⟩ | ⟨hdbg,hd,-⟩
  · rw [is_empty]
    by_cases ha : Asserts c T s
    · rw [bind_ok (by rw [len_run hr.held.toHeaded, if_pos ha])]
      exact hfit
    · rw [bind_error (by rw [len_run hr.held.toHeaded, if_neg ha])]
      exact hfit
  · rw [is_empty, bind_error (len_none hdbg hd)]
    exact hfit

theorem pop_keeps {O : Type} {f : M → ℕ → List β → Answer M Λ β O} (hf : Fit c T bs s)
    (hout : ∀ m ptr x, (f m ptr x).out ≠ .error .ub) : StaysFit c T bs (pop c T f s) := by
  have hfit := hf
  rcases hf with ⟨h,hr,hl⟩ | ⟨hdbg,hd,-⟩
  · by_cases ha : Asserts c T s
    swap
    · rw [pop_asserts hr.held ha rfl]
      exact hfit
    by_cases h0 : h.len = 0
    · rw [pop, bind_ok (pop_slot_none hr.held ha h0)]
      exact hfit
    · obtain ⟨ptr,x,-,s₁,-,-,hrun,hr₁,hloc,-⟩ := pop_some hr ha h0 f
      have hfit₁ : Fit c T bs s₁ := .inl ⟨_,hr₁,hloc.others.symm ▸ hl⟩
      have hout := hout h.metadata ptr x
      rw [hrun]
      cases he : (f h.metadata ptr x).out with
      | ok o => exact hfit₁
      | error e =>
        cases e with
        | panic => exact hfit₁
        | ub => exact absurd he hout
        | abort => trivial
        | oversize => trivial
  · rw [pop, bind_error (by rw [pop_slot, bind_error (len_none hdbg hd)])]
    exact hfit

theorem method_keeps (hf : Fit c T bs s) (call : Method M Λ β T) (hsound : call.Sound) :
    StaysFit c T bs (call.run c s) := by
  cases call with
  | is_empty => exact discards (is_empty_keeps hf)
  | push a x => exact push_keeps hf x.toList_length
  | pop O f => exact discards (pop_keeps hf hsound)
  | init a m =>
    rcases hf with ⟨h,hr,hl⟩ | ⟨-,hd,hl⟩
    · exact init_fit_keeps hr hl
    · exact init_none_keeps hd hl

theorem fit_step {call : Method M Λ β T} (hf : Fit c T bs s) (hstep : Uses c T s call s') :
    Fit c T bs s' := by
  cases hstep with
  | returns hsound hr =>
    have hk := method_keeps hf call hsound
    rwa [hr] at hk
  | panics hsound hr =>
    have hk := method_keeps hf call hsound
    rwa [hr] at hk

theorem fit_run {calls : List (Method M Λ β T)} (hf : Fit c T bs s)
    (hrun : Steps (Uses c T) s calls s') : Fit c T bs s' := by
  induction hrun with
  | refl => exact hf
  | next _ hstep ih => exact fit_step ih hstep

theorem drop_keeps (hf : Fit c T bs s)
    (hempty : c.debug_assertions = true → ∀ h, header_of c s = some h → h.len = 0) :
    Safely (fun s' => Left c T bs s'.heap.blocks) (fun s' => Left c T bs s'.heap.blocks)
      (drop c T s) := by
  rcases hf with ⟨h,hr,hl⟩ | ⟨-,hd,hl⟩
  · by_cases hd : s.data = dangling c T
    · rw [drop_dangling hd]
      exact hl.forgets hr.held hd
    · rw [drop_releases hr.held hd (fun hdbg => hempty hdbg h (header_of_held hr.held))]
      split <;> exact hl
  · rw [drop_dangling hd]
    exact hl

theorem drop_of_fit (hf : Fit c T bs s) : drop c T s ≠ .error .ub s' := by
  rcases hf with ⟨h,hr,-⟩ | ⟨-,hd,-⟩
  · exact drop_defined hr.held
  · simp [drop_dangling hd]

end Steps

section Unwinding

/-- `init` has unwound out of the destructor of the old metadata. -/
structure Due (c : Target M β) (h : Header M) (s s₀ : State M Λ β) : Prop where
  panics : c.drop_panics h.metadata = true
  dropped : ∃ l, s₀.log = s.log++.drop_metadata h.metadata :: l

theorem place_fresh_returns (hd : s.data = dangling c T) :
    place c a T m s ≠ .error (.panic p) s₀ := by
  rcases place_fresh (a := a) hd m with ⟨-,hr⟩ | hr | ⟨s₁,hr,-⟩ <;> rw [hr] <;> nofun

theorem not_due_of_growth {s₁ : State M Λ β} (hx : make_room c a T s = .error (.panic p) s₁)
    (hlog : s₁.log = s.log) (hi : init c a T m s = .error (.panic p₀) s₀) : ¬ Due c h s s₀ := by
  rintro ⟨hp,l,hl⟩
  rw [init_unwinds hx, EStateM.Result.error.injEq] at hi
  obtain ⟨he,rfl⟩ := hi
  simp only [hlog, List.append_cancel_left_eq, List.cons.injEq, Effect.drop_metadata.injEq] at hl
  rw [← hl.1] at hp
  rw [if_pos hp] at he
  cases he

/-- The two states in which the panic escapes. -/
theorem unwound (ht : Compiles c T) (hr : Roomy c U h s) (hlegal : T = U ∨ h.len = 0)
    (hi : init c a T m s = .error (.panic p) s₀) (hdue : Due c h s s₀) : s.data ≠ dangling c T ∧
    ((h.alignment = (header_space c T).align ∧ Owns c T (others h s) s₀) ∨
      (h.alignment ≠ (header_space c T).align ∧ s₀.data = dangling c T ∧
        s₀.heap.blocks = others h s)) := by
  by_cases hd : s.data = dangling c T
  · rw [init_placed (make_room_dangling hd)] at hi
    exact absurd hi (place_fresh_returns hd)
  refine ⟨hd,?_⟩
  by_cases ha : h.alignment = (header_space c T).align
  swap
  · have hrun := make_room_replaced (a := a) hr.held hd ha
    rw [if_pos hdue.panics] at hrun
    rw [init_unwinds hrun, EStateM.Result.error.injEq] at hi
    obtain ⟨-,rfl⟩ := hi
    exact .inr ⟨ha,rfl,rfl⟩
  refine .inl ⟨ha,?_⟩
  have hused := init_used ht hr hlegal
  have hkept := make_room_kept (a := a) hr.held hd ha
  cases hrun : make_room c a T s with
  | ok _ s₁ =>
    rw [init_placed hrun] at hi
    obtain ⟨cap,hg,hroom,-⟩ := make_room_alike hr.held hd ha hused hrun
    by_cases hd₁ : s₁.data = dangling c T
    · exact absurd hi (place_fresh_returns hd₁)
    obtain ⟨s₂,hp,hh,ho,-⟩ := place_kept (a := a) hg.held hd₁ ha hroom m
    rw [hp] at hi
    split at hi <;> cases hi
    exact ⟨_,fresh_roomy hh hroom,ho.trans hg.others⟩
  | error e s₁ =>
    obtain ⟨p',rfl⟩ : ∃ p', e = .panic p' := by
      by_contra hne
      rw [init_stops hrun (fun p' hp => hne ⟨p',hp⟩), EStateM.Result.error.injEq] at hi
      exact hne ⟨p,hi.1⟩
    rw [hkept] at hrun
    split at hrun
    · have hs := reserve_safely (a := a) (n := MIN_NON_ZERO_CAP c T-h.capacity) hr.held ha hused
      rw [hrun] at hs
      exact absurd hdue (not_due_of_growth (hkept.trans (by rwa [if_pos ‹_›])) hs.2 hi)
    · cases hrun

/-- Memory is only used while it is allocated, and after `drop` the block that the vec had is
not; no other block is touched. -/
structure Usable (c : Target M β) (T : Layout) (old : Block) (bs : List Block) (s : State M Λ β) :
    Prop where
  defined : ∀ (call : Method M Λ β T) s', call.Sound → call.run c s ≠ .error .ub s'
  drop_defined : ∀ s', drop c T s ≠ .error .ub s'
  released : (c.debug_assertions = true → ∀ h, header_of c s = some h → h.len = 0) →
    ∀ s', drop c T s = .ok () s' ∨ (∃ p, drop c T s = .error (.panic p) s') →
      old ∉ s'.heap.blocks ∧ Left c T bs s'.heap.blocks

theorem own_not_others (hh : Held c h s) : own h s ∉ others h s := by
  intro hmem
  have hperm := s.heap.apart.perm (List.perm_cons_erase hh.block) (fun h => apart_comm h)
  have hpos := hh.legal.1
  rcases (List.pairwise_cons.mp hperm).1 _ hmem with h | h <;> simp only [own] at h <;> omega

theorem usable_of_fit {old : Block} (hf : Fit c T bs s) (hold : old ∉ bs)
    (haddr : old.addr ≠ dangling c T) : Usable c T old bs s where
  defined call s' hsound hr := by
    have hk := method_keeps hf call hsound
    rwa [hr] at hk
  drop_defined _ := drop_of_fit hf
  released hempty s' hr := by
    have hk := drop_keeps hf hempty
    have hleft : Left c T bs s'.heap.blocks := by
      rcases hr with hr | ⟨_,hr⟩ <;> rwa [hr] at hk
    refine ⟨fun hmem => ?_,hleft⟩
    obtain ⟨extra,hperm,hextra⟩ := hleft
    rcases List.mem_append.mp (hperm.mem_iff.mp hmem) with hmem | hmem
    · exact haddr (hextra _ hmem)
    · exact hold hmem

theorem read_header_undefined (hd : s.data = dangling c T)
    (hcov : ¬ s.heap.Covers (dangling c T) c.header.size) : read_header c s = .error .ub s := by
  have hload : load s.data c.header.size c.header.align s = .error .ub s := by
    rw [load, bind_get, hd, Heap.load, if_neg hcov]
    rfl
  rw [read_header, bind_get, bind_error hload]

theorem is_empty_undefined (hdbg : c.debug_assertions = false) (hd : s.data = dangling c T)
    (hcov : ¬ s.heap.Covers (dangling c T) c.header.size) :
    is_empty c T s = .error .ub s := by
  have hrun : debug_assert c (decide (s.data ≠ dangling c T)) s = .ok () s := by
    rw [debug_assert, if_neg (by simp [hdbg]), pure_run]
  rw [is_empty, bind_error]
  rw [len, bind_is_allocated, bind_ok hrun, bind_error]
  rw [from_ref, bind_is_allocated, bind_ok hrun]
  exact read_header_undefined hd hcov

/-- After `init` has unwound out of the destructor of the old metadata, the vec can be used as
before if it has kept its block or if assertions are on. Otherwise it cannot be asked whether it
is empty. -/
theorem usable_after_unwinding (hs : Reached c P U s) (hh : header_of c s = some h)
    (ht : Compiles c T) (hlegal : T = U ∨ h.len = 0) (hi : init c a T m s = .error (.panic p) s₀)
    (hdue : Due c h s s₀) :
    (c.debug_assertions = true ∨ h.alignment = (header_space c T).align →
      ∀ calls s', Steps (Uses c T) s₀ calls s' → Usable c T (own h s) (others h s) s') ∧
    (c.debug_assertions = false → h.alignment ≠ (header_space c T).align →
      ¬ s₀.heap.Covers (dangling c T) c.header.size → is_empty c T s₀ = .error .ub s₀) := by
  obtain ⟨h',hr⟩ := roomy_of_reached hs
  rw [header_of_held hr.held, Option.some.injEq] at hh
  subst hh
  obtain ⟨hd,hu⟩ := unwound ht hr hlegal hi hdue
  constructor
  · intro hcond calls s' hrun
    refine usable_of_fit (fit_run ?_ hrun) (own_not_others hr.held) hd
    rcases hu with ⟨-,ho⟩ | ⟨ha,hd₀,hblocks⟩
    · exact fit_of_owns (left_refl c T _) ho
    · exact .inr ⟨hcond.resolve_right ha,hd₀,hblocks ▸ left_refl c T _⟩
  · intro hdbg ha hcov
    rcases hu with ⟨ha',-⟩ | ⟨-,hd₀,-⟩
    · exact absurd ha' ha
    · exact is_empty_undefined hdbg hd₀ hcov

end Unwinding

/-- The mark of an unallocated vec, seen from the type `U`. -/
structure Recognised (c : Target M β) (U : Layout) (s : State M Λ β) : Prop where
  not_allocated : is_allocated c U s = .ok false s
  drop_returns : drop c U s = .ok () s

theorem recognised_iff : Recognised c U s ↔ s.data = dangling c U := by
  constructor
  · rintro ⟨ha,-⟩
    by_contra hd
    have hrun : is_allocated c U s = .ok (decide (s.data ≠ dangling c U)) s := rfl
    rw [hrun, EStateM.Result.ok.injEq] at ha
    exact hd (by simpa using ha.1)
  · intro hd
    refine ⟨?_,drop_dangling hd⟩
    change EStateM.Result.ok (decide (s.data ≠ dangling c U)) s = _
    simp [hd]

/-- A vec left without a block by `init` at `T` is known to have none at the types `V` whose
header has the alignment of the one of `T`, and at no others. -/
theorem marker_recognised (hs : Reached c P U s) (hh : header_of c s = some h)
    (h0 : h.len = 0) (ht : Compiles c T) (ha : h.alignment ≠ (header_space c T).align)
    (hi : init c a T m s = .error (.panic p) s₀) (hdue : Due c h s s₀) (V : Layout) :
    Recognised c V s₀ ↔ (header_space c V).align = (header_space c T).align := by
  obtain ⟨h',hr⟩ := roomy_of_reached hs
  rw [header_of_held hr.held, Option.some.injEq] at hh
  subst hh
  obtain ⟨-,⟨ha',-⟩ | ⟨-,hd,-⟩⟩ := unwound ht hr (.inr h0) hi hdue
  · exact absurd ha' ha
  · rw [recognised_iff, hd]
    exact eq_comm

section Sample

def fragile (debug_assertions : Bool) : Target ℕ (Header ℕ ⊕ ℕ) :=
  { sample ℕ debug_assertions with drop_panics := fun m => m == 5 }

def sixteen (n : ℕ) : List.Vector (Header ℕ ⊕ ℕ) wide.size := ⟨List.replicate 16 (.inr n),rfl⟩

/-- With assertions `is_empty` panics on the vec without a block; `init` gives it one again. -/
theorem usable_after_unwinding_checked : ∃ s₀ s' : State ℕ Unit (Header ℕ ⊕ ℕ),
    s₀.data = dangling (fragile true) wide ∧
    Steps (Uses (fragile true) wide) s₀
      [.is_empty,.init (shelf ℕ) 7,.push (shelf ℕ) (sixteen 1),.is_empty] s' ∧
    Usable (fragile true) wide ⟨2^30,32,8⟩ [] s' := by
  obtain ⟨s,s₀,hs,hh,hi,hdue,ho,hd,_,h₁,_,h₂,_,h₃,s',h₄⟩ : ∃ s s₀ : State ℕ Unit (Header ℕ ⊕ ℕ),
      Reached (fragile true) (fun _ => True) short s ∧
      header_of (fragile true) s = some ⟨5,2,8,0,32⟩ ∧
      init (fragile true) (shelf ℕ) wide 6 s = .error (.panic .user) s₀ ∧
      Due (fragile true) ⟨5,2,8,0,32⟩ s s₀ ∧
      (own ⟨5,2,8,0,32⟩ s = ⟨2^30,32,8⟩ ∧ others ⟨5,2,8,0,32⟩ s = []) ∧
      s₀.data = dangling (fragile true) wide ∧
      ∃ s₁, Uses (fragile true) wide s₀ .is_empty s₁ ∧
      ∃ s₂, Uses (fragile true) wide s₁ (.init (shelf ℕ) 7) s₂ ∧
      ∃ s₃, Uses (fragile true) wide s₂ (.push (shelf ℕ) (sixteen 1)) s₃ ∧
      ∃ s', Uses (fragile true) wide s₃ .is_empty s' := by
    refine ⟨_,_,.new (s := ⟨blank ℕ,0,[]⟩) (a := shelf ℕ) (m := 5) trivial (by decide) rfl,rfl,rfl,
      ⟨rfl,_,rfl⟩,⟨rfl,rfl⟩,rfl,?_⟩
    refine ⟨_,.panics (p := .assertion) trivial rfl,_,.returns trivial rfl,?_⟩
    exact ⟨_,.returns trivial rfl,_,.returns trivial rfl⟩
  have hrun := (((Steps.refl.next h₁).next h₂).next h₃).next h₄
  have hu := (usable_after_unwinding hs hh (by decide) (.inr rfl) hi hdue).1 (.inl rfl) _ s' hrun
  rw [ho.1, ho.2] at hu
  exact ⟨s₀,s',hd,hrun,hu⟩

/-- Without assertions `is_empty` reads at the address of the dangling pointer. -/
theorem unusable_after_unwinding : ∃ (s s₀ : State ℕ Unit (Header ℕ ⊕ ℕ)) (h : Header ℕ),
    Reached (fragile false) (fun _ => True) short s ∧
    header_of (fragile false) s = some h ∧ h.len = 0 ∧
    init (fragile false) (shelf ℕ) wide 6 s = .error (.panic .user) s₀ ∧
    Due (fragile false) h s s₀ ∧
    ¬ Usable (fragile false) wide (own h s) (others h s) s₀ := by
  refine ⟨_,_,⟨5,2,8,0,32⟩,
    .new (s := ⟨blank ℕ,0,[]⟩) (a := shelf ℕ) (m := 5) trivial (by decide) rfl,
    rfl,rfl,rfl,⟨rfl,_,rfl⟩,fun hu => ?_⟩
  exact hu.defined .is_empty _ trivial rfl

def wider : Layout := ⟨32,16,⟨4,by decide,rfl⟩,⟨2,rfl⟩⟩

/-- The owner of elements of sixteen bytes has lent the vec for elements of two, then of
thirty-two. -/
theorem marker_recognised_again : ∃ s s₀ : State ℕ Unit (Header ℕ ⊕ ℕ),
    init (fragile false) (shelf ℕ) wider 6 s = .error (.panic .user) s₀ ∧
    Recognised (fragile false) wide s₀ := by
  obtain ⟨s₁,s,s₀,hs₁,hh₁,hn,hh,hi,hdue⟩ : ∃ s₁ s s₀ : State ℕ Unit (Header ℕ ⊕ ℕ),
      Reached (fragile false) (fun _ => True) wide s₁ ∧
      header_of (fragile false) s₁ = some ⟨8,16,16,0,96⟩ ∧
      init (fragile false) (shelf ℕ) short 5 s₁ = .ok () s ∧
      header_of (fragile false) s = some ⟨5,2,8,0,32⟩ ∧
      init (fragile false) (shelf ℕ) wider 6 s = .error (.panic .user) s₀ ∧
      Due (fragile false) ⟨5,2,8,0,32⟩ s s₀ :=
    ⟨_,_,_,.new (s := ⟨blank ℕ,0,[]⟩) (a := shelf ℕ) (m := 8) trivial (by decide) rfl,rfl,rfl,rfl,
      rfl,⟨rfl,_,rfl⟩⟩
  have hs : Reached (fragile false) (fun _ => True) short s :=
    .init hs₁ trivial (by decide) (.inr (fun h h0 => by rw [hh₁] at h0; cases h0; rfl)) hn
  exact ⟨s,s₀,hi,(marker_recognised hs hh rfl (by decide) (by decide) hi hdue wide).mpr rfl⟩

/-- The owner of elements of two bytes takes the address that marks a vec of elements of sixteen
for a block, and `drop` reads its header. -/
theorem marker_mistaken : ∃ (s s₀ : State ℕ Unit (Header ℕ ⊕ ℕ)) (h : Header ℕ),
    Reached (fragile false) (fun _ => True) short s ∧
    header_of (fragile false) s = some h ∧ h.len = 0 ∧
    init (fragile false) (shelf ℕ) wide 6 s = .error (.panic .user) s₀ ∧
    Due (fragile false) h s s₀ ∧ ¬ Recognised (fragile false) short s₀ ∧
    drop (fragile false) short s₀ = .error .ub s₀ := by
  refine ⟨_,_,⟨5,2,8,0,32⟩,
    .new (s := ⟨blank ℕ,0,[]⟩) (a := shelf ℕ) (m := 5) trivial (by decide) rfl,
    rfl,rfl,rfl,⟨rfl,_,rfl⟩,fun hr => ?_,rfl⟩
  exact absurd (recognised_iff.mp hr) (by decide)

end Sample

end Lockness.VecUnwind
