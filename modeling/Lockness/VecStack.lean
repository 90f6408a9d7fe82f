import Mathlib.Data.Vector.Basic
import Lockness.PoolRuns
import Lockness.VecLife

/-!
# The freestanding vec is a stack

A program calls the operations as `from_raw` allows: a push at the element type
that `new` or `init` was given last, `init` for another type when the vec is
empty, and everything else at any type. A call that has not returned is no
step, but for a `pop` whose closure panics; so a metadata destructor that
panics ends the run.
-/

set_option autoImplicit false

namespace Lockness.VecStack
open Lockness.PoolRuns Lockness.VecLayout Lockness.VecHeap Lockness.VecMachine Lockness.VecHeader
open Lockness.VecGrowth Lockness.VecElements Lockness.VecLife

variable {M Λ β : Type}

/-- The vec of a program: its pointer, and the element type given to `new` or `init` last. -/
structure Vec where
  ty : Layout
  data : ℕ

structure System (M Λ β : Type) where
  heap : Heap β
  log : List (Effect M Λ)
  vec : Option Vec

def owning (ty : Layout) (s : State M Λ β) : System M Λ β := ⟨s.heap,s.log,some ⟨ty,s.data⟩⟩

def dropped (s : State M Λ β) : System M Λ β := ⟨s.heap,s.log,none⟩

def header_of (c : Target M β) (s : State M Λ β) : Option (Header M) :=
  (s.heap.load s.data c.header.size).bind c.decode

inductive Event (M β : Type) where
  | new (T : Layout) (m : M)
  | push (x : List β)
  | pop_none (U : Layout)
  | pop (U : Layout) (m : M) (x : List β) (left : M)
  | init (T : Layout) (m : M)
  | drop (U : Layout)

/-- One call of the program, whose allocator meets `P`. -/
inductive Call (c : Target M β) (P : Allocator β → Prop) :
    System M Λ β → Event M β → System M Λ β → Prop
  | new {heap : Heap β} {log : List (Effect M Λ)} {a : Allocator β} {T : Layout} {m : M}
      {s' : State M Λ β} : P a → Compiles c T → new c a T m ⟨heap,0,log⟩ = .ok () s' →
      Call c P ⟨heap,log,none⟩ (.new T m) (owning T s')
  | push {s s' : State M Λ β} {a : Allocator β} {T : Layout} (x : List.Vector β T.size) : P a →
      push c a T x.toList s = .ok () s' → Call c P (owning T s) (.push x.toList) (owning T s')
  | pop_none {s s' : State M Λ β} {T : Layout} (U : Layout) :
      pop_slot c U s = .ok none s' → Call c P (owning T s) (.pop_none U) (owning T s')
  | pop {s s₁ s' : State M Λ β} {T U : Layout} {m : M} {ptr : ℕ} {x : List β} {O : Type}
      (f : M → ℕ → List β → Answer M Λ β O) : pop_slot c U s = .ok (some (m,ptr,x)) s₁ →
      (∃ o, pop c U f s = .ok (some o) s') ∨ (∃ p, pop c U f s = .error (.panic p) s') →
      Call c P (owning T s) (.pop U m x (f m ptr x).metadata) (owning T s')
  | init {s s' : State M Λ β} {a : Allocator β} {T T' : Layout} {m : M} : P a → Compiles c T' →
      T' = T ∨ (∀ h, header_of c s = some h → h.len = 0) → init c a T' m s = .ok () s' →
      Call c P (owning T s) (.init T' m) (owning T' s')
  | drop {s s' : State M Λ β} {T : Layout} (U : Layout) : drop c U s = .ok () s' →
      Call c P (owning T s) (.drop U) (dropped s')

/-- The sizes and lengths of the call fit the fields of the header. -/
def Within (c : Target M β) (s : System M Λ β) : Event M β → Prop
  | .new T _ => T.size < 2^32
  | .init T _ => T.size < 2^32
  | .push _ => ∀ v h, s.vec = some v → header_of c ⟨s.heap,v.data,s.log⟩ = some h →
      h.len+1 < 2^c.BITS
  | _ => True

abbrev Step (c : Target M β) (P : Allocator β → Prop) :
    System M Λ β → Event M β → System M Λ β → Prop := When (Call c P) (Within c)

/-- What the vec is for: a stack of values of one type, the last one on top. -/
structure Stack (M β : Type) where
  ty : Layout
  metadata : M
  values : List (List β)

inductive Spec : Option (Stack M β) → Event M β → Option (Stack M β) → Prop
  | new (T : Layout) (m : M) : Spec none (.new T m) (some ⟨T,m,[]⟩)
  | push {k : Stack M β} {x : List β} : x.length = k.ty.size →
      Spec (some k) (.push x) (some { k with values := k.values++[x] })
  | pop_none {k : Stack M β} (U : Layout) : k.values = [] → Spec (some k) (.pop_none U) (some k)
  | pop {T : Layout} {m : M} {vs : List (List β)} {x : List β} (U : Layout) (left : M) :
      Spec (some ⟨T,m,vs++[x]⟩) (.pop U m x left) (some ⟨T,left,vs⟩)
  | init {k : Stack M β} {T : Layout} (m : M) : T = k.ty ∨ k.values = [] →
      Spec (some k) (.init T m) (some ⟨T,m,[]⟩)
  | drop (k : Stack M β) (U : Layout) : Spec (some k) (.drop U) none

inductive Represents (c : Target M β) : System M Λ β → Option (Stack M β) → Prop
  | none (heap : Heap β) (log : List (Effect M Λ)) : Represents c ⟨heap,log,none⟩ none
  | some {s : State M Λ β} {T : Layout} {h : Header M} {vs : List (List β)} : Live c T h vs s →
      Represents c (owning T s) (some ⟨T,h.metadata,vs⟩)

section Operations

variable {c : Target M β} {P : Allocator β → Prop} {T U : Layout} {h : Header M}
  {vs : List (List β)} {s s' : State M Λ β} {O : Type}

theorem header_of_live (hl : Live c T h vs s) : header_of c s = some h := by
  rw [header_of, hl.held.load]
  exact c.decode_encode h hl.held.fits

/-- What `pop` does at any static type, with any closure. -/
structure Pops (c : Target M β) (U : Layout) (m : M) (vs : List (List β)) (s : State M Λ β) :
    Prop where
  empty : vs = [] → ∀ (O : Type) (f : M → ℕ → List β → Answer M Λ β O),
    pop c U f s = .ok none s
  last : ∀ ws x, vs = ws++[x] → ∃ ptr s₁, pop_slot c U s = .ok (some (m,ptr,x)) s₁ ∧
    s₁.heap.load ptr x.length = some x ∧
    ∀ (O : Type) (f : M → ℕ → List β → Answer M Λ β O), ∃ s', pop c U f s =
      match (f m ptr x).out with
      | .ok o => .ok (some o) s'
      | .error e => .error e s'

theorem load_length {m : Heap β} {i n : ℕ} {l : List β} (h : m.load i n = some l) :
    l.length = n := by
  rw [(load_some h).2, peek_length]

theorem pop_last {ws : List (List β)} {x : List β} (hl : Live c T h (ws++[x]) s)
    (ha : Asserts c U s) :
    ∃ ptr s₁, pop_slot c U s = .ok (some (h.metadata,ptr,x)) s₁ ∧
      s₁.heap.load ptr x.length = some x ∧ ptr = push_address c T s.data ws.length ∧
      ∀ (O : Type) (f : M → ℕ → List β → Answer M Λ β O), ∃ s' h',
        (pop c U f s = match (f h.metadata ptr x).out with
          | .ok o => .ok (some o) s'
          | .error e => .error e s') ∧
        Live c T h' ws s' ∧ h'.metadata = (f h.metadata ptr x).metadata ∧ Local h s h' s' ∧
        s'.log = s.log++(f h.metadata ptr x).log.map .closure ∧ s'.data = s.data := by
  have hi : ws.length < (ws++[x]).length := by simp
  have hx := load_length (hl.stored ws.length hi)
  have hwithin := hl.within hi
  rw [List.getElem_append_right le_rfl] at hx
  simp only [Nat.sub_self, List.getElem_cons_zero] at hx
  obtain ⟨s₁,hs,hl₁,hloc₁,hlog₁,hdata₁,hload⟩ := pop_slot_last hl ha
  refine ⟨_,s₁,hs,hx ▸ hload,rfl,fun O f => ?_⟩
  rw [← hdata₁] at hwithin hs
  obtain ⟨s₂,hc,hl₂,hloc₂,hlog₂,hdata₂⟩ := call_closure_run hl₁ hwithin hx f rfl
  rw [hdata₁] at hc hl₂ hloc₂ hlog₂ hs
  refine ⟨s₂,_,?_,hl₂,rfl,hloc₁.trans hloc₂,by rw [hlog₂, hlog₁],hdata₂.trans hdata₁⟩
  rw [pop, bind_ok hs]
  cases hout : (f h.metadata (push_address c T s.data ws.length) x).out with
  | ok o =>
    simp only [hout] at hc
    simp only
    rw [bind_ok hc, pure_run]
  | error e =>
    simp only [hout] at hc
    simp only
    rw [bind_error hc]

theorem pops (hl : Live c T h vs s) (ha : Asserts c U s) : Pops c U h.metadata vs s where
  empty := by
    rintro rfl O f
    rw [pop, bind_ok (pop_slot_none hl.held ha hl.len)]
    rfl
  last := by
    rintro ws x rfl
    obtain ⟨ptr,s₁,hs,hload,-,hpop⟩ := pop_last hl ha
    refine ⟨ptr,s₁,hs,hload,fun O f => ?_⟩
    obtain ⟨s',_,hp,-⟩ := hpop O f
    exact ⟨s',hp⟩

theorem asserts_of_pop_slot {r : Option (M × ℕ × List β)} (hl : Live c T h vs s)
    (hp : pop_slot c U s = .ok r s') : Asserts c U s := by
  by_contra ha
  rw [pop_slot_refuses hl.held ha] at hp
  cases hp

theorem pop_slot_cases {r : Option (M × ℕ × List β)} (hl : Live c T h vs s)
    (hp : pop_slot c U s = .ok r s') :
    vs = [] ∧ r = none ∧ s' = s ∨ ∃ ws x ptr, vs = ws++[x] ∧ r = some (h.metadata,ptr,x) := by
  have ha := asserts_of_pop_slot hl hp
  rcases List.eq_nil_or_concat vs with rfl | ⟨ws,x,rfl⟩
  · rw [pop_slot_none hl.held ha hl.len] at hp
    cases hp
    exact .inl ⟨rfl,rfl,rfl⟩
  · rw [List.concat_eq_append] at hl ⊢
    obtain ⟨s₁,hs,-⟩ := pop_slot_last hl ha
    rw [hs] at hp
    cases hp
    exact .inr ⟨ws,x,_,rfl,rfl⟩

theorem pop_cases {m : M} {ptr : ℕ} {x : List β} {s₁ : State M Λ β}
    {f : M → ℕ → List β → Answer M Λ β O} (hl : Live c T h vs s)
    (hs : pop_slot c U s = .ok (some (m,ptr,x)) s₁)
    (hp : (∃ o, pop c U f s = .ok (some o) s') ∨ ∃ p, pop c U f s = .error (.panic p) s') :
    ∃ ws h', vs = ws++[x] ∧ m = h.metadata ∧ Live c T h' ws s' ∧
      h'.metadata = (f m ptr x).metadata ∧ Local h s h' s' ∧
      s'.log = s.log++(f m ptr x).log.map .closure ∧ s'.data = s.data := by
  have ha := asserts_of_pop_slot hl hs
  rcases pop_slot_cases hl hs with ⟨-,h0,-⟩ | ⟨ws,y,ptr',rfl,he⟩
  · cases h0
  cases he
  obtain ⟨ptr',s₂,hs',-,-,hf⟩ := pop_last hl ha
  rw [hs] at hs'
  cases hs'
  obtain ⟨s₃,h',hpop,hl',hm,hloc,hlog,hdata⟩ := hf O f
  have he : s₃ = s' := by
    rw [hpop] at hp
    cases hout : (f h.metadata ptr x).out with
    | ok o =>
      rw [hout] at hp
      rcases hp with ⟨_,hp⟩ | ⟨_,hp⟩ <;> cases hp
      rfl
    | error e =>
      rw [hout] at hp
      rcases hp with ⟨_,hp⟩ | ⟨_,hp⟩ <;> cases hp
      rfl
  subst he
  exact ⟨ws,h',rfl,rfl,hl',hm,hloc,hlog,hdata⟩

theorem push_returns {a : Allocator β} {x : List β} (hl : Live c T h vs s) (hx : x.length = T.size)
    (hlen : vs.length+1 < 2^c.BITS) (hp : push c a T x s = .ok () s') :
    ∃ cap, Live c T { h with len := h.len+1, capacity := cap } (vs++[x]) s' ∧
      Local h s { h with len := h.len+1, capacity := cap } s' ∧ s'.log = s.log ∧
      (s'.data = s.data ∨ a.Hands s'.data) ∧ Written c a T x vs.length s s' := by
  have hr := push_run (a := a) hl hx hlen
  rw [hp] at hr
  cases hr with
  | ok hlive hloc hlog hdata hw => exact ⟨_,hlive,hloc,hlog,hdata,hw⟩

end Operations

section Refinement

variable {c : Target M β} {P : Allocator β → Prop} {s s' : System M Λ β} {e : Event M β}
  {k : Option (Stack M β)} {h : List (Event M β)} {heap : Heap β}

theorem represents_some {T : Layout} {s : State M Λ β} (hr : Represents c (owning T s) k) :
    ∃ h vs, k = some ⟨T,h.metadata,vs⟩ ∧ Live c T h vs s := by
  generalize hs : owning T s = sys at hr
  cases hr with
  | none => cases hs
  | @some s₀ T' h vs hl =>
    simp only [owning, System.mk.injEq, Option.some.injEq, Vec.mk.injEq] at hs
    obtain ⟨hheap,hlog,rfl,hdata⟩ := hs
    obtain ⟨heap,data,log⟩ := s
    obtain ⟨heap₀,data₀,log₀⟩ := s₀
    simp only at hheap hlog hdata
    subst hheap hlog hdata
    exact ⟨h,vs,rfl,hl⟩

/-- Every call does to the vec what the stack does. -/
theorem step_spec (hr : Represents c s k) (hstep : Step c P s e s') :
    ∃ k', Spec k e k' ∧ Represents c s' k' := by
  obtain ⟨hcall,hwithin⟩ := hstep
  cases hcall with
  | @new heap log a T m s' _ ht hn =>
    cases hr
    have hi := new_run (a := a) (s := (⟨heap,0,log⟩ : State M Λ β)) ⟨hwithin,ht⟩ m
    rw [hn] at hi
    cases hi with
    | ok hb => exact ⟨_,.new T m,.some hb.live⟩
  | push x _ hp =>
    obtain ⟨h,vs,rfl,hl⟩ := represents_some hr
    have hlt := hwithin _ h rfl (header_of_live hl)
    rw [hl.len] at hlt
    obtain ⟨cap,hl',-⟩ := push_returns hl x.toList_length hlt hp
    exact ⟨_,.push x.toList_length,.some (h := { h with len := h.len+1, capacity := cap }) hl'⟩
  | pop_none U hp =>
    obtain ⟨h,vs,rfl,hl⟩ := represents_some hr
    rcases pop_slot_cases hl hp with ⟨rfl,-,rfl⟩ | ⟨_,_,_,_,h0⟩
    · exact ⟨_,.pop_none U rfl,hr⟩
    · cases h0
  | @pop s s₁ s' T U m ptr x O f hs hp =>
    obtain ⟨h,vs,rfl,hl⟩ := represents_some hr
    obtain ⟨ws,h',rfl,rfl,hl',hm,-⟩ := pop_cases hl hs hp
    exact ⟨_,.pop U _,hm ▸ .some hl'⟩
  | @init s s' a T T' m _ ht hlegal hi =>
    obtain ⟨h,vs,rfl,hl⟩ := represents_some hr
    have hempty : T' = T ∨ vs = [] := by
      refine hlegal.imp_right (fun h0 => List.length_eq_zero_iff.mp ?_)
      rw [← hl.len]
      exact h0 h (header_of_live hl)
    refine ⟨_,.init m hempty,?_⟩
    by_cases hd : s.data = dangling c T'
    · have hr := init_dangling (a := a) ⟨hwithin,ht⟩ hd m
      rw [hi] at hr
      cases hr with
      | ok hb => exact .some hb.live
    · obtain ⟨_,_,hr,-⟩ := init_live (a := a) ⟨hwithin,ht⟩ hl hempty.symm hd m
      rw [hi] at hr
      cases hr with
      | ok hb => exact .some hb.live
  | drop U hp =>
    obtain ⟨h,vs,rfl,hl⟩ := represents_some hr
    exact ⟨none,.drop _ U,.none _ _⟩

theorem stack_run (hrun : Steps (Step c P) ⟨heap,[],none⟩ h s) :
    ∃ k, Steps Spec none h k ∧ Represents c s k := by
  induction hrun with
  | refl => exact ⟨none,.refl,.none _ _⟩
  | next _ hone ih =>
    obtain ⟨k,hspec,hr⟩ := ih
    obtain ⟨k',hstep,hr'⟩ := step_spec hr hone
    exact ⟨k',hspec.next hstep,hr'⟩

/-- Every run of the vec is one of the stack; and on the vec that it reaches, `pop` at any type
returns `None` if the stack is empty, and hands the metadata and a pointer to the bytes of the
last value to its closure if not. Only a failed debug assertion keeps it from that. -/
theorem refines_stack (hrun : Steps (Step c P) ⟨heap,[],none⟩ h s) :
    ∃ k, Steps Spec none h k ∧ (s.vec = none ↔ k = none) ∧
      ∀ v k', s.vec = some v → k = some k' → v.ty = k'.ty ∧
        ∀ U, Asserts c U ⟨s.heap,v.data,s.log⟩ →
          Pops c U k'.metadata k'.values ⟨s.heap,v.data,s.log⟩ := by
  obtain ⟨k,hspec,hr⟩ := stack_run hrun
  refine ⟨k,hspec,?_,?_⟩
  · cases hr <;> simp [owning]
  · rintro v k' hv rfl
    cases hr with
    | @some s T h vs hl =>
      simp only [owning, Option.some.injEq] at hv
      subst hv
      exact ⟨rfl,fun U ha => pops hl ha⟩

end Refinement

section Sample

def int (k : ℕ) (hk : k ≤ 29) : Layout := ⟨2^k,2^k,⟨k,hk,rfl⟩,dvd_rfl⟩

def short : Layout := int 1 (by decide)

def long : Layout := int 3 (by decide)

def wide : Layout := int 4 (by decide)

def triple : Layout := ⟨3,1,Layout.unit.align_pow,Nat.one_dvd _⟩

/-- A header of 24 bytes whose first byte tells all. -/
def sample (M : Type) (debug_assertions : Bool) : Target M (Header M ⊕ ℕ) where
  header := ⟨24,8,⟨3,by decide,rfl⟩,by decide⟩
  BITS := 64
  debug_assertions := debug_assertions
  overflow_checks := debug_assertions
  drop_panics _ := false
  encode h := .inl h :: List.replicate 23 (.inr 0)
  decode l := l.head?.bind (fun b => b.elim some (fun _ => none))
  header_pos := by decide
  encode_length _ := rfl
  decode_encode _ _ := rfl

def blank (M : Type) : Heap (Header M ⊕ ℕ) := ⟨[],fun _ => .inr 0,.nil⟩

def value (n : ℕ) : List.Vector (Header ℕ ⊕ ℕ) short.size := ⟨[.inr n,.inr 0],rfl⟩

def item (n : ℕ) : List.Vector (Header ℕ ⊕ ℕ) long.size := ⟨List.replicate 8 (.inr n),rfl⟩

def shelf (M : Type) : Allocator (Header M ⊕ ℕ) := bump _ (2^30) (fun _ => .inr 0)

/-- The block of a vec of integers is replaced by one for four values of two bytes, which a fifth
one makes grow. -/
def calls : List (Event ℕ (Header ℕ ⊕ ℕ)) :=
  [.new wide 8,.init short 5,.push (value 1).toList,.push (value 2).toList,
    .push (value 3).toList,.push (value 4).toList,.push (value 5).toList,
    .pop .unit 5 (value 5).toList 6]

theorem refines_stack_reused : ∃ t : State ℕ Unit (Header ℕ ⊕ ℕ),
    Steps (Step (sample ℕ true) (fun _ => True)) ⟨blank ℕ,[],none⟩ calls (owning short t) ∧
    ∃ k, Steps Spec none calls (some k) ∧ Pops (sample ℕ true) .unit k.metadata k.values t := by
  obtain ⟨_,h₁,_,h₂,_,h₃,_,h₄,_,h₅,_,h₆,_,h₇,t,h₈,ha⟩ : ∃ s₁ : System ℕ Unit (Header ℕ ⊕ ℕ),
      Step (sample ℕ true) (fun _ => True) ⟨blank ℕ,[],none⟩ (.new wide 8) s₁ ∧
      ∃ s₂, Step (sample ℕ true) (fun _ => True) s₁ (.init short 5) s₂ ∧
      ∃ s₃, Step (sample ℕ true) (fun _ => True) s₂ (.push (value 1).toList) s₃ ∧
      ∃ s₄, Step (sample ℕ true) (fun _ => True) s₃ (.push (value 2).toList) s₄ ∧
      ∃ s₅, Step (sample ℕ true) (fun _ => True) s₄ (.push (value 3).toList) s₅ ∧
      ∃ s₆, Step (sample ℕ true) (fun _ => True) s₅ (.push (value 4).toList) s₆ ∧
      ∃ s₇, Step (sample ℕ true) (fun _ => True) s₆ (.push (value 5).toList) s₇ ∧
      ∃ t, Step (sample ℕ true) (fun _ => True) s₇ (.pop .unit 5 (value 5).toList 6)
        (owning short t) ∧ Asserts (sample ℕ true) .unit t := by
    refine ⟨_,⟨.new (a := shelf ℕ) trivial (by decide) rfl,
      (by decide : wide.size < 2^32)⟩,?_⟩
    refine ⟨_,⟨.init (a := shelf ℕ) trivial (by decide) (.inr (by rintro h ⟨⟩; rfl)) rfl,
      (by decide : short.size < 2^32)⟩,?_⟩
    refine ⟨_,⟨.push (a := shelf ℕ) (value 1) trivial rfl,by rintro _ h ⟨⟩ ⟨⟩; decide⟩,?_⟩
    refine ⟨_,⟨.push (a := shelf ℕ) (value 2) trivial rfl,by rintro _ h ⟨⟩ ⟨⟩; decide⟩,?_⟩
    refine ⟨_,⟨.push (a := shelf ℕ) (value 3) trivial rfl,by rintro _ h ⟨⟩ ⟨⟩; decide⟩,?_⟩
    refine ⟨_,⟨.push (a := shelf ℕ) (value 4) trivial rfl,by rintro _ h ⟨⟩ ⟨⟩; decide⟩,?_⟩
    refine ⟨_,⟨.push (a := shelf ℕ) (value 5) trivial rfl,by rintro _ h ⟨⟩ ⟨⟩; decide⟩,?_⟩
    exact ⟨_,⟨.pop (fun _ _ _ => ⟨6,fun _ => .inr 0,[],.ok ()⟩) rfl (.inl ⟨_,rfl⟩),trivial⟩,
      by decide⟩
  have hs := (((((Steps.refl.next h₁).next h₂).next h₃).next h₄).next h₅).next h₆
  have hs := (hs.next h₇).next h₈
  obtain ⟨k,hk,hnone,hpops⟩ := refines_stack hs
  cases k with
  | none => nomatch hnone.mpr rfl
  | some k => exact ⟨t,hs,k,hk,(hpops _ k rfl rfl).2 .unit ha⟩

end Sample
end Lockness.VecStack
