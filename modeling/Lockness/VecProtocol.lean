import Lockness.VecCalls

/-!
# The allocator's side of the vec

An allocator that never answers with an address of `NonNull::dangling` sees
every block of the vec back, with the size and alignment that it has; an owned
vec has one block. Each metadata value is dropped once. Operations that are
defined name live blocks only, since `realloc` and `dealloc` demand it.
-/

set_option autoImplicit false

namespace Lockness.VecProtocol
open Lockness.PoolRuns Lockness.VecLayout Lockness.VecHeap Lockness.VecMachine Lockness.VecHeader
open Lockness.VecGrowth Lockness.VecElements Lockness.VecLife Lockness.VecRoom Lockness.VecStack
open Lockness.VecCalls

variable {M Λ β : Type}

def given : Event M β → List M
  | .new _ m => [m]
  | .init _ m => [m]
  | _ => []

/-- The closure of a pop has not put another value in the place of the metadata it is lent;
`id` tells values from each other. -/
def Keeps {ι : Type} (id : M → ι) : Event M β → Prop
  | .pop _ m _ left => id left = id m
  | _ => True

def dropped_metadata : Effect M Λ → Option M
  | .drop_metadata m => some m
  | .closure _ => none

def drops (log : List (Effect M Λ)) : List M := log.filterMap dropped_metadata

theorem drops_append (l l' : List (Effect M Λ)) : drops (l++l') = drops l++drops l' :=
  List.filterMap_append

@[simp] theorem drops_closures (l : List Λ) : drops (l.map (.closure : Λ → Effect M Λ)) = [] := by
  simp [drops,dropped_metadata,List.filterMap_map,Function.comp_def]

@[simp] theorem drops_drops (ms : List M) :
    drops (ms.map (.drop_metadata : M → Effect M Λ)) = ms := by
  simp [drops,dropped_metadata,List.filterMap_map,Function.comp_def]

/-- Besides the block of the vec all is as in `heap₀`; the vec holds the metadata `ms`. -/
inductive Kept (c : Target M β) (heap₀ : Heap β) : System M Λ β → List M → Prop
  | none {heap : Heap β} {log : List (Effect M Λ)} : heap.blocks = heap₀.blocks →
      Untouched heap₀.blocks heap₀ heap → Kept c heap₀ ⟨heap,log,none⟩ []
  | some {T : Layout} {h : Header M} {s : State M Λ β} : Roomy c T h s →
      (∀ U, s.data ≠ dangling c U) → others h s = heap₀.blocks →
      Untouched heap₀.blocks heap₀ s.heap → Kept c heap₀ (owning T s) [h.metadata]

variable {c : Target M β} {heap₀ : Heap β} {a : Allocator β} {T U : Layout} {h : Header M}
  {s s' : State M Λ β} {ms : List M} {x : List β}

theorem kept_some (hk : Kept c heap₀ (owning T s) ms) :
    ∃ h, ms = [h.metadata] ∧ Roomy c T h s ∧ (∀ U, s.data ≠ dangling c U) ∧
      others h s = heap₀.blocks ∧ Untouched heap₀.blocks heap₀ s.heap := by
  generalize hs : owning T s = sys at hk
  cases hk with
  | none => cases hs
  | @some T' h s₀ hr hd ho hu =>
    simp only [owning, System.mk.injEq, Option.some.injEq, Vec.mk.injEq] at hs
    obtain ⟨hheap,hlog,rfl,hdata⟩ := hs
    obtain ⟨heap,data,log⟩ := s
    obtain ⟨heap₁,data₁,log₁⟩ := s₀
    simp only at hheap hlog hdata
    subst hheap hlog hdata
    exact ⟨h,rfl,hr,hd,ho,hu⟩

theorem Kept.moves {T' : Layout} {h' : Header M} (hr : Roomy c T' h' s')
    (hd : ∀ U, s'.data ≠ dangling c U) (hloc : Local h s h' s') (ho : others h s = heap₀.blocks)
    (hu : Untouched heap₀.blocks heap₀ s.heap) : Kept c heap₀ (owning T' s') [h'.metadata] :=
  .some hr hd (hloc.others.trans ho) (hu.trans (ho ▸ hloc.untouched))

section Calls

theorem push_hands_over (hr : Roomy c T h s) (hx : x.length = T.size)
    (hp : push c a T x s = .ok () s') : ∃ h', Roomy c T h' s' ∧ h'.metadata = h.metadata ∧
      Local h s h' s' ∧ s'.log = s.log ∧ (s'.data = s.data ∨ a.Hands s'.data) := by
  have hres := reserve_run (a := a) (n := T.size) hr.held hr.alignment hr.used_lt
  generalize hrun : reserve c a T T.size s = r at hres
  cases r with
  | error e s₁ =>
    rw [push, bind_error hrun] at hp
    cases hp
  | ok _ s₁ =>
    cases hres with
    | @ok cap _ hg hn hhands =>
      by_cases has : Asserts c T s₁
      swap
      · rw [push, bind_ok hrun, bind_get,
          bind_error (by rw [len_run hg.held.toHeaded, if_neg has])] at hp
        cases hp
      rcases push_counted hr hrun hg has hn hx with ⟨s₂,hp',hd,hr',hloc,hlog⟩ | ⟨-,s₂,hp',-⟩ <;>
        rw [hp'] at hp <;> cases hp
      exact ⟨_,hr',rfl,hloc,hlog,hd.symm ▸ hhands⟩

theorem pop_hands_over {m : M} {ptr : ℕ} {s₁ : State M Λ β} {O : Type}
    {f : M → ℕ → List β → Answer M Λ β O} (hr : Roomy c T h s)
    (hs : pop_slot c U s = .ok (some (m,ptr,x)) s₁)
    (hp : (∃ o, pop c U f s = .ok (some o) s') ∨ ∃ p, pop c U f s = .error (.panic p) s') :
    m = h.metadata ∧ ∃ h', Roomy c T h' s' ∧ h'.metadata = (f m ptr x).metadata ∧
      Local h s h' s' ∧ s'.log = s.log++(f m ptr x).log.map .closure ∧ s'.data = s.data := by
  have ha : Asserts c U s := by
    by_contra ha
    rw [pop_slot_refuses hr.held ha] at hs
    cases hs
  have h0 : h.len ≠ 0 := by
    intro h0
    rw [pop_slot_none hr.held ha h0] at hs
    cases hs
  obtain ⟨ptr',y,s₂,s₃,hs',-,hrun,hr',hloc,hlog,hdata⟩ := pop_some hr ha h0 f
  rw [hs] at hs'
  cases hs'
  have he : s₃ = s' := by
    rw [hrun] at hp
    cases hout : (f h.metadata ptr x).out with
    | ok o =>
      rw [hout] at hp
      rcases hp with ⟨_,hp⟩ | ⟨_,hp⟩ <;> cases hp
      rfl
    | error e =>
      rw [hout] at hp
      rcases hp with ⟨_,hp⟩ | ⟨_,hp⟩ <;> cases hp
      rfl
  subst he
  exact ⟨rfl,_,hr',rfl,hloc,hlog,hdata⟩

theorem drop_returns (hh : Held c h s) (hd : s.data ≠ dangling c U)
    (hp : VecMachine.drop c U s = .ok () s') : s' = released c U h s := by
  by_cases hempty : c.debug_assertions = true → h.len = 0
  · rw [drop_releases hh hd hempty] at hp
    split at hp
    · cases hp
    · cases hp
      rfl
  · rw [Classical.not_imp] at hempty
    rw [drop_asserts hh hd hempty.1 hempty.2] at hp
    cases hp

end Calls

/-- What one call does to the blocks and to the metadata. -/
theorem step_kept {s s' : System M Λ β} {e : Event M β} (hk : Kept c heap₀ s ms)
    (hcall : Call c (Unmarked c) s e s') :
    ∃ ds ms', Kept c heap₀ s' ms' ∧ drops s'.log = drops s.log++ds ∧
      ∀ (ι : Type) (id : M → ι), Keeps id e → ((ms++given e).map id).Perm ((ds++ms').map id) := by
  cases hcall with
  | @new heap log a T m s' hP ht hn =>
    cases hk with
    | none hb hu =>
      obtain ⟨hr,ho,hun,hlog,hspot⟩ := new_returns hn
      exact ⟨[],[m],.some hr (fun U => hP _ hspot U) (ho.trans hb) (hu.trans (hb ▸ hun)),
        by simp [owning,hlog],fun _ _ _ => .rfl⟩
  | @push s s' a T x hP hp =>
    obtain ⟨h,rfl,hr,hd,ho,hu⟩ := kept_some hk
    obtain ⟨h',hr',hm,hloc,hlog,hdata⟩ := push_hands_over hr x.toList_length hp
    have hd' : ∀ U, s'.data ≠ dangling c U := by
      intro U
      rcases hdata with h0 | h0
      · exact h0 ▸ hd U
      · exact hP _ h0 U
    exact ⟨[],[h'.metadata],.moves hr' hd' hloc ho hu,by simp [owning,hlog],
      fun _ _ _ => by simp [given,hm]⟩
  | @pop_none s s' T U hp =>
    obtain ⟨h,rfl,hr,hd,ho,hu⟩ := kept_some hk
    by_cases ha : Asserts c U s
    swap
    · rw [pop_slot_refuses hr.held ha] at hp
      cases hp
    by_cases h0 : h.len = 0
    · rw [pop_slot_none hr.held ha h0] at hp
      cases hp
      exact ⟨[],_,hk,by simp,fun _ _ _ => .rfl⟩
    · obtain ⟨_,_,hs,-⟩ := pop_slot_some hr ha h0
      rw [hs] at hp
      cases hp
  | @pop s s₁ s' T U m ptr x O f hs hp =>
    obtain ⟨h,rfl,hr,hd,ho,hu⟩ := kept_some hk
    obtain ⟨rfl,h',hr',hm,hloc,hlog,hdata⟩ := pop_hands_over hr hs hp
    refine ⟨[],[h'.metadata],.moves hr' (hdata ▸ hd) hloc ho hu,?_,fun ι id hid => ?_⟩
    · simp [owning,hlog,drops_append]
    · simp [given,hm,show id _ = id _ from hid]
  | @init s s' a T T' m hP ht hlegal hi =>
    obtain ⟨h,rfl,hr,hd,ho,hu⟩ := kept_some hk
    have hempty : T' = T ∨ h.len = 0 := hlegal.imp_right (fun h0 => h0 h (header_of_held hr.held))
    obtain ⟨cap,hr',hloc,hlog,hspot⟩ := init_hands_over hP ht hr hempty (hd T') hi
    have hd' : ∀ U, s'.data ≠ dangling c U := by
      intro U
      rcases hspot with h0 | h0
      · exact h0 ▸ hd U
      · exact hP _ h0 U
    refine ⟨[h.metadata],[m],.moves hr' hd' hloc ho hu,?_,fun _ _ _ => .rfl⟩
    rw [owning, hlog, drops_append]
    rfl
  | drop U hp =>
    obtain ⟨h,rfl,hr,hd,ho,hu⟩ := kept_some hk
    obtain rfl := drop_returns hr.held (hd U) hp
    exact ⟨[h.metadata],[],.none ho hu,by simp [dropped,owning,released,drops,dropped_metadata],
      fun _ _ _ => .rfl⟩

theorem kept_run {es : List (Event M β)} {s : System M Λ β}
    (hrun : Steps (Call c (Unmarked c)) ⟨heap₀,[],none⟩ es s) : ∃ ms, Kept c heap₀ s ms ∧
      ∀ (ι : Type) (id : M → ι), (∀ e ∈ es, Keeps id e) →
        ((es.flatMap given).map id).Perm ((drops s.log++ms).map id) := by
  induction hrun with
  | refl => exact ⟨[],.none rfl (.refl _ _),fun _ _ _ => .rfl⟩
  | @next es s e s' _ hone ih =>
    obtain ⟨ms,hk,hperm⟩ := ih
    obtain ⟨ds,ms',hk',hlog,hperm'⟩ := step_kept hk hone
    refine ⟨ms',hk',fun ι id hid => ?_⟩
    have h1 := hperm ι id (fun e he => hid e (List.mem_append_left _ he))
    have h2 := hperm' ι id (hid e (by simp))
    simp only [List.map_append, List.flatMap_append, List.flatMap_singleton, hlog] at h1 h2 ⊢
    have h3 := (h1.append_right ((given e).map id)).trans
      (List.append_assoc _ _ _ ▸ h2.append_left ((drops s.log).map id))
    rwa [← List.append_assoc] at h3

/-- The values `ms` are those that the calls `es` have handed over, each once. -/
def Once (es : List (Event M β)) (ms : List M) : Prop :=
  ∀ (ι : Type) (id : M → ι), (∀ e ∈ es, Keeps id e) →
    ((es.flatMap given).map id).Perm (ms.map id)

/-- The header records the block as it is. No call is undefined, as one would be that names
another block to the allocator or looks outside of it. -/
structure Owned (c : Target M β) (T : Layout) (h : Header M) (s : State M Λ β) : Prop where
  header : header_of c s = some h
  alignment : h.alignment = (header_space c T).align
  block : (⟨s.data,h.capacity,h.alignment⟩ : Block) ∈ s.heap.blocks
  push_defined : ∀ a x s', x.length = T.size → push c a T x s ≠ .error .ub s'
  pop_defined : ∀ U O (f : M → ℕ → List β → Answer M Λ β O) s',
    pop c U f s = .error .ub s' → ∃ m ptr x, (f m ptr x).out = .error .ub
  init_defined : ∀ a T' m s', Compiles c T' → T' = T ∨ h.len = 0 →
    init c a T' m s ≠ .error .ub s'
  drop_defined : ∀ U s', VecMachine.drop c U s ≠ .error .ub s'

theorem new_defined {m : M} : new c a T m s ≠ .error .ub s' := by
  rw [VecMachine.new, bind_modify, init_placed (make_room_dangling rfl)]
  exact place_defined rfl

theorem owned_of_roomy (hr : Roomy c T h s) : Owned c T h s where
  header := header_of_held hr.held
  alignment := hr.alignment
  block := hr.held.block
  push_defined := fun _ _ _ => push_defined hr
  pop_defined := fun _ _ _ _ => pop_defined hr
  init_defined := fun _ _ _ _ ht hlegal => init_defined ht hr hlegal
  drop_defined := fun _ _ => drop_defined hr.held

/-- What the vec owes to its allocator and to its metadata after the calls `es`. -/
structure Respected (c : Target M β) (heap₀ : Heap β) (es : List (Event M β))
    (s : System M Λ β) : Prop where
  untouched : Untouched heap₀.blocks heap₀ s.heap
  new_defined : ∀ a T m s', new c a T m ⟨s.heap,0,s.log⟩ ≠ .error .ub s'
  none : s.vec = none → s.heap.blocks = heap₀.blocks ∧ Once es (drops s.log)
  some : ∀ v, s.vec = some v → ∃ h, Owned c v.ty h ⟨s.heap,v.data,s.log⟩ ∧
    s.heap.blocks.erase ⟨v.data,h.capacity,h.alignment⟩ = heap₀.blocks ∧
    Once es (drops s.log++[h.metadata]) ∧
    ∀ U, (c.debug_assertions = true → h.len = 0) →
      ∃ s', VecMachine.drop c U ⟨s.heap,v.data,s.log⟩ = .ok () s' ∧
        s'.heap.blocks = heap₀.blocks ∧ s'.log = s.log++[.drop_metadata h.metadata]

/-- In every run whose allocator never answers with an address of `NonNull::dangling`, calls name
the one live block of the vec as it is, a drop releases it, and metadata is dropped once. Neither
the size of the elements nor their number is limited. -/
theorem respects_allocator (hquiet : ∀ m, c.drop_panics m = false) {es : List (Event M β)}
    {s : System M Λ β} (hrun : Steps (Call c (Unmarked c)) ⟨heap₀,[],none⟩ es s) :
    Respected c heap₀ es s := by
  obtain ⟨ms,hk,honce⟩ := kept_run hrun
  refine ⟨?_,fun a T m s' => new_defined,fun hv => ?_,fun v hv => ?_⟩
  · cases hk with
    | none _ hu => exact hu
    | some _ _ _ hu => exact hu
  · cases hk with
    | none hb => exact ⟨hb,fun ι id hid => by simpa using honce ι id hid⟩
    | some => cases hv
  · obtain ⟨heap,log,vec⟩ := s
    obtain rfl : vec = .some v := hv
    obtain ⟨h,rfl,hr,hd,ho,hu⟩ := kept_some (s := ⟨heap,v.data,log⟩) hk
    refine ⟨h,owned_of_roomy hr,ho,honce,fun U hempty => ?_⟩
    refine ⟨released c U h ⟨heap,v.data,log⟩,?_,ho,rfl⟩
    rw [drop_releases hr.held (hd U) hempty, if_neg (by simp [hquiet])]

section Sample

theorem shelf_unmarked (debug_assertions : Bool) :
    Unmarked (sample ℕ debug_assertions) (shelf ℕ) := by
  intro ptr hptr T h0
  have hle := (header_space (sample ℕ debug_assertions) T).align_le
  have hpos := (header_space (sample ℕ debug_assertions) T).align_pos
  rw [h0, dangling] at hptr
  rcases bump_hands hptr with h | h <;> omega

/-- The block of 36 bytes grows for longer elements, is replaced for wide ones, and released. -/
def served : List (Event ℕ (Header ℕ ⊕ ℕ)) :=
  [.new triple 5,.init long 6,.push (item 1).toList,.pop .unit 6 (item 1).toList 6,.init wide 8,
    .drop .unit]

theorem respects_allocator_reused : ∃ s : System ℕ Unit (Header ℕ ⊕ ℕ),
    Steps (Call (sample ℕ true) (Unmarked (sample ℕ true))) ⟨blank ℕ,[],none⟩ served s ∧
    Respected (sample ℕ true) (blank ℕ) served s := by
  have hu := shelf_unmarked true
  obtain ⟨_,h₁,_,h₂,_,h₃,_,h₄,_,h₅,s,h₆⟩ : ∃ s₁ : System ℕ Unit (Header ℕ ⊕ ℕ),
      Call (sample ℕ true) (Unmarked (sample ℕ true)) ⟨blank ℕ,[],none⟩ (.new triple 5) s₁ ∧
      ∃ s₂, Call (sample ℕ true) (Unmarked (sample ℕ true)) s₁ (.init long 6) s₂ ∧
      ∃ s₃, Call (sample ℕ true) (Unmarked (sample ℕ true)) s₂ (.push (item 1).toList) s₃ ∧
      ∃ s₄, Call (sample ℕ true) (Unmarked (sample ℕ true)) s₃
        (.pop .unit 6 (item 1).toList 6) s₄ ∧
      ∃ s₅, Call (sample ℕ true) (Unmarked (sample ℕ true)) s₄ (.init wide 8) s₅ ∧
      ∃ s₆, Call (sample ℕ true) (Unmarked (sample ℕ true)) s₅ (.drop .unit) s₆ := by
    refine ⟨_,.new hu (by decide) rfl,?_⟩
    refine ⟨_,.init hu (by decide) (.inr (by rintro h ⟨⟩; rfl)) rfl,?_⟩
    refine ⟨_,.push (item 1) hu rfl,?_⟩
    refine ⟨_,.pop (fun _ _ _ => ⟨6,fun _ => .inr 0,[],.ok ()⟩) rfl (.inl ⟨_,rfl⟩),?_⟩
    exact ⟨_,.init hu (by decide) (.inr (by rintro h ⟨⟩; rfl)) rfl,_,.drop .unit rfl⟩
  have hs := (((((Steps.refl.next h₁).next h₂).next h₃).next h₄).next h₅).next h₆
  exact ⟨s,hs,respects_allocator (fun _ => rfl) hs⟩

/-- With debug assertions, a vec that holds a value refuses to be dropped: its block stays and its
metadata is not dropped. Without them, a block at a dangling address is taken for none: the vec is
dropped, and the same holds. -/
theorem allocator_not_respected :
    (∃ t t' : State ℕ Unit (Header ℕ ⊕ ℕ),
      Steps (Call (sample ℕ true) (Unmarked (sample ℕ true))) ⟨blank ℕ,[],none⟩
        [.new short 5,.push (value 7).toList] (owning short t) ∧
      VecMachine.drop (sample ℕ true) short t = .error (.panic .assertion) t' ∧
      t'.heap.blocks = [⟨2^30,32,8⟩] ∧ drops t'.log = []) ∧
    ∃ s : System ℕ Unit (Header ℕ ⊕ ℕ),
      Steps (Call (sample ℕ false) (fun _ => True)) ⟨blank ℕ,[],none⟩
        [.new short 5,.drop short] s ∧
      s.vec = none ∧ s.heap.blocks = [⟨8,32,8⟩] ∧ drops s.log = [] := by
  constructor
  · obtain ⟨_,h₁,t,h₂,t',h₃,hb,hlog⟩ : ∃ s₁ : System ℕ Unit (Header ℕ ⊕ ℕ),
        Call (sample ℕ true) (Unmarked (sample ℕ true)) ⟨blank ℕ,[],none⟩ (.new short 5) s₁ ∧
        ∃ t, Call (sample ℕ true) (Unmarked (sample ℕ true)) s₁ (.push (value 7).toList)
            (owning short t) ∧
          ∃ t', VecMachine.drop (sample ℕ true) short t = .error (.panic .assertion) t' ∧
            t'.heap.blocks = [⟨2^30,32,8⟩] ∧ drops t'.log = [] := by
      refine ⟨_,.new (shelf_unmarked true) (by decide) rfl,?_⟩
      exact ⟨_,.push (value 7) (shelf_unmarked true) rfl,_,rfl,rfl,rfl⟩
    exact ⟨t,t',(Steps.refl.next h₁).next h₂,h₃,hb,hlog⟩
  · obtain ⟨_,h₁,s,h₂,hv,hb,hlog⟩ : ∃ s₁ : System ℕ Unit (Header ℕ ⊕ ℕ),
        Call (sample ℕ false) (fun _ => True) ⟨blank ℕ,[],none⟩ (.new short 5) s₁ ∧
        ∃ s₂, Call (sample ℕ false) (fun _ => True) s₁ (.drop short) s₂ ∧
          s₂.vec = none ∧ s₂.heap.blocks = [⟨8,32,8⟩] ∧ drops s₂.log = [] := by
      refine ⟨_,.new (a := bump _ 1 (fun _ => .inr 0)) trivial (by decide) rfl,?_⟩
      exact ⟨_,.drop _ rfl,rfl,rfl,rfl⟩
    exact ⟨s,(Steps.refl.next h₁).next h₂,hv,hb,hlog⟩

end Sample
end Lockness.VecProtocol
