import Mathlib.Data.List.Induction
import Lockness.ClosureMachine
import Lockness.VecStack

/-!
# Every closure is consumed once

A program pushes closures of the type that the vec is at, runs or clears it at
any type, and changes the type when the vec is empty. The vec then is a pile
of closures: each is taken from the top once, by its own `call`. A panic of a
closure that escapes an operation is a step; one of a debug assertion is not.
-/

set_option autoImplicit false

namespace Lockness.ClosureStack
open Lockness.PoolRuns Lockness.VecLayout Lockness.VecHeap Lockness.VecHeader Lockness.VecElements
open Lockness.VecLife Lockness.ClosureMachine
open Lockness.VecMachine hiding new push drop
open Lockness.VecStack (header_of header_of_live load_length pop_last pops push_returns)

variable {κ β : Type}

section Consuming

structure Swept (κ β : Type) where
  used : List (Consumed κ β)
  left : List (List β)
  panicked : Bool

/-- Closures are dropped from the top until one panics or none is left. -/
def sweep (w : World κ β) (F : κ) (used : List (Consumed κ β)) : List (List β) → Swept κ β
  | [] => ⟨used,[],false⟩
  | x :: xs =>
    if w used ⟨F,x,true⟩ then ⟨used++[⟨F,x,true⟩],xs,true⟩
    else sweep w F (used++[⟨F,x,true⟩]) xs

def Holds (c : Closures κ β) (F : κ) (xs : List (List β))
    (s : State (Metadata κ) (Consumed κ β) β) : Prop :=
  ∃ h, Live c.toTarget (c.layout F) h xs.reverse s ∧ h.metadata = INIT F

variable {c : Closures κ β} {w : World κ β} {F : κ} {U : Layout} {x : List β}
  {xs : List (List β)} {s s' : State (Metadata κ) (Consumed κ β) β}

theorem sweep_spec (w : World κ β) (F : κ) (used : List (Consumed κ β)) (xs : List (List β)) :
    ∃ taken, xs = taken++(sweep w F used xs).left ∧
      (sweep w F used xs).used = used++taken.map (fun x => ⟨F,x,true⟩) ∧
      ((sweep w F used xs).panicked = false → (sweep w F used xs).left = []) := by
  induction xs generalizing used with
  | nil => exact ⟨[],rfl,by simp [sweep],fun _ => rfl⟩
  | cons x xs ih =>
    rw [sweep]
    split
    · exact ⟨[x],rfl,rfl,by simp⟩
    · obtain ⟨taken,h1,h2,h3⟩ := ih (used++[⟨F,x,true⟩])
      exact ⟨x :: taken,by rw [List.cons_append, ← h1],by rw [h2]; simp,h3⟩

theorem consumed_append (l l' : List (Effect (Metadata κ) (Consumed κ β))) :
    consumed (l++l') = consumed l++consumed l' := List.filterMap_append

theorem consumed_closures (us : List (Consumed κ β)) :
    consumed (us.map (.closure : _ → Effect (Metadata κ) _)) = us := by
  simp [consumed,as_closure,List.filterMap_map,Function.comp_def]

theorem consumed_drops (ms : List (Metadata κ)) :
    consumed (ms.map (.drop_metadata : _ → Effect _ (Consumed κ β))) = [] := by
  simp [consumed,as_closure,List.filterMap_map,Function.comp_def]

variable [Inhabited β]

theorem pop_and_run_refused (hs : Holds c F xs s) (ha : ¬ Asserts c.toTarget U s)
    (just_drop : Bool) : pop_and_run_ c w U just_drop s = .error (.panic .assertion) s := by
  obtain ⟨h,hl,-⟩ := hs
  rw [pop_and_run_, bind_get, bind_error]
  rw [pop, bind_error (pop_slot_refuses hl.held ha)]

theorem pop_and_run_empty (hs : Holds c F [] s) (ha : Asserts c.toTarget U s)
    (just_drop : Bool) : pop_and_run_ c w U just_drop s = .ok true s := by
  obtain ⟨h,hl,-⟩ := hs
  rw [pop_and_run_, bind_get, bind_ok ((pops hl ha).empty rfl _ _), pure_run]
  rfl

theorem pop_and_run_top (hs : Holds c F (x :: xs) s) (ha : Asserts c.toTarget U s)
    (just_drop : Bool) : ∃ s', pop_and_run_ c w U just_drop s =
        (if w (consumed s.log) ⟨F,x,just_drop⟩ then .error (.panic .user) s' else .ok false s') ∧
      Holds c F xs s' ∧ consumed s'.log = consumed s.log++[⟨F,x,just_drop⟩] ∧
      s'.data = s.data := by
  obtain ⟨h,hl,hm⟩ := hs
  rw [List.reverse_cons] at hl
  obtain ⟨ptr,s₁,hslot,-,hptr,hpop⟩ := pop_last hl ha
  have hx : x.length = (c.layout F).size := by
    have := load_length (hl.stored xs.reverse.length (by simp))
    simpa using this
  have hdvd : (c.layout F).align ∣ ptr :=
    hptr ▸ push_address_dvd _ _ _ (hl.alignment ▸ hl.held.aligned)
  have htask : task c w (consumed s.log) just_drop h.metadata ptr x =
      ⟨INIT F,fun i => x.getD i default,[⟨F,x,just_drop⟩],
        if w (consumed s.log) ⟨F,x,just_drop⟩ then .error (.panic .user) else .ok ()⟩ := by
    rw [hm, task, INIT, call, if_pos ⟨hx,hdvd⟩]
  obtain ⟨s',h',hrun,hl',hm',-,hlog,hdata⟩ := hpop Unit (task c w (consumed s.log) just_drop)
  rw [htask] at hrun hm' hlog
  refine ⟨s',?_,⟨h',hl',hm'⟩,?_,hdata⟩
  · rw [pop_and_run_, bind_get]
    by_cases hw : w (consumed s.log) ⟨F,x,just_drop⟩ = true
    · simp only [hw, if_true] at hrun ⊢
      rw [bind_error hrun]
    · simp only [hw] at hrun ⊢
      rw [bind_ok hrun]
      rfl
  · rw [hlog, consumed_append, consumed_closures]

theorem clear_run {n : ℕ} (hs : Holds c F xs s) (ha : Asserts c.toTarget U s) :
    (n ≤ xs.length ∧ ∃ s', clear c w U n s = .ok false s') ∨
    ∃ s', clear c w U n s =
      (if (sweep w F (consumed s.log) xs).panicked then .error (.panic .user) s'
        else .ok true s') ∧
      Holds c F (sweep w F (consumed s.log) xs).left s' ∧
      consumed s'.log = (sweep w F (consumed s.log) xs).used ∧ s'.data = s.data := by
  induction xs generalizing n s with
  | nil =>
    cases n with
    | zero => exact .inl ⟨le_rfl,s,rfl⟩
    | succ n =>
      refine .inr ⟨s,?_,hs,rfl,rfl⟩
      rw [clear, bind_ok (pop_and_run_empty hs ha true)]
      rfl
  | cons x xs ih =>
    cases n with
    | zero => exact .inl ⟨Nat.zero_le _,s,rfl⟩
    | succ n =>
      obtain ⟨s₁,hpop,hs₁,hlog₁,hdata₁⟩ := pop_and_run_top (w := w) hs ha true
      rw [sweep]
      split
      · rename_i hw
        rw [if_pos hw] at hpop
        exact .inr ⟨s₁,by rw [clear, bind_error hpop]; rfl,hs₁,hlog₁,hdata₁⟩
      · rename_i hw
        rw [if_neg hw] at hpop
        have hrun : clear c w U (n+1) s = clear c w U n s₁ := by
          rw [clear, bind_ok hpop]
          rfl
        have ha₁ : Asserts c.toTarget U s₁ := fun hd => hdata₁ ▸ ha hd
        rw [hrun, ← hlog₁, List.length_cons, Nat.add_le_add_iff_right, ← hdata₁]
        exact ih hs₁ ha₁

theorem asserts_of_pop_and_run {just_drop : Bool} (hs : Holds c F xs s)
    (hp : (∃ b, pop_and_run_ c w U just_drop s = .ok b s') ∨
      pop_and_run_ c w U just_drop s = .error (.panic .user) s') : Asserts c.toTarget U s := by
  by_contra ha
  rw [pop_and_run_refused hs ha] at hp
  rcases hp with ⟨_,hp⟩ | hp <;> cases hp

theorem asserts_of_clear {n : ℕ} (hs : Holds c F xs s)
    (hc : clear c w U n s = .ok true s' ∨ clear c w U n s = .error (.panic .user) s') :
    Asserts c.toTarget U s := by
  by_contra ha
  cases n with
  | zero => rcases hc with hc | hc <;> cases hc
  | succ n =>
    rw [clear, bind_error (pop_and_run_refused hs ha true)] at hc
    rcases hc with hc | hc <;> cases hc

omit [Inhabited β] in
theorem field_drop (hs : Holds c F xs s) (ha : Asserts c.toTarget U s) :
    ∃ s', VecMachine.drop c.toTarget U s =
        (if c.debug_assertions = true ∧ xs ≠ [] then .error (.panic .assertion) s' else .ok () s') ∧
      consumed s'.log = consumed s.log := by
  obtain ⟨h,hl,-⟩ := hs
  by_cases hd : s.data = dangling c.toTarget U
  · refine ⟨s,?_,rfl⟩
    rw [drop_dangling hd, if_neg (fun hdbg => ha hdbg.1 hd)]
  · by_cases hempty : c.debug_assertions = true ∧ xs ≠ []
    · refine ⟨s,?_,rfl⟩
      rw [if_pos hempty, drop_refuses hl hd hempty.1 (by simpa using hempty.2)]
    · refine ⟨released c.toTarget U h s,?_,?_⟩
      · have hnil : c.debug_assertions = true → xs.reverse = [] := fun hdbg => by
          by_contra hne
          exact hempty ⟨hdbg,by simpa using hne⟩
        rw [drop_run hl hd hnil, if_neg (by simp [c.quiet]), if_neg hempty]
      · rw [released, consumed_append]
        exact List.append_nil _

/-- `drop` sweeps the pile. After a panic it finds the closures that are left. -/
theorem drop_swept {n : ℕ} (hs : Holds c F xs s) (ha : Asserts c.toTarget U s) :
    (n ≤ xs.length ∧ ∃ s', drop c w U n s = .ok false s') ∨
    ∃ s', drop c w U n s = (if (sweep w F (consumed s.log) xs).panicked then
        if c.debug_assertions = true ∧ (sweep w F (consumed s.log) xs).left ≠ [] then
          .error .abort s' else .error (.panic .user) s'
        else .ok true s') ∧
      consumed s'.log = (sweep w F (consumed s.log) xs).used := by
  rcases clear_run (w := w) (n := n) hs ha with ⟨hn,s₁,hc⟩ | ⟨s₁,hc,hs₁,hlog₁,hdata₁⟩
  · refine .inl ⟨hn,s₁,?_⟩
    have hu : unwinding (clear c w U n) (VecMachine.drop c.toTarget U) s = .ok false s₁ := by
      simp only [unwinding, hc]
    rw [drop, bind_ok hu]
    rfl
  · right
    have ha₁ : Asserts c.toTarget U s₁ := fun hd => hdata₁ ▸ ha hd
    obtain ⟨s₂,hd,hlog₂⟩ := field_drop hs₁ ha₁
    refine ⟨s₂,?_,hlog₂.trans hlog₁⟩
    obtain ⟨taken,-,-,hleft⟩ := sweep_spec w F (consumed s.log) xs
    cases hp : (sweep w F (consumed s.log) xs).panicked with
    | true =>
      rw [hp] at hc
      simp only [if_true] at hc ⊢
      rw [drop]
      split at hd
      · have hu : unwinding (clear c w U n) (VecMachine.drop c.toTarget U) s =
            .error .abort s₂ := by simp only [unwinding, hc, hd]
        rw [bind_error hu, if_pos ‹_›]
      · have hu : unwinding (clear c w U n) (VecMachine.drop c.toTarget U) s =
            .error (.panic .user) s₂ := by simp only [unwinding, hc, hd]
        rw [bind_error hu, if_neg ‹_›]
    | false =>
      rw [hp] at hc
      rw [hleft hp] at hd
      have hu : unwinding (clear c w U n) (VecMachine.drop c.toTarget U) s = .ok true s₁ := by
        simp only [unwinding, hc]
        rfl
      rw [drop, bind_ok hu, if_pos rfl, bind_ok (by rw [hd, if_neg (by simp)])]
      rfl

theorem drop_refused (hs : Holds c F xs s) (ha : ¬ Asserts c.toTarget U s) (n : ℕ) :
    drop c w U (n+1) s = .error (.panic .assertion) s := by
  have hd : s.data = dangling c.toTarget U := by
    by_contra hd
    exact ha (fun _ => hd)
  have hu : unwinding (clear c w U (n+1)) (VecMachine.drop c.toTarget U) s =
      .error (.panic .assertion) s := by
    have hc : clear c w U (n+1) s = .error (.panic .assertion) s := by
      rw [clear, bind_error (pop_and_run_refused hs ha true)]
    simp only [unwinding, hc, drop_dangling hd]
  rw [drop, bind_error hu]

theorem asserts_of_drop {n : ℕ} (hs : Holds c F xs s)
    (hd : drop c w U n s = .ok true s' ∨ drop c w U n s = .error (.panic .user) s') :
    Asserts c.toTarget U s := by
  by_contra ha
  cases n with
  | zero => rcases hd with hd | hd <;> cases hd
  | succ n =>
    rw [drop_refused hs ha] at hd
    rcases hd with hd | hd <;> cases hd

end Consuming

section Programs

/-- The vec of a program: its pointer, and the type of its closures. -/
structure Handle (κ : Type) where
  fn : κ
  data : ℕ

structure System (κ β : Type) where
  heap : Heap β
  log : List (Effect (Metadata κ) (Consumed κ β))
  vec : Option (Handle κ)

def owning (F : κ) (s : State (Metadata κ) (Consumed κ β) β) : System κ β :=
  ⟨s.heap,s.log,some ⟨F,s.data⟩⟩

def dropped (s : State (Metadata κ) (Consumed κ β) β) : System κ β := ⟨s.heap,s.log,none⟩

/-- A call and how it ended: `pop_and_run` with an answer if it has not panicked. -/
inductive Event (κ β : Type) where
  | new (F : κ)
  | push (F : κ) (x : List β)
  | pop_and_run (U : Layout) (out : Option Bool)
  | clear (U : Layout) (panicked : Bool)
  | update_type (F : κ)
  | drop (U : Layout) (panicked : Bool)

/-- One call of the program, with any allocator and any number of rounds that is enough. -/
inductive Call [Inhabited β] (c : Closures κ β) (w : World κ β) :
    System κ β → Event κ β → System κ β → Prop
  | new {heap : Heap β} {log : List (Effect (Metadata κ) (Consumed κ β))} {a : Allocator β} {F : κ}
      {s' : State (Metadata κ) (Consumed κ β) β} : Compiles c.toTarget (c.layout F) →
      new c a F ⟨heap,0,log⟩ = .ok () s' → Call c w ⟨heap,log,none⟩ (.new F) (owning F s')
  | push {s s' : State (Metadata κ) (Consumed κ β) β} {a : Allocator β} {F : κ}
      (x : List.Vector β (c.layout F).size) : push c a F x.toList s = .ok () s' →
      Call c w (owning F s) (.push F x.toList) (owning F s')
  | pop_and_run {s s' : State (Metadata κ) (Consumed κ β) β} {F : κ} {b : Bool} (U : Layout) :
      pop_and_run c w U s = .ok b s' →
      Call c w (owning F s) (.pop_and_run U (some b)) (owning F s')
  | pop_panics {s s' : State (Metadata κ) (Consumed κ β) β} {F : κ} (U : Layout) :
      pop_and_run c w U s = .error (.panic .user) s' →
      Call c w (owning F s) (.pop_and_run U none) (owning F s')
  | clear {s s' : State (Metadata κ) (Consumed κ β) β} {F : κ} (U : Layout) (n : ℕ) :
      clear c w U n s = .ok true s' → Call c w (owning F s) (.clear U false) (owning F s')
  | clear_panics {s s' : State (Metadata κ) (Consumed κ β) β} {F : κ} (U : Layout) (n : ℕ) :
      clear c w U n s = .error (.panic .user) s' →
      Call c w (owning F s) (.clear U true) (owning F s')
  | update_type {s s' : State (Metadata κ) (Consumed κ β) β} {a : Allocator β} {F F' : κ} :
      Compiles c.toTarget (c.layout F') → (∀ h, header_of c.toTarget s = some h → h.len = 0) →
      update_type c a F' s = .ok () s' →
      Call c w (owning F s) (.update_type F') (owning F' s')
  | drop {s s' : State (Metadata κ) (Consumed κ β) β} {F : κ} (U : Layout) (n : ℕ) :
      drop c w U n s = .ok true s' → Call c w (owning F s) (.drop U false) (dropped s')
  | drop_panics {s s' : State (Metadata κ) (Consumed κ β) β} {F : κ} (U : Layout) (n : ℕ) :
      drop c w U n s = .error (.panic .user) s' →
      Call c w (owning F s) (.drop U true) (dropped s')

/-- The size of the closure and the number of closures fit the fields of the header. -/
def Within (c : Closures κ β) (s : System κ β) : Event κ β → Prop
  | .new F => (c.layout F).size < 2^32
  | .update_type F => (c.layout F).size < 2^32
  | .push _ _ => ∀ v h, s.vec = some v →
      header_of c.toTarget ⟨s.heap,v.data,s.log⟩ = some h → h.len+1 < 2^c.BITS
  | _ => True

abbrev Step [Inhabited β] (c : Closures κ β) (w : World κ β) :
    System κ β → Event κ β → System κ β → Prop := When (Call c w) (Within c)

structure Pile (κ β : Type) where
  fn : κ
  tasks : List (List β)

structure Ledger (κ β : Type) where
  pile : Option (Pile κ β)
  used : List (Consumed κ β)

/-- What the vec is for. -/
inductive Spec (layout : κ → Layout) (w : World κ β) : Ledger κ β → Event κ β → Ledger κ β → Prop
  | new {us : List (Consumed κ β)} (F : κ) :
      Spec layout w ⟨none,us⟩ (.new F) ⟨some ⟨F,[]⟩,us⟩
  | push {us : List (Consumed κ β)} {F : κ} {xs : List (List β)} {x : List β} :
      x.length = (layout F).size →
      Spec layout w ⟨some ⟨F,xs⟩,us⟩ (.push F x) ⟨some ⟨F,x :: xs⟩,us⟩
  | pop_none {us : List (Consumed κ β)} {F : κ} (U : Layout) :
      Spec layout w ⟨some ⟨F,[]⟩,us⟩ (.pop_and_run U (some true)) ⟨some ⟨F,[]⟩,us⟩
  | pop {us : List (Consumed κ β)} {F : κ} {xs : List (List β)} {x : List β} (U : Layout) :
      w us ⟨F,x,false⟩ = false →
      Spec layout w ⟨some ⟨F,x :: xs⟩,us⟩ (.pop_and_run U (some false))
        ⟨some ⟨F,xs⟩,us++[⟨F,x,false⟩]⟩
  | pop_panics {us : List (Consumed κ β)} {F : κ} {xs : List (List β)} {x : List β} (U : Layout) :
      w us ⟨F,x,false⟩ = true →
      Spec layout w ⟨some ⟨F,x :: xs⟩,us⟩ (.pop_and_run U none) ⟨some ⟨F,xs⟩,us++[⟨F,x,false⟩]⟩
  | clear {us : List (Consumed κ β)} {F : κ} {xs : List (List β)} (U : Layout) :
      Spec layout w ⟨some ⟨F,xs⟩,us⟩ (.clear U (sweep w F us xs).panicked)
        ⟨some ⟨F,(sweep w F us xs).left⟩,(sweep w F us xs).used⟩
  | update_type {us : List (Consumed κ β)} {F : κ} (F' : κ) :
      Spec layout w ⟨some ⟨F,[]⟩,us⟩ (.update_type F') ⟨some ⟨F',[]⟩,us⟩
  | drop {us : List (Consumed κ β)} {F : κ} {xs : List (List β)} (U : Layout) :
      Spec layout w ⟨some ⟨F,xs⟩,us⟩ (.drop U (sweep w F us xs).panicked)
        ⟨none,(sweep w F us xs).used⟩

inductive Represents (c : Closures κ β) : System κ β → Ledger κ β → Prop
  | none (heap : Heap β) (log : List (Effect (Metadata κ) (Consumed κ β))) :
      Represents c ⟨heap,log,none⟩ ⟨none,consumed log⟩
  | some {F : κ} {xs : List (List β)} {s : State (Metadata κ) (Consumed κ β) β} :
      Holds c F xs s → Represents c (owning F s) ⟨some ⟨F,xs⟩,consumed s.log⟩

variable {c : Closures κ β} {w : World κ β} {k : Ledger κ β}

theorem represents_some {F : κ} {s : State (Metadata κ) (Consumed κ β) β}
    (hr : Represents c (owning F s) k) :
    ∃ xs, k = ⟨some ⟨F,xs⟩,consumed s.log⟩ ∧ Holds c F xs s := by
  generalize hs : owning F s = sys at hr
  cases hr with
  | none => cases hs
  | @some F' xs s₀ hh =>
    simp only [owning, System.mk.injEq, Option.some.injEq, Handle.mk.injEq] at hs
    obtain ⟨hheap,hlog,rfl,hdata⟩ := hs
    obtain ⟨heap,data,log⟩ := s
    obtain ⟨heap₀,data₀,log₀⟩ := s₀
    simp only at hheap hlog hdata
    subst hheap hlog hdata
    exact ⟨xs,rfl,hh⟩

theorem represents_of {F : κ} {xs : List (List β)} {us : List (Consumed κ β)}
    {s : State (Metadata κ) (Consumed κ β) β} (hs : Holds c F xs s) (hlog : consumed s.log = us) :
    Represents c (owning F s) ⟨some ⟨F,xs⟩,us⟩ := hlog ▸ .some hs

theorem represents_dropped {us : List (Consumed κ β)} {s : State (Metadata κ) (Consumed κ β) β}
    (hlog : consumed s.log = us) : Represents c (dropped s) ⟨none,us⟩ := hlog ▸ .none _ _

theorem represents_inited {F : κ} {kept before : List Block} {ds : List (Metadata κ)}
    {spot : ℕ → Prop} {big : Prop} {s s' : State (Metadata κ) (Consumed κ β) β}
    (hi : Inited c.toTarget (c.layout F) (INIT F) kept before ds spot big s (.ok () s')) :
    Represents c (owning F s') ⟨some ⟨F,[]⟩,consumed s.log⟩ := by
  cases hi with
  | ok hb _ hlog =>
    refine represents_of ⟨_,hb.live,rfl⟩ ?_
    rw [hlog, consumed_append, consumed_drops, List.append_nil]

theorem update_type_spec {a : Allocator β} {F F' : κ} {xs : List (List β)}
    {s s' : State (Metadata κ) (Consumed κ β) β} (ht : Element c.toTarget (c.layout F'))
    (hs : Holds c F xs s) (hempty : ∀ h, header_of c.toTarget s = some h → h.len = 0)
    (hu : update_type c a F' s = .ok () s') :
    xs = [] ∧ Represents c (owning F' s') ⟨some ⟨F',[]⟩,consumed s.log⟩ := by
  obtain ⟨h,hl,-⟩ := hs
  have hnil : xs.reverse = [] := by
    rw [← List.length_eq_zero_iff, ← hl.len]
    exact hempty h (header_of_live hl)
  refine ⟨List.reverse_eq_nil_iff.mp hnil,?_⟩
  rw [update_type] at hu
  by_cases hd : s.data = dangling c.toTarget (c.layout F')
  · have hr := init_dangling (a := a) ht hd (INIT F')
    rw [hu] at hr
    exact represents_inited hr
  · obtain ⟨_,_,hr,-⟩ := init_live (a := a) ht hl (.inl hnil) hd (INIT F')
    rw [hu] at hr
    exact represents_inited hr

variable [Inhabited β] {s s' : System κ β} {e : Event κ β} {es : List (Event κ β)}

section Sweeps

variable {F : κ} {U : Layout} {xs : List (List β)} {n : ℕ}
  {s : State (Metadata κ) (Consumed κ β) β}

theorem pop_spec (hs : Holds c F xs s) (ha : Asserts c.toTarget U s) :
    ∃ o s' k', pop_and_run c w U s = (match o with
        | some b => .ok b s'
        | none => .error (.panic .user) s') ∧
      Spec c.layout w ⟨some ⟨F,xs⟩,consumed s.log⟩ (.pop_and_run U o) k' ∧
      Represents c (owning F s') k' := by
  cases xs with
  | nil => exact ⟨some true,s,_,pop_and_run_empty hs ha false,.pop_none U,.some hs⟩
  | cons x xs =>
    obtain ⟨s₁,hrun,hs₁,hlog,-⟩ := pop_and_run_top (w := w) hs ha false
    cases hw : w (consumed s.log) ⟨F,x,false⟩ with
    | true =>
      rw [if_pos hw] at hrun
      exact ⟨none,s₁,_,hrun,.pop_panics U hw,represents_of hs₁ hlog⟩
    | false =>
      rw [if_neg (by simp [hw])] at hrun
      exact ⟨some false,s₁,_,hrun,.pop U hw,represents_of hs₁ hlog⟩

theorem clear_spec (hs : Holds c F xs s) (ha : Asserts c.toTarget U s) :
    (∃ s', clear c w U n s = .ok false s') ∨
    ∃ b s' k', clear c w U n s = (match b with
        | true => .error (.panic .user) s'
        | false => .ok true s') ∧
      Spec c.layout w ⟨some ⟨F,xs⟩,consumed s.log⟩ (.clear U b) k' ∧
      Represents c (owning F s') k' := by
  rcases clear_run (w := w) (n := n) hs ha with ⟨-,s₁,h⟩ | ⟨s₁,h,hs₁,hlog,-⟩
  · exact .inl ⟨s₁,h⟩
  · refine .inr ⟨_,s₁,_,?_,.clear U,represents_of hs₁ hlog⟩
    rw [h]
    cases (sweep w F (consumed s.log) xs).panicked <;> rfl

theorem drop_spec (hs : Holds c F xs s) (ha : Asserts c.toTarget U s) :
    (∃ s', drop c w U n s = .ok false s') ∨ (∃ s', drop c w U n s = .error .abort s') ∨
    ∃ b s' k', drop c w U n s = (match b with
        | true => .error (.panic .user) s'
        | false => .ok true s') ∧
      Spec c.layout w ⟨some ⟨F,xs⟩,consumed s.log⟩ (.drop U b) k' ∧
      Represents c (dropped s') k' := by
  rcases drop_swept (w := w) (n := n) hs ha with ⟨-,s₁,h⟩ | ⟨s₁,h,hlog⟩
  · exact .inl ⟨s₁,h⟩
  by_cases hab : (sweep w F (consumed s.log) xs).panicked = true ∧ c.debug_assertions = true ∧
      (sweep w F (consumed s.log) xs).left ≠ []
  · rw [if_pos hab.1, if_pos hab.2] at h
    exact .inr (.inl ⟨s₁,h⟩)
  · refine .inr (.inr ⟨_,s₁,_,?_,.drop U,represents_dropped hlog⟩)
    rw [h]
    cases hp : (sweep w F (consumed s.log) xs).panicked with
    | true => exact if_neg (fun hleft => hab ⟨hp,hleft⟩)
    | false => rfl

end Sweeps

theorem step_spec (hr : Represents c s k) (hstep : Step c w s e s') :
    ∃ k', Spec c.layout w k e k' ∧ Represents c s' k' := by
  obtain ⟨hcall,hwithin⟩ := hstep
  cases hcall with
  | @new heap log a F s' ht hn =>
    cases hr
    have hi := new_run (a := a) (s := ⟨heap,0,log⟩) ⟨hwithin,ht⟩ (INIT F)
    rw [ClosureMachine.new] at hn
    rw [hn] at hi
    exact ⟨_,.new F,represents_inited hi⟩
  | push x hp =>
    obtain ⟨xs,rfl,h,hl,hm⟩ := represents_some hr
    have hlt := hwithin _ h rfl (header_of_live hl)
    rw [hl.len] at hlt
    obtain ⟨cap,hl',-,hlog,-⟩ := push_returns hl x.toList_length hlt hp
    rw [← List.reverse_cons] at hl'
    exact ⟨_,.push x.toList_length,represents_of ⟨_,hl',hm⟩ (congrArg consumed hlog)⟩
  | pop_and_run U hp =>
    obtain ⟨xs,rfl,hs⟩ := represents_some hr
    obtain ⟨o,s₁,k',h,hspec,hr'⟩ := pop_spec (w := w) hs (asserts_of_pop_and_run hs (.inl ⟨_,hp⟩))
    rw [hp] at h
    cases o <;> cases h
    exact ⟨k',hspec,hr'⟩
  | pop_panics U hp =>
    obtain ⟨xs,rfl,hs⟩ := represents_some hr
    obtain ⟨o,s₁,k',h,hspec,hr'⟩ := pop_spec (w := w) hs (asserts_of_pop_and_run hs (.inr hp))
    rw [hp] at h
    cases o <;> cases h
    exact ⟨k',hspec,hr'⟩
  | clear U n hc =>
    obtain ⟨xs,rfl,hs⟩ := represents_some hr
    rcases clear_spec (w := w) (n := n) hs (asserts_of_clear hs (.inl hc)) with
      ⟨s₁,h⟩ | ⟨b,s₁,k',h,hspec,hr'⟩ <;> rw [hc] at h
    · cases h
    · cases b <;> cases h
      exact ⟨k',hspec,hr'⟩
  | clear_panics U n hc =>
    obtain ⟨xs,rfl,hs⟩ := represents_some hr
    rcases clear_spec (w := w) (n := n) hs (asserts_of_clear hs (.inr hc)) with
      ⟨s₁,h⟩ | ⟨b,s₁,k',h,hspec,hr'⟩ <;> rw [hc] at h
    · cases h
    · cases b <;> cases h
      exact ⟨k',hspec,hr'⟩
  | @update_type s s' a F F' ht hempty hi =>
    obtain ⟨xs,rfl,hs⟩ := represents_some hr
    obtain ⟨rfl,hr'⟩ := update_type_spec ⟨hwithin,ht⟩ hs hempty hi
    exact ⟨_,.update_type F',hr'⟩
  | drop U n hd =>
    obtain ⟨xs,rfl,hs⟩ := represents_some hr
    rcases drop_spec (w := w) (n := n) hs (asserts_of_drop hs (.inl hd)) with
      ⟨s₁,h⟩ | ⟨s₁,h⟩ | ⟨b,s₁,k',h,hspec,hr'⟩ <;> rw [hd] at h
    · cases h
    · cases h
    · cases b <;> cases h
      exact ⟨k',hspec,hr'⟩
  | drop_panics U n hd =>
    obtain ⟨xs,rfl,hs⟩ := represents_some hr
    rcases drop_spec (w := w) (n := n) hs (asserts_of_drop hs (.inr hd)) with
      ⟨s₁,h⟩ | ⟨s₁,h⟩ | ⟨b,s₁,k',h,hspec,hr'⟩ <;> rw [hd] at h
    · cases h
    · cases h
    · cases b <;> cases h
      exact ⟨k',hspec,hr'⟩

omit [Inhabited β] in
theorem spec_pushes {layout : κ → Layout} {F : κ} {us : List (Consumed κ β)}
    (xs : List (List β)) (h : Steps (Spec layout w) ⟨some ⟨F,[]⟩,us⟩ (xs.map (.push F)) k) :
    k = ⟨some ⟨F,xs.reverse⟩,us⟩ := by
  induction xs using List.reverseRecOn generalizing k with
  | nil => exact h.of_nil
  | append_singleton xs x ih =>
    rw [List.map_append] at h
    obtain ⟨k₁,h₁,h₂⟩ := h.split
    obtain rfl := ih h₁
    rw [List.reverse_append, List.reverse_singleton, List.singleton_append]
    generalize xs.reverse = ys at h₂ ⊢
    cases h₂.of_single
    rfl

theorem spec_run {heap : Heap β} (hrun : Steps (Step c w) ⟨heap,[],none⟩ es s) :
    ∃ k, Steps (Spec c.layout w) ⟨none,[]⟩ es k ∧ Represents c s k := by
  induction hrun with
  | refl => exact ⟨_,.refl,.none _ _⟩
  | next _ hone ih =>
    obtain ⟨k,hspec,hr⟩ := ih
    obtain ⟨k',hstep,hr'⟩ := step_spec hr hone
    exact ⟨k',hspec.next hstep,hr'⟩

end Programs

section Accounts

def pushed : Event κ β → List (κ × List β)
  | .push F x => [(F,x)]
  | _ => []

def taken (u : Consumed κ β) : κ × List β := (u.task_fn,u.bytes)

def Ledger.remaining (k : Ledger κ β) : List (κ × List β) :=
  k.pile.elim [] (fun p => p.tasks.map (Prod.mk p.fn))

def Calm (es : List (Event κ β)) : Prop := ∀ U, Event.drop U true ∉ es

/-- What has become of the closures pushed by the calls `es`. -/
structure Accounted (es : List (Event κ β)) (k : Ledger κ β) : Prop where
  once : ∃ lost, (es.flatMap pushed).Perm (k.used.map taken++k.remaining++lost)
  kept : Calm es → (es.flatMap pushed).Perm (k.used.map taken++k.remaining)
  cleared : ∀ es' U, es = es'++[.clear U false] → Calm es →
    (es.flatMap pushed).Perm (k.used.map taken)

variable {layout : κ → Layout} {w : World κ β} {k k' : Ledger κ β} {e : Event κ β}
  {es : List (Event κ β)}

theorem sweep_taken (w : World κ β) (F : κ) (us : List (Consumed κ β)) (xs : List (List β)) :
    us.map taken++xs.map (Prod.mk F) =
      (sweep w F us xs).used.map taken++(sweep w F us xs).left.map (Prod.mk F) := by
  obtain ⟨ts,h1,h2,-⟩ := sweep_spec w F us xs
  rw [h2]
  conv_lhs => rw [h1]
  simp [taken,Function.comp_def]

theorem spec_step_perm (h : Spec layout w k e k') :
    ∃ lost, (k.used.map taken++k.remaining++pushed e).Perm
        (k'.used.map taken++k'.remaining++lost) ∧ (lost ≠ [] → ∃ U, e = .drop U true) := by
  cases h with
  | new => exact ⟨[],.rfl,by simp⟩
  | @push us F xs x hx =>
    refine ⟨[],?_,by simp⟩
    simp only [Ledger.remaining, Option.elim, pushed, List.map_cons, List.append_nil,
      List.append_assoc]
    have hswap : (xs.map (Prod.mk F)++[(F,x)]).Perm ((F,x) :: xs.map (Prod.mk F)) :=
      List.perm_append_singleton _ _
    exact hswap.append_left _
  | pop_none => exact ⟨[],.rfl,by simp⟩
  | pop => exact ⟨[],by simp [Ledger.remaining,pushed,taken],by simp⟩
  | pop_panics => exact ⟨[],by simp [Ledger.remaining,pushed,taken],by simp⟩
  | @clear us F xs U =>
    exact ⟨[],.of_eq (congrArg (·++[]) (sweep_taken w F us xs)),by simp⟩
  | update_type => exact ⟨[],.rfl,by simp⟩
  | @drop us F xs U =>
    refine ⟨(sweep w F us xs).left.map (Prod.mk F),.of_eq ?_,fun hne => ⟨U,?_⟩⟩
    · simpa [Ledger.remaining,pushed] using sweep_taken w F us xs
    · obtain ⟨-,-,-,h3⟩ := sweep_spec w F us xs
      by_contra hp
      refine hne (List.map_eq_nil_iff.mpr (h3 ?_))
      simpa using hp

theorem cleared_remaining {U : Layout} (h : Spec layout w k (.clear U false) k') :
    k'.remaining = [] := by
  generalize he : Event.clear U false = e at h
  cases h with
  | @clear us F xs U' =>
    obtain ⟨-,-,-,h3⟩ := sweep_spec w F us xs
    simp only [Event.clear.injEq] at he
    simp [Ledger.remaining,h3 he.2.symm]
  | new | push | pop_none | pop | pop_panics | update_type | drop => cases he

theorem ledger_run (h : Steps (Spec layout w) ⟨none,[]⟩ es k) :
    (∃ lost, (es.flatMap pushed).Perm (k.used.map taken++k.remaining++lost) ∧
      (Calm es → lost = [])) ∧ ∀ es' U, es = es'++[.clear U false] → k.remaining = [] := by
  induction h with
  | refl => exact ⟨⟨[],.rfl,fun _ => rfl⟩,fun es' U h0 => absurd h0 (by simp)⟩
  | @next es k e k' _ hone ih =>
    obtain ⟨⟨lost,hperm,hlost⟩,-⟩ := ih
    obtain ⟨lost',hperm',hlost'⟩ := spec_step_perm hone
    refine ⟨⟨lost'++lost,?_,fun hcalm => ?_⟩,fun es' U he => ?_⟩
    · rw [List.flatMap_append, List.flatMap_singleton, ← List.append_assoc _ lost' lost]
      have h1 := hperm.append_right (pushed e)
      have h2 := hperm'.append_right lost
      refine h1.trans (.trans ?_ h2)
      rw [List.append_assoc, List.append_assoc _ (pushed e)]
      have hswap : (lost++pushed e).Perm (pushed e++lost) := List.perm_append_comm
      exact hswap.append_left _
    · have h1 := hlost (fun U hU => hcalm U (List.mem_append_left _ hU))
      have h2 : lost' = [] := by
        by_contra hne
        obtain ⟨U,rfl⟩ := hlost' hne
        exact hcalm U (by simp)
      rw [h1, h2, List.append_nil]
    · obtain ⟨-,he⟩ := List.append_inj' he rfl
      obtain rfl := List.singleton_inj.mp he
      exact cleared_remaining hone

theorem accounted_run (h : Steps (Spec layout w) ⟨none,[]⟩ es k) : Accounted es k := by
  obtain ⟨⟨lost,hperm,hlost⟩,hclear⟩ := ledger_run h
  have hkept (hcalm : Calm es) : (es.flatMap pushed).Perm (k.used.map taken++k.remaining) := by
    rwa [hlost hcalm, List.append_nil] at hperm
  refine ⟨⟨lost,hperm⟩,hkept,fun es' U he hcalm => ?_⟩
  have := hkept hcalm
  rwa [hclear es' U he, List.append_nil] at this

end Accounts

section Result

variable [Inhabited β]

/-- What `pop_and_run` and `clear` do at any type to a vec that holds the closures `xs`. -/
structure Consumes (c : Closures κ β) (w : World κ β) (U : Layout) (F : κ) (xs : List (List β))
    (s : State (Metadata κ) (Consumed κ β) β) : Prop where
  empty : xs = [] → pop_and_run c w U s = .ok true s
  top : ∀ x ys, xs = x :: ys → ∃ s', pop_and_run c w U s =
      (if w (consumed s.log) ⟨F,x,false⟩ then .error (.panic .user) s' else .ok false s') ∧
    Holds c F ys s' ∧ consumed s'.log = consumed s.log++[⟨F,x,false⟩]
  clear : ∀ n, xs.length < n → ∃ s', clear c w U n s =
      (if (sweep w F (consumed s.log) xs).panicked then .error (.panic .user) s' else .ok true s') ∧
    Holds c F (sweep w F (consumed s.log) xs).left s' ∧
    consumed s'.log = (sweep w F (consumed s.log) xs).used

variable {c : Closures κ β} {w : World κ β}

theorem Consumes.of_holds {U : Layout} {F : κ} {xs : List (List β)}
    {s : State (Metadata κ) (Consumed κ β) β} (hs : Holds c F xs s)
    (ha : Asserts c.toTarget U s) : Consumes c w U F xs s where
  empty := by
    rintro rfl
    exact pop_and_run_empty hs ha false
  top := by
    rintro x ys rfl
    obtain ⟨s',h1,h2,h3,-⟩ := pop_and_run_top (w := w) hs ha false
    exact ⟨s',h1,h2,h3⟩
  clear := by
    intro n hn
    rcases clear_run (w := w) (n := n) hs ha with ⟨hle,-⟩ | ⟨s',h1,h2,h3,-⟩
    · exact absurd hle (Nat.not_le_of_lt hn)
    · exact ⟨s',h1,h2,h3⟩

/-- Every run of the vec is one of the pile, and accounts for each closure once. Where it has come
to, `pop_and_run` and `clear` at any type take the closures from the top. -/
theorem consumes_once {heap : Heap β} {es : List (Event κ β)} {s : System κ β}
    (hrun : Steps (Step c w) ⟨heap,[],none⟩ es s) :
    ∃ k, Steps (Spec c.layout w) ⟨none,[]⟩ es k ∧ k.used = consumed s.log ∧ Accounted es k ∧
      ∀ v, s.vec = some v → ∃ xs, k.pile = some ⟨v.fn,xs⟩ ∧
        ∀ U, Asserts c.toTarget U ⟨s.heap,v.data,s.log⟩ →
          Consumes c w U v.fn xs ⟨s.heap,v.data,s.log⟩ := by
  obtain ⟨k,hspec,hr⟩ := spec_run hrun
  refine ⟨k,hspec,?_,accounted_run hspec,fun v hv => ?_⟩
  · cases hr <;> rfl
  · obtain ⟨heap',log,vec⟩ := s
    obtain rfl : vec = some v := hv
    obtain ⟨xs,rfl,hs⟩ := represents_some (s := ⟨heap',v.data,log⟩) hr
    exact ⟨xs,rfl,fun U ha => .of_holds hs ha⟩

end Result

section Sample

def closures (debug_assertions : Bool) : Closures Bool (Header (Metadata Bool) ⊕ ℕ) where
  toTarget := VecStack.sample (Metadata Bool) debug_assertions
  layout
    | true => VecStack.long
    | false => VecStack.short
  quiet _ := rfl

def capture (n : ℕ) : List.Vector (Header (Metadata Bool) ⊕ ℕ)
    ((closures true).layout false).size := ⟨[.inr n,.inr 0],rfl⟩

/-- The closure that captures 2 panics, be it run or dropped. -/
def loud : World Bool (Header (Metadata Bool) ⊕ ℕ) := fun _ u =>
  match u.bytes with
  | .inr 2 :: _ => true
  | _ => false

def captures : List (List (Header (Metadata Bool) ⊕ ℕ)) :=
  [(capture 1).toList,(capture 2).toList,(capture 3).toList]

/-- Of three closures the second one ends the `clear` with its panic; the one below is run. -/
def three : List (Event Bool (Header (Metadata Bool) ⊕ ℕ)) :=
  [.new true,.update_type false]++captures.map (.push false)++
    [.clear .unit true,.pop_and_run .unit (some false),.drop .unit false]

theorem captures_held : ∃ t, Steps (Step (closures true) loud) ⟨VecStack.blank _,[],none⟩
      ([.new true,.update_type false]++captures.map (.push false)) (owning false t) ∧
    Asserts (closures true).toTarget .unit t ∧ consumed t.log = [] ∧
    Holds (closures true) false captures.reverse t := by
  obtain ⟨_,h₁,_,h₂,_,h₃,_,h₄,t,h₅,ha⟩ : ∃ s₁, Step (closures true) loud
        ⟨VecStack.blank _,[],none⟩ (.new true) s₁ ∧
      ∃ s₂, Step (closures true) loud s₁ (.update_type false) s₂ ∧
      ∃ s₃, Step (closures true) loud s₂ (.push false (capture 1).toList) s₃ ∧
      ∃ s₄, Step (closures true) loud s₃ (.push false (capture 2).toList) s₄ ∧
      ∃ t, Step (closures true) loud s₄ (.push false (capture 3).toList) (owning false t) ∧
        Asserts (closures true).toTarget .unit t := by
    refine ⟨_,⟨.new (a := VecStack.shelf _) (by decide) rfl,
      (by decide : VecStack.long.size < 2^32)⟩,?_⟩
    refine ⟨_,⟨.update_type (a := VecStack.shelf _) (by decide) (by rintro h ⟨⟩; rfl) rfl,
      (by decide : VecStack.short.size < 2^32)⟩,?_⟩
    refine ⟨_,⟨.push (a := VecStack.shelf _) (capture 1) rfl,by rintro _ h ⟨⟩ ⟨⟩; decide⟩,?_⟩
    refine ⟨_,⟨.push (a := VecStack.shelf _) (capture 2) rfl,by rintro _ h ⟨⟩ ⟨⟩; decide⟩,?_⟩
    exact ⟨_,⟨.push (a := VecStack.shelf _) (capture 3) rfl,by rintro _ h ⟨⟩ ⟨⟩; decide⟩,
      fun _ => by decide⟩
  have hs := ((((Steps.refl.next h₁).next h₂).next h₃).next h₄).next h₅
  obtain ⟨k,hspec,hr⟩ := spec_run hs
  obtain ⟨k₁,hk₁,hk₂⟩ := Steps.split (h := [_,_]) hspec
  obtain ⟨k₂,hk₃,hk₄⟩ := Steps.split (h := [_]) hk₁
  cases hk₃.of_single
  cases hk₄.of_single
  obtain rfl := spec_pushes captures hk₂
  obtain ⟨xs,he,hh⟩ := represents_some hr
  obtain ⟨hp,hlog⟩ := Ledger.mk.inj he
  cases hp
  exact ⟨t,hs,ha,hlog.symm,hh⟩

theorem consumes_once_loud : ∃ (s : System Bool (Header (Metadata Bool) ⊕ ℕ))
    (k : Ledger Bool (Header (Metadata Bool) ⊕ ℕ)),
    Steps (Step (closures true) loud) ⟨VecStack.blank _,[],none⟩ three s ∧
    Steps (Spec (closures true).layout loud) ⟨none,[]⟩ three k ∧ k.used = consumed s.log ∧
    k.used = [⟨false,(capture 3).toList,true⟩,⟨false,(capture 2).toList,true⟩,
      ⟨false,(capture 1).toList,false⟩] ∧ Accounted three k := by
  obtain ⟨t,hs,ha,hlog,hh⟩ := captures_held
  obtain ⟨t₁,hc,hh₁,hlog₁,hd₁⟩ :=
    (clear_run (w := loud) (n := 4) hh ha).resolve_left (fun h => absurd h.1 (by decide))
  rw [hlog] at hc hh₁ hlog₁
  obtain ⟨t₂,hp,hh₂,hlog₂,hd₂⟩ :=
    pop_and_run_top (w := loud) hh₁ (fun h0 => hd₁ ▸ ha h0) false
  obtain ⟨t₃,hd,hlog₃⟩ := (drop_swept (w := loud) (n := 1) hh₂
    (fun h0 => hd₂ ▸ hd₁ ▸ ha h0)).resolve_left (fun h => absurd h.1 (by decide))
  rw [hlog₁] at hp hlog₂
  have hrun : Steps (Step (closures true) loud) ⟨VecStack.blank _,[],none⟩ three (dropped t₃) :=
    ((hs.next ⟨.clear_panics .unit 4 hc,trivial⟩).next ⟨.pop_and_run .unit hp,trivial⟩).next
      ⟨.drop .unit 1 hd,trivial⟩
  obtain ⟨k,hspec,hused,hacc,-⟩ := consumes_once hrun
  exact ⟨_,k,hrun,hspec,hused,hused.trans (hlog₃.trans hlog₂),hacc⟩

end Sample
end Lockness.ClosureStack
