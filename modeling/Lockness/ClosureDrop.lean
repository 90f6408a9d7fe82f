import Lockness.ClosureLimits

/-!
# What a panic in `drop` loses

`Drop for ClosureVec` clears the vec once. A destructor that panics above the
bottom of the pile ends the loop with closures left: the drop of the field then
leaks them, or finds its assertion violated while the thread unwinds.
-/

set_option autoImplicit false

namespace Lockness.ClosureDrop
open Lockness.PoolRuns Lockness.VecLayout Lockness.VecHeap Lockness.VecHeader Lockness.VecElements
open Lockness.VecRoom Lockness.VecCalls Lockness.ClosureMachine Lockness.ClosureStack
open Lockness.ClosureLimits
open Lockness.VecMachine hiding new push drop
open Lockness.VecStack (header_of header_of_live)

variable {κ β : Type}

def dropping (F : κ) (x : List β) : Consumed κ β := ⟨F,x,true⟩

/-- No closure but the one at the bottom panics when it is dropped after those above it. -/
def Guarded (w : World κ β) (F : κ) (us : List (Consumed κ β)) (xs : List (List β)) : Prop :=
  ∀ zs x ys, xs = zs++x :: ys → ys ≠ [] → w (us++zs.map (dropping F)) (dropping F x) = false

/-- All closures `xs` have been dropped when the field is, whose assertion does not fail. -/
def LosesNone [Inhabited β] (c : Closures κ β) (w : World κ β) (U : Layout) (n : ℕ) (F : κ)
    (xs : List (List β)) (s : State (Metadata κ) (Consumed κ β) β) : Prop :=
  ∃ s₁ h s', (clear c w U n s = .ok true s₁ ∨ ∃ p, clear c w U n s = .error (.panic p) s₁) ∧
    consumed s₁.log = consumed s.log++xs.map (dropping F) ∧
    header_of c.toTarget s₁ = some h ∧ h.len = 0 ∧
    (drop c w U n s = .ok true s' ∨ ∃ p, drop c w U n s = .error (.panic p) s') ∧
    consumed s'.log = consumed s₁.log

section Sweeping

variable {w : World κ β} {F : κ} {us : List (Consumed κ β)} {x : List β} {xs : List (List β)}

theorem guarded_nil : Guarded w F us [] := fun _ _ _ h => absurd h (by simp)

theorem guarded_cons : Guarded w F us (x :: xs) ↔
    (xs ≠ [] → w us (dropping F x) = false) ∧ Guarded w F (us++[dropping F x]) xs := by
  constructor
  · intro h
    refine ⟨fun hne => by simpa using h [] x xs rfl hne,fun zs y ys he hne => ?_⟩
    rw [List.append_assoc]
    exact h (x :: zs) y ys (congrArg (x :: ·) he) hne
  · rintro ⟨h1,h2⟩ zs y ys he hne
    cases zs with
    | nil =>
      obtain ⟨rfl,rfl⟩ := List.cons.inj he
      simpa using h1 hne
    | cons z zs =>
      obtain ⟨rfl,he'⟩ := List.cons.inj he
      have := h2 zs y ys he' hne
      rwa [List.append_assoc] at this

theorem left_eq_nil : (sweep w F us xs).left = [] ↔ Guarded w F us xs := by
  induction xs generalizing us with
  | nil => exact ⟨fun _ => guarded_nil,fun _ => rfl⟩
  | cons x xs ih =>
    rw [sweep, guarded_cons]
    split
    · rename_i hw
      constructor
      · intro hnil
        simp only at hnil
        subst hnil
        exact ⟨fun h => absurd rfl h,guarded_nil⟩
      · rintro ⟨h,-⟩
        by_contra hne
        rw [show w us (dropping F x) = true from hw] at h
        exact absurd (h hne) (by simp)
    · rename_i hw
      rw [Bool.not_eq_true] at hw
      exact ih.trans ⟨fun h => ⟨fun _ => hw,h⟩,fun h => h.2⟩

theorem used_of_left (h : (sweep w F us xs).left = []) :
    (sweep w F us xs).used = us++xs.map (dropping F) := by
  obtain ⟨ts,h1,h2,-⟩ := sweep_spec w F us xs
  rw [h, List.append_nil] at h1
  rw [h2, ← h1]
  rfl

end Sweeping

variable [Inhabited β] {c : Closures κ β} {w : World κ β} {F : κ} {U : Layout} {n : ℕ}
  {xs : List (List β)} {s s₁ : State (Metadata κ) (Consumed κ β) β}

omit [Inhabited β] in
theorem length_of_header {h : Header (Metadata κ)} (hs : Holds c F xs s)
    (hh : header_of c.toTarget s = some h) : h.len = xs.length := by
  obtain ⟨h',hl,-⟩ := hs
  rw [header_of_live hl] at hh
  cases hh
  rw [hl.len, List.length_reverse]

omit [Inhabited β] in
theorem header_of_holds (hs : Holds c F xs s) : ∃ h, header_of c.toTarget s = some h ∧
    h.len = xs.length := by
  obtain ⟨h,hl,hm⟩ := hs
  exact ⟨h,header_of_live hl,length_of_header ⟨h,hl,hm⟩ (header_of_live hl)⟩

theorem loses_none_refused (hs : Holds c F xs s) (ha : ¬ Asserts c.toTarget U s)
    (hn : xs.length < n) : LosesNone c w U n F xs s ↔ xs = [] := by
  obtain ⟨n,rfl⟩ := Nat.exists_eq_add_of_lt (Nat.zero_lt_of_lt hn)
  rw [Nat.zero_add]
  have hc : clear c w U (n+1) s = .error (.panic .assertion) s := by
    rw [clear, bind_error (pop_and_run_refused hs ha true)]
  constructor
  · rintro ⟨s₁,-,-,hrun,hlog,-⟩
    rw [hc] at hrun
    rcases hrun with h | ⟨_,h⟩ <;> cases h
    simpa using hlog
  · rintro rfl
    obtain ⟨h,hh,hlen⟩ := header_of_holds hs
    exact ⟨s,h,s,.inr ⟨_,hc⟩,by simp,hh,hlen,.inr ⟨_,drop_refused hs ha n⟩,rfl⟩

theorem loses_none_swept (hs : Holds c F xs s) (ha : Asserts c.toTarget U s)
    (hn : xs.length < n) : LosesNone c w U n F xs s ↔ Guarded w F (consumed s.log) xs := by
  rw [← left_eq_nil]
  have hle : ¬ n ≤ xs.length := Nat.not_le_of_lt hn
  obtain ⟨s₁,hc,hs₁,hlog₁,-⟩ := (clear_run (w := w) (n := n) hs ha).resolve_left (fun h => hle h.1)
  obtain ⟨s₂,hd,hlog₂⟩ := (drop_swept (w := w) (n := n) hs ha).resolve_left (fun h => hle h.1)
  constructor
  · rintro ⟨s₁',h,-,hrun,-,hh,hlen,-⟩
    have he : s₁ = s₁' := by
      rw [hc] at hrun
      split at hrun <;> rcases hrun with h | ⟨_,h⟩ <;> cases h <;> rfl
    subst he
    rw [← List.length_eq_zero_iff, ← length_of_header hs₁ hh]
    exact hlen
  · intro hleft
    obtain ⟨h,hh,hlen⟩ := header_of_holds hs₁
    refine ⟨s₁,h,s₂,?_,hlog₁.trans (used_of_left hleft),hh,by rw [hlen, hleft]; rfl,?_,
      hlog₂.trans hlog₁.symm⟩
    · split at hc
      · exact .inr ⟨_,hc⟩
      · exact .inl hc
    · simp only [hleft, ne_eq, not_true, and_false, if_false] at hd
      split at hd
      · exact .inr ⟨_,hd⟩
      · exact .inl hd

/-- In every state that a program reaches, a drop of the vec loses no closure if and only if it
holds none, or none but the bottom one panics and its first assertion passes. -/
theorem drop_loses_none {heap : Heap β} {es : List (Event κ β)} {s : System κ β}
    (hrun : Steps (Step c w) ⟨heap,[],none⟩ es s) :
    ∃ k, Steps (Spec c.layout w) ⟨none,[]⟩ es k ∧ ∀ v, s.vec = some v →
      ∃ xs, k.pile = some ⟨v.fn,xs⟩ ∧ ∀ U n, xs.length < n →
        (LosesNone c w U n v.fn xs ⟨s.heap,v.data,s.log⟩ ↔
          xs = [] ∨ Asserts c.toTarget U ⟨s.heap,v.data,s.log⟩ ∧
            Guarded w v.fn (consumed s.log) xs) := by
  obtain ⟨k,hspec,hr⟩ := spec_run hrun
  refine ⟨k,hspec,fun v hv => ?_⟩
  obtain ⟨heap',log,vec⟩ := s
  obtain rfl : vec = some v := hv
  obtain ⟨xs,rfl,hs⟩ := represents_some (s := ⟨heap',v.data,log⟩) hr
  refine ⟨xs,rfl,fun U n hn => ?_⟩
  by_cases ha : Asserts c.toTarget U ⟨heap',v.data,log⟩
  · rw [loses_none_swept hs ha hn]
    refine ⟨fun h => .inr ⟨ha,h⟩,?_⟩
    rintro (rfl | ⟨-,h⟩)
    · exact guarded_nil
    · exact h
  · rw [loses_none_refused hs ha hn]
    exact ⟨.inl,fun h => h.resolve_right (fun h => ha h.1)⟩

/-- A vec whose count has wrapped around to zero drops nothing. -/
theorem loses_wrapped {h : Header (Metadata κ)} (hh : Held c.toTarget h s)
    (ha : Asserts c.toTarget U s) (h0 : h.len = 0) (hne : xs ≠ []) :
    ¬ LosesNone c w U (n+1) F xs s := by
  rintro ⟨s₁,-,-,hrun,hlog,-⟩
  rw [clear_wrapped hh ha h0 n] at hrun
  rcases hrun with h | ⟨_,h⟩ <;> cases h
  exact hne (by simpa using hlog)

section Sample

def plain (debug_assertions : Bool) : Closures Unit (Header (Metadata Unit) ⊕ ℕ) where
  toTarget := VecStack.sample (Metadata Unit) debug_assertions
  layout _ := .unit
  quiet _ := rfl

/-- The first closure that is dropped panics. -/
def first : World Unit (Header (Metadata Unit) ⊕ ℕ) := fun us _ => us.isEmpty

/-- The first one does not, the others do. -/
def second : World Unit (Header (Metadata Unit) ⊕ ℕ) := fun us _ => !us.isEmpty

theorem holds_two (debug_assertions : Bool) (w : World Unit (Header (Metadata Unit) ⊕ ℕ)) :
    ∃ t, Steps (Step (plain debug_assertions) w) ⟨VecStack.blank _,[],none⟩
      [.new (),.push () [],.push () []] (owning () t) ∧
    Holds (plain debug_assertions) () [[],[]] t ∧ consumed t.log = [] ∧
    Asserts (plain debug_assertions).toTarget .unit t := by
  obtain ⟨_,h₁,_,h₂,t,h₃,ha⟩ : ∃ s₁,
      Step (plain debug_assertions) w ⟨VecStack.blank _,[],none⟩ (.new ()) s₁ ∧
      ∃ s₂, Step (plain debug_assertions) w s₁ (.push () []) s₂ ∧
      ∃ t, Step (plain debug_assertions) w s₂ (.push () []) (owning () t) ∧
        Asserts (plain debug_assertions).toTarget .unit t := by
    cases debug_assertions
    all_goals
      refine ⟨_,⟨.new (a := VecStack.shelf _) (by decide) rfl,
        (by decide : Layout.unit.size < 2^32)⟩,?_⟩
      refine ⟨_,⟨.push (a := VecStack.shelf _) ⟨[],rfl⟩ rfl,by rintro _ h ⟨⟩ ⟨⟩; decide⟩,?_⟩
      refine ⟨_,⟨.push (a := VecStack.shelf _) ⟨[],rfl⟩ rfl,by rintro _ h ⟨⟩ ⟨⟩; decide⟩,
        fun _ => ?_⟩
      decide
  have hs := ((Steps.refl.next h₁).next h₂).next h₃
  obtain ⟨k,hspec,hr⟩ := spec_run hs
  obtain ⟨k₁,hk₁,hk₂⟩ := Steps.split (h := [_]) hspec
  cases hk₁.of_single
  obtain rfl := spec_pushes [[],[]] hk₂
  obtain ⟨xs,he,hh⟩ := represents_some hr
  obtain ⟨hxs,hlog⟩ := Ledger.mk.inj he
  cases hxs
  exact ⟨t,hs,hh,hlog.symm,ha⟩

/-- Two closures, of which only the one at the bottom panics. -/
theorem drop_loses_none_two : ∃ t, Steps (Step (plain true) second) ⟨VecStack.blank _,[],none⟩
      [.new (),.push () [],.push () []] (owning () t) ∧
    LosesNone (plain true) second .unit 3 () [[],[]] t := by
  obtain ⟨t,hrun,hh,hlog,ha⟩ := holds_two true second
  have hg : Guarded second () (consumed t.log) [[],[]] := by
    rw [← left_eq_nil, hlog]
    rfl
  obtain ⟨k,hspec,hk⟩ := drop_loses_none hrun
  obtain ⟨k₁,hk₁,hk₂⟩ := Steps.split (h := [_]) hspec
  cases hk₁.of_single
  obtain rfl := spec_pushes [[],[]] hk₂
  obtain ⟨xs,he,hiff⟩ := hk ⟨(),t.data⟩ rfl
  cases he
  exact ⟨t,hrun,(hiff .unit 3 (by decide)).mpr (.inr ⟨ha,hg⟩)⟩

/-- Two closures, of which the one on top panics when it is dropped. The other one is never
dropped: the vec is gone without it, and with debug assertions the process aborts. -/
theorem drop_loses_one :
    (∃ t t', Steps (Step (plain false) first) ⟨VecStack.blank _,[],none⟩
        [.new (),.push () [],.push () []] (owning () t) ∧
      drop (plain false) first .unit 3 t = .error (.panic .user) t' ∧
      consumed t'.log = [dropping () []]) ∧
    ∃ t t', Steps (Step (plain true) first) ⟨VecStack.blank _,[],none⟩
        [.new (),.push () [],.push () []] (owning () t) ∧
      drop (plain true) first .unit 3 t = .error .abort t' ∧
      consumed t'.log = [dropping () []] := by
  constructor
  · obtain ⟨t,hrun,hs,hlog,ha⟩ := holds_two false first
    obtain ⟨t',hd,hlog'⟩ := (drop_swept (w := first) (n := 3) hs ha).resolve_left (by simp)
    rw [hlog] at hd hlog'
    exact ⟨t,t',hrun,hd,hlog'⟩
  · obtain ⟨t,hrun,hs,hlog,ha⟩ := holds_two true first
    obtain ⟨t',hd,hlog'⟩ := (drop_swept (w := first) (n := 3) hs ha).resolve_left (by simp)
    rw [hlog] at hd hlog'
    exact ⟨t,t',hrun,hd,hlog'⟩

end Sample
end Lockness.ClosureDrop
