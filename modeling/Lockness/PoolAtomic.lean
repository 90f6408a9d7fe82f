import Mathlib.Data.Multiset.OrderedMonoid
import Lockness.PoolFutex

/-!
# Objects whose operations take effect at once

An object answers each call by one indivisible step between the question and the
answer. What it does besides is told from outside. A concurrent program implements
it if the questions and answers of its runs are those of runs of the object: then
each call takes effect at one moment, after it was asked and before it is answered.
-/

set_option autoImplicit false

namespace Lockness.PoolAtomic
open Lockness.PoolRuns Lockness.PoolFutex

variable {σ ο ρ ε α β : Type*}

/-- `perform n v o r v'`: with `n` other calls under way, `o` may turn the value `v`
into `v'` and be answered by `r`. -/
structure Object (σ ο ρ ε : Type*) where
  perform : ℕ → σ → ο → ρ → σ → Prop
  shift : σ → ε → σ → Prop

inductive Call (ο ρ : Type*) where
  | asked (o : ο)
  | answered (r : ρ)

structure State (σ ο ρ : Type*) where
  value : σ
  calls : Multiset (ℕ × Call ο ρ)

inductive Sign (ο ρ ε : Type*) where
  | ask (id : ℕ) (o : ο)
  | answer (id : ℕ) (r : ρ)
  | shift (e : ε)

/-- The labels of a run tell also when a call takes effect. -/
inductive Label (ο ρ ε : Type*) where
  | sign (x : Sign ο ρ ε)
  | perform (id : ℕ) (o : ο) (r : ρ)

def Label.seen : Label ο ρ ε → Option (Sign ο ρ ε)
  | .sign x => some x
  | .perform _ _ _ => none

inductive Step (O : Object σ ο ρ ε) : State σ ο ρ → Label ο ρ ε → State σ ο ρ → Prop
  | ask (s : State σ ο ρ) (id : ℕ) (o : ο) : Step O s (.sign (.ask id o))
      { s with calls := (id,.asked o) ::ₘ s.calls }
  | perform {v v' : σ} {id : ℕ} {o : ο} {r : ρ} {rest : Multiset (ℕ × Call ο ρ)} :
      O.perform rest.card v o r v' → Step O ⟨v,(id,.asked o) ::ₘ rest⟩ (.perform id o r)
        ⟨v',(id,.answered r) ::ₘ rest⟩
  | answer (v : σ) (id : ℕ) (r : ρ) (rest : Multiset (ℕ × Call ο ρ)) :
      Step O ⟨v,(id,.answered r) ::ₘ rest⟩ (.sign (.answer id r)) ⟨v,rest⟩
  | shift {s : State σ ο ρ} {v : σ} {e : ε} : O.shift s.value e v →
      Step O s (.sign (.shift e)) { s with value := v }

variable {O : Object σ ο ρ ε} {v : σ} {s : State σ ο ρ} {k : List (Label ο ρ ε)}
  {id : ℕ} {o : ο} {r : ρ}

def Performed (k : List (Label ο ρ ε)) (id : ℕ) (r : ρ) : Prop :=
  ∃ o k₁ k₂ k₃, k = k₁++.sign (.ask id o)::k₂++.perform id o r::k₃

theorem Performed.append (h : Performed k id r) (l : List (Label ο ρ ε)) :
    Performed (k++l) id r := by
  obtain ⟨o,k₁,k₂,k₃,rfl⟩ := h
  exact ⟨o,k₁,k₂,k₃++l,by simp⟩

theorem calls_run (hrun : Steps (Step O) ⟨v,0⟩ k s) :
    (∀ id o, (id,.asked o) ∈ s.calls → .sign (.ask id o) ∈ k) ∧
    ∀ id r, (id,.answered r) ∈ s.calls → Performed k id r := by
  refine hrun.carries (fun k s => (∀ id o, (id,Call.asked o) ∈ s.calls →
    .sign (.ask id o) ∈ k) ∧ ∀ id r, (id,Call.answered r) ∈ s.calls → Performed k id r)
    (by simp) ?_
  rintro k s l t - ⟨hasked,hanswered⟩ hstep
  cases hstep with
  | ask id o =>
    constructor
    · intro i q hq
      rcases Multiset.mem_cons.mp hq with heq | hq
      · cases heq
        simp
      · exact List.mem_append_left _ (hasked i q hq)
    · intro i r hr
      rcases Multiset.mem_cons.mp hr with heq | hr
      · cases heq
      · exact (hanswered i r hr).append _
  | @perform v v' id o r rest hp =>
    constructor
    · intro i q hq
      rcases Multiset.mem_cons.mp hq with heq | hq
      · cases heq
      · exact List.mem_append_left _ (hasked i q (Multiset.mem_cons_of_mem hq))
    · intro i r' hr
      rcases Multiset.mem_cons.mp hr with heq | hr
      · cases heq
        obtain ⟨k₁,k₂,rfl⟩ := List.append_of_mem (hasked id o (Multiset.mem_cons_self _ _))
        exact ⟨o,k₁,k₂,[],by simp⟩
      · exact (hanswered i r' (Multiset.mem_cons_of_mem hr)).append _
  | answer v id r rest =>
    exact ⟨fun i q hq => List.mem_append_left _ (hasked i q (Multiset.mem_cons_of_mem hq)),
      fun i r' hr => (hanswered i r' (Multiset.mem_cons_of_mem hr)).append _⟩
  | shift =>
    exact ⟨fun i q hq => List.mem_append_left _ (hasked i q hq),
      fun i r' hr => (hanswered i r' hr).append _⟩

theorem answer_performed (hrun : Steps (Step O) ⟨v,0⟩ k s) {k₁ k₂ : List (Label ο ρ ε)}
    (hk : k = k₁++.sign (.answer id r)::k₂) : Performed k₁ id r := by
  subst hk
  obtain ⟨t,ht,hrest⟩ := hrun.split
  obtain ⟨u,hu,-⟩ := Steps.split (h := [Label.sign (.answer id r)]) hrest
  cases hu.of_single with
  | answer v id r rest => exact (calls_run ht).2 id r (Multiset.mem_cons_self _ _)

/-- The object may show `x`, or nothing, and come to a state that meets `R`. -/
def Shows (O : Object σ ο ρ ε) (s : State σ ο ρ) (x : Option (Sign ο ρ ε))
    (R : State σ ο ρ → Prop) : Prop :=
  ∃ l t, Steps (Step O) s l t ∧ l.filterMap Label.seen = x.toList ∧ R t

theorem Shows.still {R : State σ ο ρ → Prop} (h : R s) : Shows O s none R := ⟨[],s,.refl,rfl,h⟩

theorem Shows.sign {R : State σ ο ρ → Prop} {x : Sign ο ρ ε} {t : State σ ο ρ}
    (hs : Step O s (.sign x) t) (h : R t) : Shows O s (some x) R :=
  ⟨_,t,.single hs,rfl,h⟩

theorem Shows.mono {R R' : State σ ο ρ → Prop} {x : Option (Sign ο ρ ε)} (h : Shows O s x R)
    (hR : ∀ t, R t → R' t) : Shows O s x R' := by
  obtain ⟨l,t,hl,hseen,ht⟩ := h
  exact ⟨l,t,hl,hseen,hR t ht⟩

/-- A program whose every step is matched by the object shows nothing but what the
object may show. -/
theorem simulated {step : α → β → α → Prop} {view : β → Option (Sign ο ρ ε)}
    {R : α → State σ ο ρ → Prop} {a b : α} {h : List β} (h0 : R a s) (hrun : Steps step a h b)
    (hone : ∀ h u e w t, Steps step a h u → R u t → step u e w → Shows O t (view e) (R w)) :
    ∃ k t, Steps (Step O) s k t ∧ k.filterMap Label.seen = h.filterMap view ∧ R b t := by
  induction hrun with
  | refl => exact ⟨[],s,.refl,rfl,h0⟩
  | @next h u e w hr hstep ih =>
    obtain ⟨k,t,hk,hseen,hrel⟩ := ih
    obtain ⟨l,t',hl,hone',hrel'⟩ := hone h u e w t hr hrel hstep
    refine ⟨k++l,t',hk.trans hl,?_,hrel'⟩
    rw [List.filterMap_append, List.filterMap_append, hseen, hone']
    cases hv : view e <;> simp [hv]

section Pools

variable {π : Type*} {calling : π → Bool} {M M' : π → ℕ × Call ο ρ → Prop} {v' : σ}
  {p p' : π} {rest calls : Multiset π} {y : ℕ × Call ο ρ}

def under_way (calling : π → Bool) (calls : Multiset π) : Multiset π :=
  calls.filter fun p => calling p = true

theorem under_way_call (hp : calling p = true) :
    under_way calling (p ::ₘ rest) = p ::ₘ under_way calling rest :=
  Multiset.filter_cons_of_pos (p := fun p => calling p = true) rest hp

theorem under_way_pass (hp : calling p = false) :
    under_way calling (p ::ₘ rest) = under_way calling rest :=
  Multiset.filter_cons_of_neg (p := fun p => calling p = true) rest (by simp [hp])

theorem mem_under_way : p ∈ under_way calling calls ↔ p ∈ calls ∧ calling p = true :=
  Multiset.mem_filter

/-- The object has the value `v`, and its calls are those of the pool. -/
def Related (calling : π → Bool) (M : π → ℕ × Call ο ρ → Prop) (v : σ) (calls : Multiset π)
    (s : State σ ο ρ) : Prop :=
  s.value = v ∧ Multiset.Rel M (under_way calling calls) s.calls

theorem Related.call (hs : Related calling M v (p ::ₘ rest) s) (hp : calling p = true) :
    ∃ y ys, s = ⟨v,y ::ₘ ys⟩ ∧ M p y ∧ Related calling M v rest ⟨v,ys⟩ := by
  obtain ⟨hv,hrel⟩ := hs
  rw [under_way_call hp, Multiset.rel_cons_left] at hrel
  obtain ⟨y,ys,hy,hys,heq⟩ := hrel
  exact ⟨y,ys,by rw [← hv, ← heq],hy,rfl,hys⟩

theorem Related.enter {ys : Multiset (ℕ × Call ο ρ)} (hs : Related calling M v rest ⟨v,ys⟩)
    (hp : calling p = true) (hy : M p y) : Related calling M v (p ::ₘ rest) ⟨v,y ::ₘ ys⟩ := by
  refine ⟨rfl,?_⟩
  rw [under_way_call hp]
  exact .cons hy hs.2

theorem related_pass (hp : calling p = false) :
    Related calling M v (p ::ₘ rest) s ↔ Related calling M v rest s := by
  rw [Related, Related, under_way_pass hp]

theorem Related.frame (hs : Related calling M v calls s)
    (hM : ∀ q ∈ calls, ∀ y, M q y → M' q y) : Related calling M' v calls s :=
  ⟨hs.1,hs.2.mono fun q hq y _ hy => hM q (mem_under_way.mp hq).1 y hy⟩

theorem Related.wake {woken : π → Option π} {n : ℕ} (hw : Wake woken n calls rest)
    (hM : ∀ p q, woken p = some q → calling p = true ∧ calling q = true ∧ ∀ y, M p y → M q y)
    (hs : Related calling M v calls s) : Related calling M v rest s := by
  obtain ⟨_,-,-,hw⟩ := hw
  induction hw generalizing s with
  | stop => exact hs
  | idle => exact hs
  | one hpq _ ih =>
    obtain ⟨hp,hq,hM⟩ := hM _ _ hpq
    obtain ⟨y,ys,rfl,hy,hys⟩ := hs.call hp
    exact ih (hys.enter hq (hM y hy))

def Follows (O : Object σ ο ρ ε) (v v' : σ) (M : ℕ × Call ο ρ → Prop) (n : ℕ)
    (y : ℕ × Call ο ρ) : Prop :=
  v' = v ∧ M y ∨ ∃ id o r, y = (id,.asked o) ∧ O.perform n v o r v' ∧ M (id,.answered r)

theorem Related.move (hs : Related calling M v (p ::ₘ rest) s) (hp : calling p = true)
    (hp' : calling p' = true) (hM : ∀ q ∈ rest, ∀ y, M q y → M' q y)
    (hf : ∀ n y, (n = 0 → ∀ q ∈ rest, calling q = false) → M p y →
      Follows O v v' (M' p') n y) :
    Shows O s none (Related calling M' v' (p' ::ₘ rest)) := by
  obtain ⟨y,ys,rfl,hy,hys⟩ := hs.call hp
  have halone (h0 : ys.card = 0) (q : π) (hq : q ∈ rest) : calling q = false := by
    have hcard := Multiset.card_eq_card_of_rel hys.2
    rw [h0, Multiset.card_eq_zero] at hcard
    by_contra hc
    have hmem := mem_under_way.mpr ⟨hq,Bool.eq_true_of_not_eq_false hc⟩
    simp [hcard] at hmem
  have hrest (w : σ) : Related calling M' w rest ⟨w,ys⟩ := ⟨rfl,(hys.frame hM).2⟩
  rcases hf ys.card y halone hy with ⟨rfl,hy'⟩ | ⟨id,o,r,rfl,hperf,hy'⟩
  · exact .still ((hrest _).enter hp' hy')
  · exact ⟨_,_,.single (.perform hperf),rfl,(hrest _).enter hp' hy'⟩

theorem Related.asks (hs : Related calling M v calls s) (hp : calling p = true)
    (hy : M p (id,.asked o)) :
    Shows O s (some (.ask id o)) (Related calling M v (p ::ₘ calls)) := by
  obtain ⟨w,ys⟩ := s
  obtain rfl := hs.1
  exact .sign (.ask _ id o) (hs.enter hp hy)

theorem Related.asks_performs (hs : Related calling M v calls s) (hp : calling p = true)
    (hperf : O.perform s.calls.card v o r v) (hy : M p (id,.answered r)) :
    Shows O s (some (.ask id o)) (Related calling M v (p ::ₘ calls)) := by
  obtain ⟨w,ys⟩ := s
  obtain rfl := hs.1
  exact ⟨_,_,(Steps.single (.ask _ id o)).next (.perform hperf),rfl,hs.enter hp hy⟩

theorem Related.answers (hs : Related calling M v (p ::ₘ rest) s) (hp : calling p = true)
    (hy : ∀ y, M p y → y = (id,.answered r)) :
    Shows O s (some (.answer id r)) (Related calling M v rest) := by
  obtain ⟨y,ys,rfl,hM,hys⟩ := hs.call hp
  obtain rfl := hy y hM
  exact .sign (.answer _ id r _) hys

theorem Related.shifts {e : ε} (hs : Related calling M v calls s) (hv : O.shift v e v') :
    Shows O s (some (.shift e)) (Related calling M v' calls) := by
  obtain ⟨w,ys⟩ := s
  obtain rfl := hs.1
  exact .sign (.shift hv) ⟨rfl,hs.2⟩

end Pools

end Lockness.PoolAtomic
