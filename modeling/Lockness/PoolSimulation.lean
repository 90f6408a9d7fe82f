import Mathlib.Data.Multiset.ZeroCons
import Lockness.PoolFutex

/-!
# Pools that follow one another

A run follows another when each step of the one is matched by steps of the
other with the same visible events and related ends. Two pools of parties may
differ in who sleeps: one that is asleep here may be awake already there, as
long as it would be awake after a wake-up, too.
-/

set_option autoImplicit false

namespace Lockness.PoolSimulation
open Lockness.PoolRuns Lockness.PoolFutex

section Runs

variable {σ τ ε : Type*}

/-- `k` follows `h` step by step; related states stay related all along. -/
inductive Follows (step : σ → ε → σ → Prop) (step' : τ → ε → τ → Prop) (visible : ε → Bool)
    (R : σ → τ → Prop) (s₀ : σ) (t₀ : τ) : List ε → σ → List ε → τ → Prop
  | start : R s₀ t₀ → Follows step step' visible R s₀ t₀ [] s₀ [] t₀
  | next {h k l : List ε} {s s' : σ} {t t' : τ} {e : ε} :
      Follows step step' visible R s₀ t₀ h s k t → step s e s' → Steps step' t l t' →
      l.filter visible = [e].filter visible → R s' t' →
      Follows step step' visible R s₀ t₀ (h++[e]) s' (k++l) t'

variable {step : σ → ε → σ → Prop} {step' : τ → ε → τ → Prop} {visible : ε → Bool}
  {R : σ → τ → Prop} {s₀ s : σ} {t₀ t : τ} {h k : List ε}

theorem Follows.spec (hf : Follows step step' visible R s₀ t₀ h s k t) : Steps step s₀ h s ∧
    Steps step' t₀ k t ∧ k.filter visible = h.filter visible ∧ R s t := by
  induction hf with
  | start h0 => exact ⟨.refl,.refl,rfl,h0⟩
  | next _ hstep hl hv hr ih =>
    refine ⟨.next ih.1 hstep,ih.2.1.trans hl,?_,hr⟩
    rw [List.filter_append, List.filter_append, ih.2.2.1, hv]

/-- A run whose every step can be followed is followed as a whole. -/
theorem followed {ok : σ → ε → Prop} (h0 : R s₀ t₀) (hrun : Steps (When step ok) s₀ h s)
    (hone : ∀ h u k t e v, Follows step step' visible R s₀ t₀ h u k t → step u e v → ok u e →
      ∃ l t', Steps step' t l t' ∧ l.filter visible = [e].filter visible ∧ R v t') :
    ∃ k t, Follows step step' visible R s₀ t₀ h s k t := by
  induction hrun with
  | refl => exact ⟨[],t₀,.start h0⟩
  | next _ hstep ih =>
    obtain ⟨k,t,hf⟩ := ih
    obtain ⟨l,t',hl,hv,hr⟩ := hone _ _ _ _ _ _ hf hstep.1 hstep.2
    exact ⟨k++l,t',.next hf hstep.1 hl hv hr⟩

end Runs

section Waking

variable {π ρ : Type*} {woken : π → Option π} {woken' : ρ → Option ρ}

theorem unblock_more {n : ℕ} {t t' : Multiset ρ} (hw : Unblock woken' n t t') :
    ∃ u, Unblock woken' (n+1) t u ∧
      (u = t' ∨ ∃ q q' rest, woken' q = some q' ∧ t' = q ::ₘ rest ∧ u = q' ::ₘ rest) := by
  induction hw with
  | stop t =>
    by_cases ht : ∀ q ∈ t, woken' q = none
    · exact ⟨t,.idle ht,.inl rfl⟩
    · push Not at ht
      obtain ⟨q,hq,hne⟩ := ht
      obtain ⟨q',hq'⟩ := Option.ne_none_iff_exists'.mp hne
      obtain ⟨rest,rfl⟩ := Multiset.exists_cons_of_mem hq
      exact ⟨q' ::ₘ rest,.one hq' (.stop _),.inr ⟨q,q',rest,hq',rfl,rfl⟩⟩
  | idle ht => exact ⟨_,.idle ht,.inl rfl⟩
  | one hq _ ih =>
    obtain ⟨u,hu,hcase⟩ := ih
    exact ⟨u,.one hq hu,hcase⟩

section Early

variable {R : π → ρ → Prop} (early : Prop)
  (hwoken : ∀ p p' q, woken p = some p' → R p q →
    (∃ q', woken' q = some q' ∧ R p' q') ∨ early ∧ R p' q)
  (hearly : ∀ p q q', woken' q = some q' → R p q → woken p ≠ none ∧ (early → R p q'))
  {n : ℕ} {s s' : Multiset π} {t : Multiset ρ}

include hwoken hearly

theorem unblock_follows (hw : Unblock woken n s s') (hr : Multiset.Rel R s t) :
    ∃ t', Unblock woken' n t t' ∧ Multiset.Rel R s' t' := by
  induction hw generalizing t with
  | stop => exact ⟨t,.stop _,hr⟩
  | idle hs =>
    refine ⟨t,.idle (fun q hq => ?_),hr⟩
    by_contra hne
    obtain ⟨q',hq'⟩ := Option.ne_none_iff_exists'.mp hne
    obtain ⟨rest,rfl⟩ := Multiset.exists_cons_of_mem hq
    obtain ⟨p,ps,hpq,-,rfl⟩ := Multiset.rel_cons_right.mp hr
    exact (hearly p q q' hq' hpq).1 (hs p (Multiset.mem_cons_self _ _))
  | @one n p p' s s' hp _ ih =>
    obtain ⟨q,rest,hpq,hrest,rfl⟩ := Multiset.rel_cons_left.mp hr
    rcases hwoken p p' q hp hpq with ⟨q',hq',hpq'⟩ | ⟨he,hpq'⟩
    · obtain ⟨t',ht',hr'⟩ := ih (hrest.cons hpq')
      exact ⟨t',.one hq' ht',hr'⟩
    · obtain ⟨t',ht',hr'⟩ := ih (hrest.cons hpq')
      obtain ⟨u,hu,rfl | ⟨b,b',us,hb,rfl,rfl⟩⟩ := unblock_more ht'
      · exact ⟨u,hu,hr'⟩
      · obtain ⟨a,as,hab,has,rfl⟩ := Multiset.rel_cons_right.mp hr'
        exact ⟨_,hu,has.cons ((hearly a b b' hb hab).2 he)⟩

theorem wake_follows (hw : Wake woken n s s') (hr : Multiset.Rel R s t) :
    ∃ t', Wake woken' n t t' ∧ Multiset.Rel R s' t' := by
  obtain ⟨k,hk,hkn,hw⟩ := hw
  obtain ⟨t',ht,hr'⟩ := unblock_follows early hwoken hearly hw hr
  exact ⟨t',⟨k,hk,hkn,ht⟩,hr'⟩

end Early

end Waking
end Lockness.PoolSimulation
