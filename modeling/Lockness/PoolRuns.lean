import Mathlib.Data.List.Basic
import Mathlib.Logic.Basic

/-!
# Labelled runs and their histories

A run of a labelled transition relation is recorded by the list of its
labels. Every history quantity of the developments above this module is a
function of that list, so no state carries ghost fields. Conditions on
single steps restrict the relation, never the length of a run.
-/

set_option autoImplicit false

namespace Lockness.PoolRuns

variable {σ τ ε : Type*}

inductive Steps (step : σ → ε → σ → Prop) (s : σ) : List ε → σ → Prop
  | refl : Steps step s [] s
  | next {h : List ε} {t : σ} {e : ε} {u : σ} :
      Steps step s h t → step t e u → Steps step s (h++[e]) u

variable {step : σ → ε → σ → Prop}

theorem Steps.single {s : σ} {e : ε} {t : σ} (h : step s e t) : Steps step s [e] t :=
  .next .refl h

theorem Steps.of_nil {s t : σ} (h : Steps step s [] t) : t = s := by
  generalize hl : ([] : List ε) = l at h
  cases h with
  | refl => rfl
  | next => simp at hl

theorem Steps.of_single {s t : σ} {e : ε} (h : Steps step s [e] t) : step s e t := by
  generalize hl : [e] = l at h
  cases h with
  | refl => cases hl
  | @next k u e' t hrun hone =>
    have hl' : []++[e] = k++[e'] := hl
    obtain ⟨rfl,he⟩ := List.append_inj' hl' rfl
    rw [hrun.of_nil] at hone
    cases he
    exact hone

theorem Steps.trans {s t u : σ} {h k : List ε} (hs : Steps step s h t)
    (ht : Steps step t k u) : Steps step s (h++k) u := by
  induction ht with
  | refl => simpa using hs
  | next _ hstep ih => simpa [List.append_assoc] using Steps.next ih hstep

/-- A fact about history and state that every step carries along holds at the
end of every run. -/
theorem Steps.carries (I : List ε → σ → Prop) {s t : σ} {h : List ε}
    (hs : Steps step s h t) (h0 : I [] s)
    (hstep : ∀ k u e v, Steps step s k u → I k u → step u e v → I (k++[e]) v) : I h t := by
  induction hs with
  | refl => exact h0
  | next hrun hone ih => exact hstep _ _ _ _ hrun ih hone

theorem Steps.invariant (I : σ → Prop) {s t : σ} {h : List ε}
    (hs : Steps step s h t) (h0 : I s) (hstep : ∀ u e v, I u → step u e v → I v) : I t :=
  hs.carries (fun _ => I) h0 (fun _ _ _ _ _ hi ho => hstep _ _ _ hi ho)

theorem Steps.mono {step' : σ → ε → σ → Prop} {s t : σ} {h : List ε}
    (hs : Steps step s h t) (hsub : ∀ u e v, step u e v → step' u e v) :
    Steps step' s h t := by
  induction hs with
  | refl => exact .refl
  | next _ hone ih => exact .next ih (hsub _ _ _ hone)

theorem Steps.split {s u : σ} {h k : List ε} (hs : Steps step s (h++k) u) :
    ∃ t, Steps step s h t ∧ Steps step t k u := by
  generalize hl : h++k = l at hs
  induction hs generalizing k with
  | refl =>
    obtain ⟨rfl,rfl⟩ := List.append_eq_nil_iff.mp hl
    exact ⟨s,.refl,.refl⟩
  | @next l' t e u hrun hone ih =>
    rcases List.eq_nil_or_concat k with rfl | ⟨k',e',rfl⟩
    · refine ⟨u,?_,.refl⟩
      rw [List.append_nil] at hl
      rw [hl]
      exact .next hrun hone
    · rw [List.concat_eq_append,← List.append_assoc] at hl
      obtain ⟨hl',he⟩ := List.append_inj' hl rfl
      obtain ⟨v,hv,hw⟩ := ih hl'
      rw [List.singleton_inj] at he
      subst he
      exact ⟨v,hv,by simpa using Steps.next hw hone⟩

/-- The relation restricted to the steps whose state and label meet `ok`. -/
def When (step : σ → ε → σ → Prop) (ok : σ → ε → Prop) : σ → ε → σ → Prop :=
  fun s e t => step s e t ∧ ok s e

theorem Steps.of_when {ok : σ → ε → Prop} {s t : σ} {h : List ε}
    (hs : Steps (When step ok) s h t) : Steps step s h t :=
  hs.mono (fun _ _ _ ho => ho.1)

theorem Steps.labelled {ok : ε → Prop} {s t : σ} {h : List ε} (hs : Steps step s h t)
    (hok : ∀ e ∈ h, ok e) : Steps (When step (fun _ e => ok e)) s h t := by
  induction hs with
  | refl => exact .refl
  | next _ hone ih =>
    exact .next (ih (fun e he => hok e (by simp [he]))) ⟨hone,hok _ (by simp)⟩

theorem Steps.since {ok : σ → Prop} (hback : ∀ u e v, step u e v → ok v → ok u) {s t : σ}
    {h : List ε} (hs : Steps step s h t) (ht : ok t) :
    Steps (When step (fun u _ => ok u)) s h t := by
  induction hs with
  | refl => exact .refl
  | next _ hone ih =>
    have hu := hback _ _ _ hone ht
    exact .next (ih hu) ⟨hone,hu⟩

end Lockness.PoolRuns
