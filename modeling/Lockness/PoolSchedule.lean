import Mathlib.Data.List.Perm.Basic
import Lockness.PoolFutex

/-!
# Schedules as runs

A schedule picks, step by step, which party of a listed pool moves. It can be
evaluated, and what it computes is a run of the unordered pool. A wake-up
reaches the first sleepers of the list, as many as are sure.
-/

set_option autoImplicit false

namespace Lockness.PoolSchedule
open Lockness.PoolRuns Lockness.PoolFutex

variable {σ π ω ε κ α : Type*}

def wake_list (woken : π → Option π) : ℕ → List π → List π
  | _, [] => []
  | n, p::l => match woken p with
    | none => p::wake_list woken n l
    | some q => if n = 0 then p::l else q::wake_list woken (n-1) l

/-- One step of the `i`-th party; it moves to the front if it wakes others. -/
def act (P : Program σ π ω ε) (m : σ) (l : List π) (i : ℕ) : Option (σ × List π × ε) :=
  match l[i]? with
  | none => none
  | some p => match P.code m p with
    | .go m' p' e => some (m',l.set i p',e)
    | .wake w n p' => some (m,p'::wake_list (P.woken w) (sure n) (l.eraseIdx i),P.silent)
    | .exit m' e => some (m',l.eraseIdx i,e)
    | .blocked => none
    | .ub => none

def script (exec : κ → α → Option (ε × κ)) : List α → κ → Option (List ε × κ)
  | [], k => some ([],k)
  | a::as, k => (exec k a).bind (fun r =>
    (script exec as r.2).map (fun rs => (r.1::rs.1,rs.2)))

def guarded (exec : κ → α → Option (ε × κ)) (ok : κ → ε → Bool) (k : κ) (a : α) :
    Option (ε × κ) :=
  (exec k a).bind (fun r => if ok k r.1 then some r else none)

theorem coe_getElem? {l : List α} {i : ℕ} {a : α} (h : l[i]? = some a) :
    (l : Multiset α) = a ::ₘ (l.eraseIdx i : Multiset α) := by
  obtain ⟨hi,rfl⟩ := List.getElem?_eq_some_iff.mp h
  exact (Multiset.coe_eq_coe.mpr (List.getElem_cons_eraseIdx_perm hi)).symm

theorem coe_concat (l : List α) (a : α) :
    ((l++[a] : List α) : Multiset α) = a ::ₘ (l : Multiset α) :=
  Multiset.coe_eq_coe.mpr List.perm_append_comm

theorem unblock_cons {woken : π → Option π} {p : π} (hp : woken p = none) {n : ℕ}
    {s t : Multiset π} (h : Unblock woken n s t) : Unblock woken n (p ::ₘ s) (p ::ₘ t) := by
  induction h with
  | stop s => exact .stop _
  | idle hs =>
    refine .idle (fun q hq => ?_)
    rcases Multiset.mem_cons.mp hq with rfl | hq
    · exact hp
    · exact hs q hq
  | one hq _ ih =>
    rw [Multiset.cons_swap]
    rw [Multiset.cons_swap] at ih
    exact .one hq ih

theorem wake_list_sound {woken : π → Option π} (ha : ∀ p q, woken p = some q → woken q = none)
    (n : ℕ) (l : List π) : Unblock woken n l (wake_list woken n l) := by
  induction l generalizing n with
  | nil => exact .idle (by simp)
  | cons p l ih =>
    simp only [wake_list]
    split
    · rename_i hp
      exact unblock_cons hp (ih n)
    · rename_i q hp
      split
      · rename_i h0
        subst h0
        exact .stop _
      · rename_i h0
        obtain ⟨k,rfl⟩ := Nat.exists_eq_succ_of_ne_zero h0
        exact .one hp (unblock_cons (ha p q hp) (ih k))

theorem act_sound {P : Program σ π ω ε} {m m' : σ} {l l' : List π} {i : ℕ} {e : ε}
    (h : act P m l i = some (m',l',e)) : PartyStep P m l e m' l' := by
  rw [act] at h
  split at h
  · cases h
  · rename_i p hp
    obtain ⟨hi,-⟩ := List.getElem?_eq_some_iff.mp hp
    rw [coe_getElem? hp]
    split at h <;> cases h
    · rename_i p' hc
      rw [show (l.set i p' : Multiset π) = p' ::ₘ (l.eraseIdx i : Multiset π) from
        Multiset.coe_eq_coe.mpr (List.set_perm_cons_eraseIdx hi p')]
      exact .go hc
    · rename_i w n p' hc
      have hw := wake_list_sound (fun p q => P.awake w w p q) (sure n) (l.eraseIdx i)
      exact .wake hc ⟨_,le_rfl,sure_le n,hw⟩
    · rename_i hc
      exact .exit hc

theorem guarded_sound {step : σ → ε → σ → Prop} {ok : σ → ε → Prop}
    {exec : κ → α → Option (ε × κ)} {test : κ → ε → Bool} {state : κ → σ}
    (hexec : ∀ k a e k', exec k a = some (e,k') → step (state k) e (state k'))
    (htest : ∀ k e, test k e = true → ok (state k) e) (k : κ) (a : α) (e : ε) (k' : κ)
    (h : guarded exec test k a = some (e,k')) : When step ok (state k) e (state k') := by
  simp only [guarded, Option.bind_eq_some_iff] at h
  obtain ⟨r,hr,h⟩ := h
  split at h <;> cases h
  rename_i hok
  exact ⟨hexec k a e k' hr,htest k e hok⟩

theorem script_sound {step : σ → ε → σ → Prop} {exec : κ → α → Option (ε × κ)} {state : κ → σ}
    (hexec : ∀ k a e k', exec k a = some (e,k') → step (state k) e (state k')) {as : List α}
    {k k' : κ} {h : List ε} (hs : script exec as k = some (h,k')) :
    Steps step (state k) h (state k') := by
  induction as generalizing k h with
  | nil =>
    cases hs
    exact .refl
  | cons a as ih =>
    simp only [script, Option.bind_eq_some_iff, Option.map_eq_some_iff, Prod.mk.injEq] at hs
    obtain ⟨⟨e,k₁⟩,he,⟨hs',k₂⟩,hr,rfl,rfl⟩ := hs
    simpa using (Steps.single (hexec k a e k₁ he)).trans (ih hr)

/-- What a script of sound commands computes, a run reaches. -/
theorem script_reaches {step : σ → ε → σ → Prop} {exec : κ → α → Option (ε × κ)} {state : κ → σ}
    (hexec : ∀ k a e k', exec k a = some (e,k') → step (state k) e (state k')) (k : κ)
    (as : List α) (Q : List ε → σ → Prop) [∀ h s, Decidable (Q h s)]
    (hs : (script exec as k).any (fun r => decide (Q r.1 (state r.2))) = true) :
    ∃ (h : List ε) (s : σ), Steps step (state k) h s ∧ Q h s := by
  cases hr : script exec as k with
  | none => simp [hr] at hs
  | some r => exact ⟨r.1,state r.2,script_sound hexec hr,by simpa [hr] using hs⟩

theorem script_reaches_twice {step : σ → ε → σ → Prop} {exec : κ → α → Option (ε × κ)}
    {state : κ → σ}
    (hexec : ∀ k a e k', exec k a = some (e,k') → step (state k) e (state k')) (k : κ)
    (as bs : List α) (P Q : List ε → σ → Prop) [∀ h s, Decidable (P h s)]
    [∀ h s, Decidable (Q h s)]
    (hs : (script exec as k).any (fun r => decide (P r.1 (state r.2)) &&
      (script exec bs r.2).any (fun q => decide (Q q.1 (state q.2)))) = true) :
    ∃ (h h' : List ε) (s t : σ), Steps step (state k) h s ∧ P h s ∧ Steps step s h' t ∧ Q h' t := by
  cases hr : script exec as k with
  | none => simp [hr] at hs
  | some r =>
    rw [hr, Option.any_some, Bool.and_eq_true] at hs
    obtain ⟨h',t,hrun,hq⟩ := script_reaches hexec r.2 bs Q hs.2
    exact ⟨r.1,h',state r.2,t,script_sound hexec hr,of_decide_eq_true hs.1,hrun,hq⟩

end Lockness.PoolSchedule
