import Mathlib.Tactic.Linarith
import Lockness.PoolFutex

/-!
# Pools that come to rest

A turn is a step that a party takes by itself, so not a return from sleep. Some
turns bring a party forward or change the memory; the others are tries, and
their number is bounded as long as the memory stays. If every turn does one or
the other, a pool that nobody enters comes to rest, whoever moves. A turn that
does neither is idle.
-/

set_option autoImplicit false

namespace Lockness.PoolRest
open Lockness.PoolFutex

variable {σ π ω ε : Type*} {P : Program σ π ω ε}

inductive Turn (P : Program σ π ω ε) : σ → Multiset π → π → ε → σ → Multiset π → Prop
  | go {m m' : σ} {p p' : π} {e : ε} {rest : Multiset π} :
      P.code m p = .go m' p' e → Turn P m (p ::ₘ rest) p e m' (p' ::ₘ rest)
  | wake {m : σ} {p p' : π} {w : ω} {n : ℕ} {rest rest' : Multiset π} :
      P.code m p = .wake w n p' → Wake (P.woken w) n rest rest' →
      Turn P m (p ::ₘ rest) p P.silent m (p' ::ₘ rest')
  | exit {m m' : σ} {p : π} {e : ε} {rest : Multiset π} :
      P.code m p = .exit m' e → Turn P m (p ::ₘ rest) p e m' rest

/-- `stage` is what a party has still to do, `slack` what the memory allows to be done
without it, and `effort` bounds the tries of a party while the memory stays. -/
structure Gauge (σ π : Type*) where
  slack : σ → ℕ
  stage : π → ℕ
  effort : σ → π → ℕ
  most : ℕ

variable {m m' : σ} {p p' : π} {e : ε} {rest rest' calls calls' : Multiset π} {G : Gauge σ π}

/-- The efforts of all parties weigh less than one stage. -/
def rank (G : Gauge σ π) (m : σ) (calls : Multiset π) : ℕ :=
  (G.slack m+weigh G.stage calls)*(G.most*calls.card+1)+weigh (G.effort m) calls

def Descends (G : Gauge σ π) (m : σ) (p : π) (m' : σ) (p' : π) : Prop :=
  G.slack m'+G.stage p' < G.slack m+G.stage p ∨
    G.slack m'+G.stage p' = G.slack m+G.stage p ∧ (∀ q, G.effort m' q = G.effort m q) ∧
      G.effort m p' < G.effort m p

def Idles (G : Gauge σ π) (m : σ) (p : π) (m' : σ) (p' : π) : Prop :=
  m' = m ∧ G.stage p' = G.stage p ∧ G.effort m p' = G.effort m p

theorem Turn.step (h : Turn P m calls p e m' calls') : PartyStep P m calls e m' calls' := by
  cases h with
  | go hc => exact .go hc
  | wake hc hw => exact .wake hc hw
  | exit hc => exact .exit hc

theorem Turn.mem (h : Turn P m calls p e m' calls') : p ∈ calls := by cases h <;> simp

theorem Turn.not_blocked (h : Turn P m calls p e m' calls') : P.code m p ≠ .blocked := by
  intro hb
  cases h with
  | go hc => cases hb.symm.trans hc
  | wake hc => cases hb.symm.trans hc
  | exit hc => cases hb.symm.trans hc

theorem wake_card {woken : π → Option π} {n : ℕ} (hw : Wake woken n rest rest') :
    rest'.card = rest.card := by
  have := congrArg Multiset.card (hw.map_eq (f := fun _ => ()) (fun _ _ _ => rfl))
  simpa using this

theorem Turn.card_le (h : Turn P m calls p e m' calls') : calls'.card ≤ calls.card := by
  cases h with
  | go => simp
  | wake _ hw => simp [wake_card hw]
  | exit => simp

section Rank

theorem weigh_bounded {f : π → ℕ} {b : ℕ} (h : ∀ q ∈ calls, f q ≤ b) :
    weigh f calls ≤ b*calls.card := by
  have := weigh_le (g := fun _ => b) h
  simpa [weigh,mul_comm] using this

theorem rank_progress (h : G.slack m'+weigh G.stage calls' < G.slack m+weigh G.stage calls)
    (hcard : calls'.card ≤ calls.card) (hb : ∀ q ∈ calls', G.effort m' q ≤ G.most) :
    rank G m' calls' < rank G m calls := by
  have he := weigh_bounded hb
  have hmost := Nat.mul_le_mul_left G.most hcard
  calc rank G m' calls'
      ≤ (G.slack m'+weigh G.stage calls')*(G.most*calls.card+1)+G.most*calls.card := by
        unfold rank
        gcongr
        exact he.trans hmost
    _ < (G.slack m'+weigh G.stage calls'+1)*(G.most*calls.card+1) := by linarith
    _ ≤ (G.slack m+weigh G.stage calls)*(G.most*calls.card+1) := Nat.mul_le_mul_right _ h
    _ ≤ rank G m calls := Nat.le_add_right _ _

theorem rank_go (h : Descends G m p m' p') (hb : ∀ q ∈ p' ::ₘ rest, G.effort m' q ≤ G.most) :
    rank G m' (p' ::ₘ rest) < rank G m (p ::ₘ rest) := by
  rcases h with h | ⟨heq,hsame,hlt⟩
  · exact rank_progress (by simp only [weigh_cons]; omega) (by simp) hb
  · have hstage : G.slack m'+weigh G.stage (p' ::ₘ rest) =
        G.slack m+weigh G.stage (p ::ₘ rest) := by
      simp only [weigh_cons]
      omega
    have heffort : weigh (G.effort m') (p' ::ₘ rest) < weigh (G.effort m) (p ::ₘ rest) := by
      rw [weigh_cons, weigh_cons, hsame, weigh_congr _ (fun q _ => hsame q)]
      omega
    rw [rank, rank, hstage, Multiset.card_cons, Multiset.card_cons]
    omega

theorem rank_idle (h : Idles G m p m' p') :
    rank G m' (p' ::ₘ rest) = rank G m (p ::ₘ rest) := by
  obtain ⟨rfl,hstage,heffort⟩ := h
  simp only [rank, weigh_cons, hstage, heffort, Multiset.card_cons]

theorem rank_wake {woken : π → Option π} {n : ℕ} (h : G.stage p' < G.stage p)
    (hw : Wake woken n rest rest') (hs : ∀ q r, woken q = some r → G.stage r = G.stage q)
    (hb : ∀ q ∈ p' ::ₘ rest', G.effort m q ≤ G.most) :
    rank G m (p' ::ₘ rest') < rank G m (p ::ₘ rest) := by
  refine rank_progress ?_ (by simp [wake_card hw]) hb
  rw [weigh_cons, weigh_cons, hw.weigh_eq hs]
  omega

theorem rank_exit (h : G.slack m' ≤ G.slack m) (hp : 0 < G.stage p)
    (hb : ∀ q ∈ rest, G.effort m' q ≤ G.most) : rank G m' rest < rank G m (p ::ₘ rest) :=
  rank_progress (by rw [weigh_cons]; omega) (by simp) hb

end Rank

theorem rank_le {a b : ℕ} (hs : G.slack m ≤ a) (hst : ∀ q ∈ calls, G.stage q ≤ b)
    (hb : ∀ q ∈ calls, G.effort m q ≤ G.most) : rank G m calls ≤
      (a+b*calls.card)*(G.most*calls.card+1)+G.most*calls.card := by
  have h1 := weigh_bounded hst
  have h2 := weigh_bounded hb
  unfold rank
  gcongr

section Turns

theorem ne_blocked {o : Outcome σ π ω ε} (ho : o.Inward) : o ≠ .blocked := by
  rintro rfl
  exact ho

theorem exists_unblock (woken : π → Option π) (n : ℕ) (s : Multiset π) :
    ∃ t, Unblock woken n s t := by
  induction n generalizing s with
  | zero => exact ⟨s,.stop s⟩
  | succ n ih =>
    by_cases h : ∀ p ∈ s, woken p = none
    · exact ⟨s,.idle h⟩
    · push Not at h
      obtain ⟨p,hp,hne⟩ := h
      obtain ⟨q,hq⟩ := Option.ne_none_iff_exists'.mp hne
      obtain ⟨r,rfl⟩ := Multiset.exists_cons_of_mem hp
      obtain ⟨t,ht⟩ := ih (q ::ₘ r)
      exact ⟨t,.one hq ht⟩

theorem exists_turn (hp : p ∈ calls) (hb : P.code m p ≠ .blocked) (hu : P.code m p ≠ .ub) :
    ∃ e m' calls', Turn P m calls p e m' calls' := by
  obtain ⟨rest,rfl⟩ := Multiset.exists_cons_of_mem hp
  cases hc : P.code m p with
  | go m' p' e => exact ⟨e,m',_,.go hc⟩
  | wake w n p' =>
    obtain ⟨rest',hw⟩ := exists_unblock (P.woken w) n rest
    exact ⟨_,m,_,.wake hc ⟨n,sure_le n,le_rfl,hw⟩⟩
  | exit m' e => exact ⟨e,m',rest,.exit hc⟩
  | blocked => exact absurd hc hb
  | ub => exact absurd hc hu

end Turns

end Lockness.PoolRest
