import Lockness.PoolFutex
import Lockness.PoolOrder

/-!
# Pools of named threads under a weak memory

A pool whose parties have names and leave marks in a trace. Where the code stands
before a load, it may be shown an older word than the one in the memory; all else
it does to the latest words. Forgetting the names and the trace gives a step of
the pool of parties, or the step of a party that was shown an old word.
-/

set_option autoImplicit false

namespace Lockness.PoolThreads
open Lockness.PoolFutex Lockness.PoolOrder

variable {σ π ω ε ι χ κ ν : Type*}

/-- How a program shows in the trace. `actions` are those of one step from the
memory that it sees, in program order, a load apart; a party that leaves has no
next point. -/
structure Marking (σ π ι χ κ ν : Type*) where
  loads : π → Option (χ × MemOrder)
  word : σ → χ → ν
  put : σ → χ → ν → σ
  actions : σ → σ → π → Option π → List (Action ι χ κ ν)

def named (woken : π → Option π) (p : ι × π) : Option (ι × π) := (woken p.2).map (Prod.mk p.1)

inductive ThreadStep (P : Program σ π ω ε) (M : Marking σ π ι χ κ ν) :
    Trace ι χ κ ν → σ → Multiset (ι × π) → ε → Trace ι χ κ ν → σ → Multiset (ι × π) → Prop
  | go {τ : Trace ι χ κ ν} {m m' : σ} {t : ι} {p p' : π} {e : ε} {rest : Multiset (ι × π)} :
      M.loads p = none → P.code m p = .go m' p' e →
      ThreadStep P M τ m ((t,p) ::ₘ rest) e (τ++marks t (M.actions m m' p (some p'))) m'
        ((t,p') ::ₘ rest)
  | exit {τ : Trace ι χ κ ν} {m m' : σ} {t : ι} {p : π} {e : ε} {rest : Multiset (ι × π)} :
      M.loads p = none → P.code m p = .exit m' e →
      ThreadStep P M τ m ((t,p) ::ₘ rest) e (τ++marks t (M.actions m m' p none)) m' rest
  | load_go {τ : Trace ι χ κ ν} {m m' : σ} {t : ι} {p p' : π} {e : ε} {rest : Multiset (ι × π)}
      {x : χ} {o : MemOrder} {g : ℕ} {v : ν} : M.loads p = some (x,o) → Readable τ t x g v →
      P.code (M.put m x v) p = .go m' p' e →
      ThreadStep P M τ m ((t,p) ::ₘ rest) e
        (τ++[(t,.load x o g)]++marks t (M.actions (M.put m x v) m' p (some p')))
        (M.put m' x (M.word m x)) ((t,p') ::ₘ rest)
  | load_exit {τ : Trace ι χ κ ν} {m m' : σ} {t : ι} {p : π} {e : ε} {rest : Multiset (ι × π)}
      {x : χ} {o : MemOrder} {g : ℕ} {v : ν} : M.loads p = some (x,o) → Readable τ t x g v →
      P.code (M.put m x v) p = .exit m' e →
      ThreadStep P M τ m ((t,p) ::ₘ rest) e
        (τ++[(t,.load x o g)]++marks t (M.actions (M.put m x v) m' p none))
        (M.put m' x (M.word m x)) rest
  | wake {τ : Trace ι χ κ ν} {m : σ} {t : ι} {p p' : π} {w : ω} {n : ℕ}
      {rest rest' : Multiset (ι × π)} : P.code m p = .wake w n p' →
      Wake (named (P.woken w)) n rest rest' →
      ThreadStep P M τ m ((t,p) ::ₘ rest) P.silent τ m ((t,p') ::ₘ rest')
  | spurious {τ : Trace ι χ κ ν} {m : σ} {t : ι} {p q : π} {w : ω} {rest : Multiset (ι × π)} :
      P.woken w p = some q →
      ThreadStep P M τ m ((t,p) ::ₘ rest) P.silent τ m ((t,q) ::ₘ rest)

theorem named_some {woken : π → Option π} {p q : ι × π} (h : named woken p = some q) :
    q.1 = p.1 ∧ woken p.2 = some q.2 := by
  simp only [named, Option.map_eq_some_iff] at h
  obtain ⟨r,hr,rfl⟩ := h
  exact ⟨rfl,hr⟩

theorem unnamed_unblock {woken : π → Option π} {n : ℕ} {s t : Multiset (ι × π)}
    (h : Unblock (named woken) n s t) : Unblock woken n (s.map Prod.snd) (t.map Prod.snd) := by
  induction h with
  | stop => exact .stop _
  | idle hs =>
    refine .idle (fun p hp => ?_)
    obtain ⟨q,hq,rfl⟩ := Multiset.mem_map.mp hp
    simpa [named] using hs q hq
  | one hp _ ih =>
    obtain ⟨-,hp⟩ := named_some hp
    rw [Multiset.map_cons] at ih ⊢
    exact .one hp ih

theorem unnamed {woken : π → Option π} {n : ℕ} {s t : Multiset (ι × π)}
    (h : Wake (named woken) n s t) : Wake woken n (s.map Prod.snd) (t.map Prod.snd) := by
  obtain ⟨k,hk,hkn,h⟩ := h
  exact ⟨k,hk,hkn,unnamed_unblock h⟩

theorem named_cons {s : Multiset (ι × π)} {p : π} {rest : Multiset π}
    (h : s.map Prod.snd = p ::ₘ rest) :
    ∃ t r, s = (t,p) ::ₘ r ∧ r.map Prod.snd = rest := by
  have hp : p ∈ s.map Prod.snd := by simp [h]
  obtain ⟨⟨t,q⟩,hq,rfl⟩ := Multiset.mem_map.mp hp
  obtain ⟨r,rfl⟩ := Multiset.exists_cons_of_mem hq
  rw [Multiset.map_cons, Multiset.cons_inj_right] at h
  exact ⟨t,r,rfl,h⟩

theorem named_unblock {woken : π → Option π} {n : ℕ} {s : Multiset (ι × π)} {t : Multiset π}
    (h : Unblock woken n (s.map Prod.snd) t) :
    ∃ r, Unblock (named woken) n s r ∧ r.map Prod.snd = t := by
  generalize hs : s.map Prod.snd = u at h
  induction h generalizing s with
  | stop => exact ⟨s,.stop s,hs⟩
  | idle hnone =>
    refine ⟨s,.idle (fun q hq => ?_),hs⟩
    rw [named, hnone q.2 (hs ▸ Multiset.mem_map_of_mem _ hq)]
    rfl
  | @one n p q u t hpq hw ih =>
    obtain ⟨i,r,rfl,hr⟩ := named_cons hs
    obtain ⟨r',hw',hr'⟩ := ih (s := (i,q) ::ₘ r) (by rw [Multiset.map_cons, hr])
    refine ⟨r',.one (q := (i,q)) ?_ hw',hr'⟩
    rw [named, hpq]
    rfl

theorem named_wake {woken : π → Option π} {n : ℕ} {s : Multiset (ι × π)} {t : Multiset π}
    (h : Wake woken n (s.map Prod.snd) t) :
    ∃ r, Wake (named woken) n s r ∧ r.map Prod.snd = t := by
  obtain ⟨k,hk,hkn,h⟩ := h
  obtain ⟨r,hr,ht⟩ := named_unblock h
  exact ⟨r,⟨k,hk,hkn,hr⟩,ht⟩

inductive Loaded (P : Program σ π ω ε) (M : Marking σ π ι χ κ ν) (τ : Trace ι χ κ ν) (m : σ) :
    Multiset (ι × π) → ε → σ → Multiset (ι × π) → Prop
  | go {m' : σ} {t : ι} {p p' : π} {e : ε} {rest : Multiset (ι × π)} {x : χ} {o : MemOrder} {g : ℕ}
      {v : ν} : M.loads p = some (x,o) → Readable τ t x g v →
      P.code (M.put m x v) p = .go m' p' e →
      Loaded P M τ m ((t,p) ::ₘ rest) e (M.put m' x (M.word m x)) ((t,p') ::ₘ rest)
  | exit {m' : σ} {t : ι} {p : π} {e : ε} {rest : Multiset (ι × π)} {x : χ} {o : MemOrder} {g : ℕ}
      {v : ν} : M.loads p = some (x,o) → Readable τ t x g v →
      P.code (M.put m x v) p = .exit m' e →
      Loaded P M τ m ((t,p) ::ₘ rest) e (M.put m' x (M.word m x)) rest

/-- Without its trace and the names, a step is one of the pool of parties, or it loads. -/
theorem ThreadStep.erase {P : Program σ π ω ε} {M : Marking σ π ι χ κ ν} {τ τ' : Trace ι χ κ ν}
    {m m' : σ} {e : ε} {calls calls' : Multiset (ι × π)}
    (h : ThreadStep P M τ m calls e τ' m' calls') :
    PartyStep P m (calls.map Prod.snd) e m' (calls'.map Prod.snd) ∨
      Loaded P M τ m calls e m' calls' := by
  cases h with
  | go _ hc => exact .inl (by simpa using PartyStep.go hc)
  | exit _ hc => exact .inl (by simpa using PartyStep.exit hc)
  | load_go hl hr hc => exact .inr (.go hl hr hc)
  | load_exit hl hr hc => exact .inr (.exit hl hr hc)
  | wake hc hw => exact .inl (by simpa using PartyStep.wake hc (unnamed hw))
  | spurious hw => exact .inl (by simpa using PartyStep.spurious hw)

/-- To be shown the latest word changes nothing, and a load leaves its word. -/
structure Lawful (P : Program σ π ω ε) (M : Marking σ π ι χ κ ν) : Prop where
  put_word : ∀ m x, M.put m x (M.word m x) = m
  kept_go : ∀ m p x o m' p' e, M.loads p = some (x,o) → P.code m p = .go m' p' e →
    M.word m' x = M.word m x
  kept_exit : ∀ m p x o m' e, M.loads p = some (x,o) → P.code m p = .exit m' e →
    M.word m' x = M.word m x

theorem named_step {P : Program σ π ω ε} {M : Marking σ π ι χ κ ν} {τ : Trace ι χ κ ν} {m m' : σ}
    {e : ε} {calls : Multiset (ι × π)} {parties : Multiset π} (hM : Lawful P M)
    (hl : ∀ x, Latest τ x (M.word m x)) (h : PartyStep P m (calls.map Prod.snd) e m' parties) :
    ∃ τ' calls', ThreadStep P M τ m calls e τ' m' calls' ∧ calls'.map Prod.snd = parties := by
  generalize hcalls : calls.map Prod.snd = cs at h
  cases h with
  | @go _ p p' _ _ hc =>
    obtain ⟨t,r,rfl,rfl⟩ := named_cons hcalls
    cases hload : M.loads p with
    | none => exact ⟨_,_,.go hload hc,by simp⟩
    | some l =>
      obtain ⟨x,o⟩ := l
      obtain ⟨g,hg⟩ := (hl x).readable t
      have hput : M.put m' x (M.word m x) = m' := by
        rw [← hM.kept_go _ _ _ _ _ _ _ hload hc, hM.put_word]
      have hc' : P.code (M.put m x (M.word m x)) p = .go m' p' e := by rwa [hM.put_word]
      have hstep : ThreadStep P M τ m ((t,p) ::ₘ r) e _ _ ((t,p') ::ₘ r) := .load_go hload hg hc'
      rw [hput] at hstep
      exact ⟨_,_,hstep,by simp⟩
  | @exit _ p _ _ hc =>
    obtain ⟨t,r,rfl,rfl⟩ := named_cons hcalls
    cases hload : M.loads p with
    | none => exact ⟨_,_,.exit hload hc,rfl⟩
    | some l =>
      obtain ⟨x,o⟩ := l
      obtain ⟨g,hg⟩ := (hl x).readable t
      have hput : M.put m' x (M.word m x) = m' := by
        rw [← hM.kept_exit _ _ _ _ _ _ hload hc, hM.put_word]
      have hc' : P.code (M.put m x (M.word m x)) p = .exit m' e := by rwa [hM.put_word]
      have hstep : ThreadStep P M τ m ((t,p) ::ₘ r) e _ _ r := .load_exit hload hg hc'
      rw [hput] at hstep
      exact ⟨_,_,hstep,rfl⟩
  | wake hc hw =>
    obtain ⟨t,r,rfl,rfl⟩ := named_cons hcalls
    obtain ⟨r',hw',rfl⟩ := named_wake hw
    exact ⟨_,_,.wake hc hw',by simp⟩
  | spurious hw =>
    obtain ⟨t,r,rfl,rfl⟩ := named_cons hcalls
    exact ⟨_,_,.spurious hw,by simp⟩

end Lockness.PoolThreads
