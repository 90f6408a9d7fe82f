import Lockness.PoolOrder

/-!
# Cells handed over through atomics

A cell is held by one thread or parked at an atomic. Whoever parks it releases
what has happened to it, and whoever takes it acquires that. So the accesses to
one cell are ordered, whichever fences and orderings the two sides use.
-/

set_option autoImplicit false

namespace Lockness.PoolRaces
open Lockness.PoolOrder

variable {ι χ κ ν : Type*}

/-- Any two accesses to one cell are ordered. -/
def RaceFree (τ : Trace ι χ κ ν) : Prop :=
  ∀ k i j t u, i < j → At τ i t (.access k) → At τ j u (.access k) → Before τ i j

def Held (τ : Trace ι χ κ ν) (k : κ) (t : ι) : Prop :=
  ∀ i u, At τ i u (.access k) → Knows τ t i

/-- The writes to `x` up to `g` release all accesses to the cell. -/
def ParkedAt (τ : Trace ι χ κ ν) (k : κ) (x : χ) (g : ℕ) : Prop :=
  ∀ i u, At τ i u (.access k) → Carries τ x g i

def Parked (τ : Trace ι χ κ ν) (k : κ) (x : χ) : Prop := ∀ i u, At τ i u (.access k) →
  ∃ g < τ.length, Carries τ x g i

def Expected (τ : Trace ι χ κ ν) (k : κ) (t : ι) : Prop :=
  ∀ i u, At τ i u (.access k) → Pending τ t i

def Sealed (τ : Trace ι χ κ ν) (k : κ) (t : ι) : Prop :=
  ∀ i u, At τ i u (.access k) → Fenced τ t i

def Untouched (σ : Trace ι χ κ ν) (k : κ) : Prop := ∀ x ∈ σ, x.2 ≠ .access k

variable {τ σ : Trace ι χ κ ν} {t : ι} {a : Action ι χ κ ν} {k k' : κ} {x : χ} {g : ℕ}

theorem Untouched.at_old (h : Untouched σ k) {i : ℕ} {u : ι} (hi : At (τ++σ) i u (.access k)) :
    At τ i u (.access k) := by
  rcases Nat.lt_or_ge i τ.length with hlt | hge
  · rwa [At, List.getElem?_append_left hlt] at hi
  · rw [At, List.getElem?_append_right hge] at hi
    exact absurd rfl (h _ (List.mem_of_getElem? hi))

theorem untouched_single (h : a ≠ .access k) : Untouched [(t,a)] k := by
  simpa [Untouched] using h

section Quiet

theorem RaceFree.quiet (hr : RaceFree τ) (h : ∀ k, Untouched σ k) : RaceFree (τ++σ) :=
  fun k _ _ _ _ hlt hi hj =>
    (hr k _ _ _ _ hlt ((h k).at_old hi) ((h k).at_old hj)).append σ

theorem Held.quiet (hh : Held τ k t) (h : Untouched σ k) : Held (τ++σ) k t :=
  fun _ _ hi => (hh _ _ (h.at_old hi)).append σ

theorem ParkedAt.quiet (hp : ParkedAt τ k x g) (h : Untouched σ k) : ParkedAt (τ++σ) k x g :=
  fun _ _ hi => (hp _ _ (h.at_old hi)).append σ

theorem Parked.quiet (hp : Parked τ k x) (h : Untouched σ k) : Parked (τ++σ) k x := by
  intro i u hi
  obtain ⟨g,hg,hc⟩ := hp i u (h.at_old hi)
  exact ⟨g,hg.trans_le (by simp),hc.append σ⟩

theorem Expected.quiet (hp : Expected τ k t) (h : Untouched σ k) : Expected (τ++σ) k t :=
  fun _ _ hi => (hp _ _ (h.at_old hi)).append σ

end Quiet

section Access

theorem access_cases {i : ℕ} {u : ι} (h : At (τ++[(t,a)]) i u (.access k)) :
    At τ i u (.access k) ∨ i = τ.length ∧ u = t ∧ a = .access k := by
  rcases h.of_append with h | ⟨hi,hu,ha⟩
  · exact .inl h
  · exact .inr ⟨hi,hu,ha.symm⟩

theorem RaceFree.access (hr : RaceFree τ) (hh : Held τ k t) :
    RaceFree (τ++[(t,.access k)]) := by
  intro k' i j u u' hlt hi hj
  rcases access_cases hj with hj | ⟨rfl,-,hk⟩
  · rcases access_cases hi with hi | ⟨rfl,-,-⟩
    · exact (hr k' _ _ _ _ hlt hi hj).append _
    · exact absurd hj.lt (by omega)
  · rcases access_cases hi with hi | ⟨rfl,-,-⟩
    · cases hk
      exact (hh i u hi).next _
    · omega

theorem Held.access (hh : Held τ k t) : Held (τ++[(t,.access k)]) k t := by
  intro i u hi
  rcases access_cases hi with hi | ⟨rfl,-,-⟩
  · exact (hh i u hi).append _
  · exact .last τ t _

theorem RaceFree.accesses (hr : RaceFree τ) (h : ∀ i < τ.length, Knows τ t i) (l : List κ) :
    RaceFree (τ++marks t (l.map .access)) := by
  induction l generalizing τ with
  | nil => simpa [marks] using hr
  | cons k l ih =>
    have hheld : Held τ k t := fun i u hi => h i hi.lt
    have hnext := ih (hr.access hheld) (knows_marks (l := [.access k]) h)
    simpa [marks] using hnext

end Access

section Handover

variable {o : MemOrder} {v : ν}

theorem Parked.acquire_update (hp : Parked τ k x) (v : ν) :
    Held (τ++[(t,.update x .acquire v)]) k t := by
  intro i u hi
  obtain ⟨g,hg,hc⟩ := hp i u ((untouched_single (by simp)).at_old hi)
  exact hc.acquire_update hg v

theorem Parked.pending_update (hp : Parked τ k x) (o : MemOrder) (v : ν) :
    Expected (τ++[(t,.update x o v)]) k t := by
  intro i u hi
  obtain ⟨g,hg,hc⟩ := hp i u ((untouched_single (by simp)).at_old hi)
  exact hc.pending_update hg o v

theorem ParkedAt.acquire_load (hp : ParkedAt τ k x g) (hg : g < τ.length) :
    Held (τ++[(t,.load x .acquire g)]) k t :=
  fun i u hi => (hp i u ((untouched_single (by simp)).at_old hi)).acquire_load hg

theorem Expected.acquire (he : Expected τ k t) : Held (τ++[(t,.fence .acquire)]) k t :=
  fun i u hi => (he i u ((untouched_single (by simp)).at_old hi)).acquire

theorem Held.release_update (hh : Held τ k t) (x : χ) (v : ν) :
    ParkedAt (τ++[(t,.update x .release v)]) k x τ.length :=
  fun i u hi => (hh i u ((untouched_single (by simp)).at_old hi)).release_update x v

theorem Held.fence_release (hh : Held τ k t) : Sealed (τ++[(t,.fence .release)]) k t :=
  fun i u hi => (hh i u ((untouched_single (by simp)).at_old hi)).fence_release

theorem Sealed.update (hs : Sealed τ k t) (x : χ) (o : MemOrder) (v : ν) :
    ParkedAt (τ++[(t,.update x o v)]) k x τ.length :=
  fun i u hi => (hs i u ((untouched_single (by simp)).at_old hi)).update x o v

theorem ParkedAt.parked (hp : ParkedAt τ k x g) (hg : g < τ.length) : Parked τ k x :=
  fun i u hi => ⟨g,hg,hp i u hi⟩

end Handover

end Lockness.PoolRaces
