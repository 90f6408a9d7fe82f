import Lockness.PoolOrder

/-!
# The last owner has seen everything

Threads reach a shared allocation through handles, which they borrow. A call
joins whoever created its handle, and the drop of a handle joins whoever has
used it. A dropped handle releases its part of the count; the last one acquires
what the others have released. So the last one knows every mark of the trace, its
own aside, before it frees the allocation.
-/

set_option autoImplicit false

namespace Lockness.PoolArc
open Lockness.PoolOrder

variable {η χ κ ν : Type*}

/-- A thread is what is done through one handle: a call, a clone or the drop. A clone
that panics creates no handle. -/
inductive Thread (η : Type*) where
  | main
  | call (via : η) (id : ℕ)
  | clone (via new : η)
  | clone_panic (via : η) (i : ℕ)
  | drop (x : η)
  deriving DecidableEq

def created (x : η) : Set (Thread η) := fun t => t = .main ∨ ∃ via, t = .clone via x

def bound (x : η) : Set (Thread η) := fun t =>
  t ∈ created x ∨ (∃ id, t = .call x id) ∨ (∃ y, t = .clone x y) ∨ ∃ i, t = .clone_panic x i

/-- A mark is covered by a thread that runs, by a handle that exists, by the drop of
one, or by the count. -/
def Covered (τ : Trace (Thread η) χ κ ν) (alive : η → Prop) (running : Thread η → Prop) (strong : χ)
    (i : ℕ) : Prop :=
  (∃ t a, At τ i t a ∧ (running t ∨ ∃ x, alive x ∧ t ∈ bound x)) ∨
    (∃ x, running (.drop x) ∧ Knows τ (.drop x) i) ∨ ∃ g < τ.length, Carries τ strong g i

variable {τ σ : Trace (Thread η) χ κ ν} {alive alive' : η → Prop}
  {running running' : Thread η → Prop} {strong : χ} {i : ℕ} {t : Thread η} {x : η}

theorem Covered.append (h : Covered τ alive running strong i) (ha : ∀ x, alive x → alive' x)
    (hr : ∀ t, running t → running' t) : Covered (τ++σ) alive' running' strong i := by
  rcases h with ⟨t,a,hi,h⟩ | ⟨x,hx,hi⟩ | ⟨g,hg,hi⟩
  · refine .inl ⟨t,a,hi.append σ,h.imp (hr t) ?_⟩
    rintro ⟨x,hx,ht⟩
    exact ⟨x,ha x hx,ht⟩
  · exact .inr (.inl ⟨x,hr _ hx,hi.append σ⟩)
  · exact .inr (.inr ⟨g,hg.trans_le (by simp),hi.append σ⟩)

theorem covered_running {a : Action (Thread η) χ κ ν} (h : At τ i t a) (ht : running t) :
    Covered τ alive running strong i :=
  .inl ⟨t,a,h,.inl ht⟩

theorem covered_marks {l : List (Action (Thread η) χ κ ν)}
    (h : ∀ i < τ.length, Covered τ alive running strong i) (ha : ∀ x, alive x → alive' x)
    (hr : ∀ t, running t → running' t) (ht : running' t ∨ ∃ x, alive' x ∧ t ∈ bound x) :
    ∀ i < (τ++marks t l).length, Covered (τ++marks t l) alive' running' strong i := by
  intro i hi
  rcases Nat.lt_or_ge i τ.length with hlt | hge
  · exact (h i hlt).append ha hr
  · obtain ⟨a,-,hat⟩ := at_marks hi hge
    exact .inl ⟨t,a,hat,ht⟩

theorem Covered.leave (h : Covered τ alive running strong i) (hx : alive x) (ht : t ∈ bound x)
    (hd : ∀ y, t ≠ .drop y) (hr : ∀ u, running u → u = t ∨ running' u) :
    Covered τ alive running' strong i := by
  rcases h with ⟨u,a,hi,h⟩ | ⟨y,hy,hi⟩ | h
  · rcases h with h | h
    · rcases hr u h with rfl | h
      · exact .inl ⟨u,a,hi,.inr ⟨x,hx,ht⟩⟩
      · exact .inl ⟨u,a,hi,.inl h⟩
    · exact .inl ⟨u,a,hi,.inr h⟩
  · exact .inr (.inl ⟨y,(hr _ hy).resolve_left (fun h0 => hd y h0.symm),hi⟩)
  · exact .inr (.inr h)

theorem Covered.drop (h : Covered τ alive running strong i)
    (ha : ∀ y, alive y → y = x ∨ alive' y) (hr : ∀ u, running u → running' u)
    (hx : running' (.drop x)) :
    Covered (τ++[(.drop x,.join (bound x))]) alive' running' strong i := by
  rcases h with ⟨t,a,hi,h⟩ | h
  · rcases h with h | ⟨y,hy,ht⟩
    · exact covered_running (hi.append _) (hr t h)
    · rcases ha y hy with rfl | hy
      · exact .inr (.inl ⟨y,hx,(Knows.self hi).join ht⟩)
      · exact .inl ⟨t,a,hi.append _,.inr ⟨y,hy,ht⟩⟩
  · rcases h with ⟨y,hy,hi⟩ | ⟨g,hg,hi⟩
    · exact .inr (.inl ⟨y,hr _ hy,hi.append _⟩)
    · exact .inr (.inr ⟨g,hg.trans_le (by simp),hi.append _⟩)

section Release

variable {v : ν}

theorem Covered.release (h : Covered τ alive running strong i)
    (hr : ∀ u, running u → u = .drop x ∨ running' u) :
    Covered (τ++[(.drop x,.update strong .release v)]) alive running' strong i := by
  have hcount (hi : Knows τ (.drop x) i) :
      Covered (τ++[(.drop x,.update strong .release v)]) alive running' strong i :=
    .inr (.inr ⟨τ.length,by simp,hi.release_update strong v⟩)
  rcases h with ⟨t,a,hi,h⟩ | ⟨y,hy,hi⟩ | ⟨g,hg,hi⟩
  · rcases h with h | h
    · rcases hr t h with rfl | h
      · exact hcount (.self hi)
      · exact covered_running (hi.append _) h
    · exact .inl ⟨t,a,hi.append _,.inr h⟩
  · rcases hr _ hy with h | h
    · cases h
      exact hcount hi
    · exact .inr (.inl ⟨y,h,hi.append _⟩)
  · exact .inr (.inr ⟨g,hg.trans_le (by simp),hi.append _⟩)

theorem covered_release (τ : Trace (Thread η) χ κ ν) :
    Covered (τ++[(t,.update strong .release v)]) alive running strong τ.length :=
  .inr (.inr ⟨τ.length,by simp,τ.length,τ.length,.update (at_last τ t _),le_rfl,.inl rfl⟩)

/-- Where nobody else is left, the last drop knows everything after its fence. -/
theorem Covered.last (h : Covered τ alive running strong i) (ha : ∀ y, ¬ alive y)
    (hr : ∀ u, running u → u = .drop x) : Knows
      (τ++[(.drop x,.update strong .release v)]++[(.drop x,.fence .acquire)]) (.drop x) i := by
  rcases h with ⟨t,a,hi,h | ⟨y,hy,-⟩⟩ | ⟨y,hy,hi⟩ | ⟨g,hg,hi⟩
  · obtain rfl := hr t h
    exact .self ((hi.append _).append _)
  · exact absurd hy (ha y)
  · cases hr _ hy
    exact (hi.append _).append _
  · exact (hi.pending_update hg .release v).acquire

end Release

end Lockness.PoolArc
