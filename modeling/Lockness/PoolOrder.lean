import Mathlib.Data.List.Basic
import Mathlib.Data.Nat.Notation
import Mathlib.Data.Set.Defs
import Mathlib.Order.Nat

/-!
# Happens-before on a trace

Threads leave marks in one trace: they update atomics, load from them, fence,
access cells, free them, and join other threads. Program order and reads-from have
no cycle, so that a trace can list both. Every write to an atomic is an update that
reads the write before it. So the writes to an atomic are ordered as in the trace,
and what one of them releases, all later ones carry. A load may
read an older write. Relaxed updates and loads order nothing unless a fence
stands before or after them.
-/

set_option autoImplicit false

namespace Lockness.PoolOrder

inductive MemOrder where
  | relaxed
  | acquire
  | release
  deriving DecidableEq

/-- `load x o g` reads the write at position `g` of the trace. -/
inductive Action (ι χ κ ν : Type*) where
  | update (x : χ) (o : MemOrder) (v : ν)
  | load (x : χ) (o : MemOrder) (g : ℕ)
  | fence (o : MemOrder)
  | access (k : κ)
  | free
  | join (threads : Set ι)

abbrev Trace (ι χ κ ν : Type*) := List (ι × Action ι χ κ ν)

variable {ι χ κ ν : Type*}

def At (τ : Trace ι χ κ ν) (i : ℕ) (t : ι) (a : Action ι χ κ ν) : Prop := τ[i]? = some (t,a)

/-- The write at `f` releases what happened up to `r`. -/
inductive Releases (τ : Trace ι χ κ ν) (x : χ) : ℕ → ℕ → Prop
  | update {f : ℕ} {t : ι} {v : ν} : At τ f t (.update x .release v) → Releases τ x f f
  | fence {r f : ℕ} {t : ι} {o : MemOrder} {v : ν} : At τ r t (.fence .release) →
      At τ f t (.update x o v) → r < f → Releases τ x r f

inductive Reads (τ : Trace ι χ κ ν) (x : χ) (f k : ℕ) (t : ι) (o : MemOrder) : Prop
  | update {v : ν} : At τ k t (.update x o v) → f < k → Reads τ x f k t o
  | load {g : ℕ} : At τ k t (.load x o g) → f ≤ g → g < k → Reads τ x f k t o

inductive Acquires (τ : Trace ι χ κ ν) (x : χ) (f j : ℕ) : Prop
  | read {t : ι} : Reads τ x f j t .acquire → Acquires τ x f j
  | fence {k : ℕ} {t : ι} {o : MemOrder} : Reads τ x f k t o → At τ j t (.fence .acquire) →
      k < j → Acquires τ x f j

/-- The mark at the first position happens before the mark at the second one. -/
inductive Before (τ : Trace ι χ κ ν) : ℕ → ℕ → Prop
  | program {i j : ℕ} {t : ι} {a b : Action ι χ κ ν} : At τ i t a → At τ j t b → i < j →
      Before τ i j
  | join {i j : ℕ} {t u : ι} {a : Action ι χ κ ν} {threads : Set ι} : At τ i t a →
      At τ j u (.join threads) → t ∈ threads → i < j → Before τ i j
  | sync {r f j : ℕ} {x : χ} : Releases τ x r f → Acquires τ x f j → Before τ r j
  | trans {i j k : ℕ} : Before τ i j → Before τ j k → Before τ i k

def UpTo (τ : Trace ι χ κ ν) (i j : ℕ) : Prop := i = j ∨ Before τ i j

/-- Whatever thread `t` does next happens after `i`. -/
def Knows (τ : Trace ι χ κ ν) (t : ι) (i : ℕ) : Prop := ∃ j a, At τ j t a ∧ UpTo τ i j

def Pending (τ : Trace ι χ κ ν) (t : ι) (i : ℕ) : Prop :=
  ∃ x r f k o, Releases τ x r f ∧ Reads τ x f k t o ∧ UpTo τ i r

def Fenced (τ : Trace ι χ κ ν) (t : ι) (i : ℕ) : Prop :=
  ∃ r, At τ r t (.fence .release) ∧ UpTo τ i r

def Carries (τ : Trace ι χ κ ν) (x : χ) (g i : ℕ) : Prop :=
  ∃ r f, Releases τ x r f ∧ f ≤ g ∧ UpTo τ i r

/-- Thread `t` may load `v` from the write at `g`: it knows of no later write. -/
def Readable (τ : Trace ι χ κ ν) (t : ι) (x : χ) (g : ℕ) (v : ν) : Prop :=
  (∃ u o, At τ g u (.update x o v)) ∧
    ∀ f u o v', g < f → At τ f u (.update x o v') → ¬ Knows τ t f

def Latest (τ : Trace ι χ κ ν) (x : χ) (v : ν) : Prop :=
  ∃ g u o, At τ g u (.update x o v) ∧ ∀ f u' o' v', At τ f u' (.update x o' v') → f ≤ g

def marks (t : ι) (l : List (Action ι χ κ ν)) : Trace ι χ κ ν := l.map (Prod.mk t)

def told [DecidableEq χ] (x : χ) (v : ν) : List (Action ι χ κ ν) → ν
  | [] => v
  | .update y _ w::l => told x (if y = x then w else v) l
  | _::l => told x v l

variable {τ : Trace ι χ κ ν} {t u : ι} {a : Action ι χ κ ν} {x : χ} {o : MemOrder} {v : ν}
  {i j f g : ℕ}

section Positions

theorem At.lt (h : At τ i t a) : i < τ.length := (List.getElem?_eq_some_iff.mp h).1

theorem At.unique {b : Action ι χ κ ν} (h : At τ i t a) (h' : At τ i u b) : u = t ∧ b = a := by
  have := Option.some.inj (h'.symm.trans h)
  exact ⟨congrArg Prod.fst this,congrArg Prod.snd this⟩

theorem At.append (σ : Trace ι χ κ ν) (h : At τ i t a) : At (τ++σ) i t a := by
  rw [At, List.getElem?_append_left h.lt]
  exact h

theorem at_last (τ : Trace ι χ κ ν) (t : ι) (a : Action ι χ κ ν) :
    At (τ++[(t,a)]) τ.length t a := by
  simp [At]

theorem At.of_append {b : Action ι χ κ ν} (h : At (τ++[(t,a)]) i u b) :
    At τ i u b ∨ i = τ.length ∧ u = t ∧ b = a := by
  rcases Nat.lt_or_ge i τ.length with hi | hi
  · rw [At, List.getElem?_append_left hi] at h
    exact .inl h
  · have hlt := h.lt
    rw [List.length_append, List.length_singleton] at hlt
    obtain rfl : i = τ.length := by omega
    exact .inr ⟨rfl,(at_last τ t a).unique h⟩

theorem at_marks {l : List (Action ι χ κ ν)} (hi : i < (τ++marks t l).length)
    (hge : τ.length ≤ i) : ∃ a ∈ l, At (τ++marks t l) i t a := by
  rw [List.length_append, marks, List.length_map] at hi
  have hlt : i-τ.length < l.length := by omega
  refine ⟨l[i-τ.length],List.getElem_mem hlt,?_⟩
  rw [At, List.getElem?_append_right hge, marks, List.getElem?_map, List.getElem?_eq_getElem hlt]
  rfl

theorem At.of_marks {b : Action ι χ κ ν} {l : List (Action ι χ κ ν)} (h : At (τ++marks t l) i u b) :
    At τ i u b ∨ u = t ∧ b ∈ l ∧ τ.length ≤ i := by
  rcases Nat.lt_or_ge i τ.length with hlt | hge
  · left
    rwa [At, List.getElem?_append_left hlt] at h
  · obtain ⟨a,ha,hat⟩ := at_marks h.lt hge
    obtain ⟨rfl,rfl⟩ := hat.unique h
    exact .inr ⟨rfl,ha,hge⟩

end Positions

section Append

variable (σ : Trace ι χ κ ν)

theorem Releases.append (h : Releases τ x i f) : Releases (τ++σ) x i f := by
  cases h with
  | update h => exact .update (h.append σ)
  | fence h h' hlt => exact .fence (h.append σ) (h'.append σ) hlt

theorem Reads.append {k : ℕ} (h : Reads τ x f k t o) : Reads (τ++σ) x f k t o := by
  cases h with
  | update h hlt => exact .update (h.append σ) hlt
  | load h hle hlt => exact .load (h.append σ) hle hlt

theorem Acquires.append (h : Acquires τ x f j) : Acquires (τ++σ) x f j := by
  cases h with
  | read h => exact .read (h.append σ)
  | fence h h' hlt => exact .fence (h.append σ) (h'.append σ) hlt

theorem Before.append (h : Before τ i j) : Before (τ++σ) i j := by
  induction h with
  | program h h' hlt => exact .program (h.append σ) (h'.append σ) hlt
  | join h h' hmem hlt => exact .join (h.append σ) (h'.append σ) hmem hlt
  | sync h h' => exact .sync (h.append σ) (h'.append σ)
  | trans _ _ ih ih' => exact .trans ih ih'

theorem UpTo.append (h : UpTo τ i j) : UpTo (τ++σ) i j := h.imp_right (Before.append σ)

theorem Knows.append (h : Knows τ t i) : Knows (τ++σ) t i := by
  obtain ⟨j,a,hj,hi⟩ := h
  exact ⟨j,a,hj.append σ,hi.append σ⟩

theorem Pending.append (h : Pending τ t i) : Pending (τ++σ) t i := by
  obtain ⟨x,r,f,k,o,hr,hk,hi⟩ := h
  exact ⟨x,r,f,k,o,hr.append σ,hk.append σ,hi.append σ⟩

theorem Carries.append (h : Carries τ x g i) : Carries (τ++σ) x g i := by
  obtain ⟨r,f,hr,hle,hi⟩ := h
  exact ⟨r,f,hr.append σ,hle,hi.append σ⟩

end Append

section Rules

theorem UpTo.trans {k : ℕ} (h : UpTo τ i j) (h' : Before τ j k) : Before τ i k := by
  rcases h with rfl | h
  · exact h'
  · exact h.trans h'

theorem Carries.mono (h : Carries τ x g i) (hle : g ≤ f) : Carries τ x f i := by
  obtain ⟨r,f',hr,hf,hi⟩ := h
  exact ⟨r,f',hr,hf.trans hle,hi⟩

theorem Knows.self (h : At τ i t a) : Knows τ t i := ⟨i,a,h,.inl rfl⟩

theorem Knows.last (τ : Trace ι χ κ ν) (t : ι) (a : Action ι χ κ ν) :
    Knows (τ++[(t,a)]) t τ.length := .self (at_last τ t a)

theorem Knows.next (h : Knows τ t i) (a : Action ι χ κ ν) :
    Before (τ++[(t,a)]) i τ.length := by
  obtain ⟨j,b,hj,hi⟩ := h
  exact (hi.append _).trans (.program (hj.append _) (at_last τ t a) hj.lt)

theorem Carries.pending_update (h : Carries τ x g i) (hg : g < τ.length) (o : MemOrder) (v : ν) :
    Pending (τ++[(t,.update x o v)]) t i := by
  obtain ⟨r,f,hr,hle,hi⟩ := h
  exact ⟨x,r,f,τ.length,o,hr.append _,.update (at_last τ t _) (hle.trans_lt hg),hi.append _⟩

theorem Carries.acquire_update (h : Carries τ x g i) (hg : g < τ.length) (v : ν) :
    Knows (τ++[(t,.update x .acquire v)]) t i := by
  obtain ⟨r,f,hr,hle,hi⟩ := h
  have hread : Reads (τ++[(t,.update x .acquire v)]) x f τ.length t .acquire :=
    .update (at_last τ t _) (hle.trans_lt hg)
  exact ⟨τ.length,_,at_last τ t _,.inr ((hi.append _).trans (.sync (hr.append _) (.read hread)))⟩

theorem Carries.acquire_load (h : Carries τ x g i) (hg : g < τ.length) :
    Knows (τ++[(t,.load x .acquire g)]) t i := by
  obtain ⟨r,f,hr,hle,hi⟩ := h
  have hread : Reads (τ++[(t,.load x .acquire g)]) x f τ.length t .acquire :=
    .load (at_last τ t _) hle hg
  exact ⟨τ.length,_,at_last τ t _,.inr ((hi.append _).trans (.sync (hr.append _) (.read hread)))⟩

theorem Reads.lt {k : ℕ} (h : Reads τ x f k t o) : k < τ.length := by
  cases h with
  | update h => exact h.lt
  | load h => exact h.lt

theorem Pending.acquire (h : Pending τ t i) : Knows (τ++[(t,.fence .acquire)]) t i := by
  obtain ⟨x,r,f,k,o,hr,hk,hi⟩ := h
  have hacq : Acquires (τ++[(t,.fence .acquire)]) x f τ.length :=
    .fence (hk.append _) (at_last τ t _) hk.lt
  exact ⟨τ.length,_,at_last τ t _,.inr ((hi.append _).trans (.sync (hr.append _) hacq))⟩

theorem Knows.release_update (h : Knows τ t i) (x : χ) (v : ν) :
    Carries (τ++[(t,.update x .release v)]) x τ.length i :=
  ⟨τ.length,τ.length,.update (at_last τ t _),le_rfl,.inr (h.next _)⟩

theorem Knows.fence_release (h : Knows τ t i) : Fenced (τ++[(t,.fence .release)]) t i :=
  ⟨τ.length,at_last τ t _,.inr (h.next _)⟩

theorem Fenced.update (h : Fenced τ t i) (x : χ) (o : MemOrder) (v : ν) :
    Carries (τ++[(t,.update x o v)]) x τ.length i := by
  obtain ⟨r,hr,hi⟩ := h
  exact ⟨r,τ.length,.fence (hr.append _) (at_last τ t _) hr.lt,le_rfl,hi.append _⟩

theorem knows_marks {l : List (Action ι χ κ ν)} (h : ∀ i < τ.length, Knows τ t i) :
    ∀ i < (τ++marks t l).length, Knows (τ++marks t l) t i := by
  intro i hi
  rcases Nat.lt_or_ge i τ.length with hlt | hge
  · exact (h i hlt).append _
  · obtain ⟨a,-,ha⟩ := at_marks hi hge
    exact .self ha

theorem Knows.join (h : Knows τ u i) {threads : Set ι} (hu : u ∈ threads) :
    Knows (τ++[(t,.join threads)]) t i := by
  obtain ⟨j,a,hj,hi⟩ := h
  exact ⟨τ.length,_,at_last τ t _,
    .inr ((hi.append _).trans (.join (hj.append _) (at_last τ t _) hu hj.lt))⟩

end Rules

section Values

theorem latest_update (τ : Trace ι χ κ ν) (t : ι) (x : χ) (o : MemOrder) (v : ν) :
    Latest (τ++[(t,.update x o v)]) x v := by
  refine ⟨τ.length,t,o,at_last τ t _,fun f u' o' v' hf => ?_⟩
  have := hf.lt
  rw [List.length_append, List.length_singleton] at this
  omega

theorem Latest.append (h : Latest τ x v) (t : ι) (ha : ∀ o w, a ≠ .update x o w) :
    Latest (τ++[(t,a)]) x v := by
  obtain ⟨g,u,o,hg,hlast⟩ := h
  refine ⟨g,u,o,hg.append _,fun f u' o' v' hf => ?_⟩
  rcases hf.of_append with hf | ⟨-,-,hf⟩
  · exact hlast f u' o' v' hf
  · exact absurd hf.symm (ha o' v')

theorem Latest.marks [DecidableEq χ] (h : Latest τ x v) (t : ι) (l : List (Action ι χ κ ν)) :
    Latest (τ++marks t l) x (told x v l) := by
  induction l generalizing τ v with
  | nil => simpa [PoolOrder.marks,told] using h
  | cons a l ih =>
    have hcons : τ++PoolOrder.marks t (a::l) = τ++[(t,a)]++PoolOrder.marks t l := by
      simp [PoolOrder.marks]
    rw [hcons]
    cases a with
    | update y o w =>
      by_cases hy : y = x
      · subst hy
        simpa [told] using ih (latest_update τ t y o w)
      · simpa [told,hy] using ih (h.append t (by simp [hy]))
    | _ => exact ih (h.append t (by simp))

theorem told_access [DecidableEq χ] (x : χ) (v : ν) (l : List κ) (r : List (Action ι χ κ ν)) :
    told x v (l.map .access++r) = told x v r := by
  induction l with
  | nil => rfl
  | cons k l ih => exact ih

theorem Latest.readable (h : Latest τ x v) (t : ι) : ∃ g, Readable τ t x g v := by
  obtain ⟨g,u,o,hg,hlast⟩ := h
  refine ⟨g,⟨u,o,hg⟩,fun f u' o' v' hlt hf => ?_⟩
  exact absurd (hlast f u' o' v' hf) (by omega)

/-- Who knows every write reads the last one. -/
theorem Readable.latest {w : ν} (h : Readable τ t x g w) (hl : Latest τ x v)
    (hk : ∀ i < τ.length, Knows τ t i) : w = v := by
  obtain ⟨⟨u,o,hg⟩,hno⟩ := h
  obtain ⟨f,u',o',hf,hlast⟩ := hl
  rcases (hlast g u o w hg).lt_or_eq with hlt | rfl
  · exact absurd (hk f hf.lt) (hno f u' o' v hlt hf)
  · have := (hf.unique hg).2
    simp only [Action.update.injEq] at this
    exact this.2.2

end Values

end Lockness.PoolOrder
