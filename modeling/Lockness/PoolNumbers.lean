import Mathlib.Data.List.Nodup
import Lockness.PoolFutex

/-!
# Calls that are known by their numbers

Numbers are given out in order, one to each call that opens. Whatever opens
later has a larger number, and a number tells its opening event.
-/

set_option autoImplicit false

namespace Lockness.PoolNumbers
open Lockness.PoolRuns

variable {π ε : Type*} {opening : ε → Option ℕ} {call : π → Option ℕ} {h : List ε} {e : ε}
  {calls calls' : Multiset π} {n n' : ℕ}

structure Numbered (opening : ε → Option ℕ) (call : π → Option ℕ) (h : List ε)
    (calls : Multiset π) (next : ℕ) : Prop where
  once : (h.filterMap opening).Nodup
  opened : ∀ id ∈ h.filterMap opening, id < next
  calls : ∀ p ∈ calls, ∀ id, call p = some id → id < next

theorem Numbered.start (opening : ε → Option ℕ) (call : π → Option ℕ) (n : ℕ) :
    Numbered opening call [] 0 n :=
  ⟨by simp,by simp,by simp⟩

theorem Numbered.quiet (hn : Numbered opening call h calls n) (he : opening e = none)
    (hc : ∀ p ∈ calls', ∀ id, call p = some id → id < n) (hle : n ≤ n') :
    Numbered opening call (h++[e]) calls' n' := by
  refine ⟨?_,?_,fun p hp id hid => (hc p hp id hid).trans_le hle⟩
  · simpa [List.filterMap_append,he] using hn.once
  · intro id hid
    rw [List.filterMap_append, List.filterMap_cons_none he, List.filterMap_nil,
      List.append_nil] at hid
    exact (hn.opened id hid).trans_le hle

theorem Numbered.opens (hn : Numbered opening call h calls n) {p : π} (hp : call p = some n)
    (he : opening e = some n) : Numbered opening call (h++[e]) (p ::ₘ calls) (n+1) := by
  have hfilter : (h++[e]).filterMap opening = h.filterMap opening++[n] := by
    simp [List.filterMap_append,he]
  refine ⟨?_,?_,?_⟩
  · rw [hfilter, List.nodup_append]
    refine ⟨hn.once,by simp,?_⟩
    rintro a ha b hb rfl
    have := hn.opened a ha
    rw [List.mem_singleton.mp hb] at this
    omega
  · rw [hfilter]
    intro id hid
    rcases List.mem_append.mp hid with hid | hid
    · exact (hn.opened id hid).trans (Nat.lt_succ_self n)
    · rw [List.mem_singleton.mp hid]
      exact Nat.lt_succ_self n
  · simp only [Multiset.mem_cons, forall_eq_or_imp]
    refine ⟨fun id hid => ?_,fun q hq id hid => (hn.calls q hq id hid).trans (Nat.lt_succ_self n)⟩
    rw [hp, Option.some.injEq] at hid
    omega

theorem filterMap_unique {α β : Type*} {f : α → Option β} {l : List α}
    (hl : (l.filterMap f).Nodup) {a b : α} {i : β} (ha : a ∈ l) (hb : b ∈ l)
    (hfa : f a = some i) (hfb : f b = some i) : a = b := by
  induction l with
  | nil => cases ha
  | cons x l ih =>
    have hmem {y : α} (hy : y ∈ l) (hfy : f y = some i) : i ∈ l.filterMap f :=
      List.mem_filterMap.mpr ⟨y,hy,hfy⟩
    have hx (hfx : f x = some i) : i ∉ l.filterMap f := by
      rw [List.filterMap_cons_some hfx] at hl
      exact (List.nodup_cons.mp hl).1
    have htail : (l.filterMap f).Nodup := by
      cases hfx : f x with
      | none => simpa [List.filterMap_cons_none hfx] using hl
      | some j =>
        rw [List.filterMap_cons_some hfx] at hl
        exact (List.nodup_cons.mp hl).2
    rcases List.mem_cons.mp ha with rfl | ha' <;> rcases List.mem_cons.mp hb with rfl | hb'
    · rfl
    · exact absurd (hmem hb' hfb) (hx hfa)
    · exact absurd (hmem ha' hfa) (hx hfb)
    · exact ih htail ha' hb'

/-- One number, one opening event. -/
theorem Numbered.unique (hn : Numbered opening call h calls n) {a b : ε} {id : ℕ} (ha : a ∈ h)
    (hb : b ∈ h) (hia : opening a = some id) (hib : opening b = some id) : a = b :=
  filterMap_unique hn.once ha hb hia hib

theorem late_number {σ : Type*} {step : σ → ε → σ → Prop} {s t : σ} {k : List ε}
    (next : σ → ℕ) (hone : ∀ k u e v, Steps step s k u → step u e v →
      next u ≤ next v ∧ ∀ id, opening e = some id → id = next u) (hrun : Steps step s k t) :
    next s ≤ next t ∧ ∀ id ∈ k.filterMap opening, next s ≤ id := by
  refine hrun.carries (fun k t => next s ≤ next t ∧ ∀ id ∈ k.filterMap opening, next s ≤ id)
    (by simp) ?_
  rintro k t e u hk ⟨hle,hids⟩ hstep
  obtain ⟨hnext,hopen⟩ := hone _ _ _ _ hk hstep
  refine ⟨hle.trans hnext,fun id hid => ?_⟩
  rw [List.filterMap_append, List.mem_append] at hid
  rcases hid with hid | hid
  · exact hids id hid
  · have he : opening e = some id := by simpa using hid
    rw [hopen id he]
    exact hle

end Lockness.PoolNumbers
