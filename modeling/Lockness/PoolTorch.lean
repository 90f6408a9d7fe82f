import Mathlib.Data.Bool.Basic
import Mathlib.Data.Nat.Notation
import Mathlib.Tactic.Common

/-!
# Passing the torch among sleepers

Parties sleep at one word that carries an armed bit. Whoever makes work for
them disarms the bit and wakes some if it was armed; a woken party arms the bit
again and tries its luck. Two facts survive every such step: a sleeper is
remembered by the bit or by somebody awake, and work that a sleeper waits for
has somebody on the way to it. Closing the word wakes somebody, if the bit is
armed at that moment; it may disarm it.
-/

set_option autoImplicit false

namespace Lockness.PoolTorch

/-- `wakes` is the number of parties that the wake-ups on their way are sure to reach,
`woken` counts those awake that have not armed the bit again. -/
structure Torch where
  asleep : ℕ
  wakes : ℕ
  woken : ℕ
  trying : ℕ
  armed : Bool
  work : Bool
  closed : Bool

inductive Move (t t' : Torch) : Prop
  | idle : t'.asleep = t.asleep → t'.wakes = t.wakes → t'.woken = t.woken →
      t.trying ≤ t'.trying → (t.armed = true → t'.armed = true) →
      (t'.work = true → t.work = true) → t'.closed = t.closed → Move t t'
  | settle : t'.asleep = t.asleep → t'.wakes = t.wakes → t'.woken = t.woken →
      (t.armed = true → t'.armed = true) → t'.work = false → t'.closed = t.closed →
      Move t t'
  | signal : t'.asleep = t.asleep → t'.wakes = t.wakes+(if t.armed then 1 else 0) →
      t'.woken = t.woken → t'.trying = t.trying → t'.closed = t.closed → Move t t'
  | close : t'.asleep = t.asleep → t'.wakes = t.wakes+(if t.armed then 1 else 0) →
      t'.woken = t.woken → t'.trying = t.trying → (t'.work = true → t.work = true) →
      Move t t'
  | sleep : t'.asleep = t.asleep+1 → t'.wakes = t.wakes → t'.armed = true →
      (t'.work = true → 0 < t'.wakes+t'.woken+t'.trying) → t'.closed = false → Move t t'
  | miss : t'.asleep = t.asleep → t'.wakes = t.wakes → t'.woken = t.woken+1 →
      t'.trying = t.trying → t'.armed = t.armed → t'.work = t.work → t'.closed = t.closed →
      Move t t'
  | rearm : t'.asleep = t.asleep → t'.wakes = t.wakes → t'.armed = true →
      t'.trying = t.trying+1 → t'.closed = t.closed → Move t t'
  | wake {n k : ℕ} : n ≤ k → t'.asleep = t.asleep-k → t.wakes = t'.wakes+n →
      t'.woken+t'.asleep = t.woken+t.asleep → t'.trying = t.trying → t'.armed = t.armed →
      t'.work = t.work → t'.closed = t.closed → Move t t'
  | spurious : t.asleep = t'.asleep+1 → t'.wakes = t.wakes → t'.woken = t.woken+1 →
      t'.trying = t.trying → t'.armed = t.armed → t'.work = t.work → t'.closed = t.closed →
      Move t t'

structure Inv (t : Torch) : Prop where
  lit : 0 < t.asleep → t.armed = true ∨ 0 < t.wakes+t.woken
  busy : 0 < t.asleep → t.work = true → 0 < t.wakes+t.woken+t.trying

/-- A closed word has a wake-up on its way for every sleeper. -/
def Released (t : Torch) : Prop := t.closed = true → t.asleep ≤ t.wakes

variable {t t' : Torch}

theorem Inv.move (h : Inv t) (hm : Move t t') : Inv t' := by
  obtain ⟨hlit,hbusy⟩ := h
  cases hm with
  | idle ha hw hk ht hr hj hc =>
    refine ⟨fun h0 => ?_,fun h0 hwork => ?_⟩
    · exact (hlit (by omega)).imp hr (by omega)
    · have := hbusy (by omega) (hj hwork)
      omega
  | settle ha hw hk hr hj hc =>
    refine ⟨fun h0 => (hlit (by omega)).imp hr (by omega),fun _ hwork => ?_⟩
    exact absurd (hj.symm.trans hwork) (by decide)
  | signal ha hw hk ht hc =>
    have hsum : 0 < t'.asleep → 0 < t'.wakes+t'.woken := by
      intro h0
      rcases hlit (by omega) with hr | hr
      · rw [hr, if_pos rfl] at hw
        omega
      · omega
    exact ⟨fun h0 => .inr (hsum h0),fun h0 _ => by have := hsum h0; omega⟩
  | close ha hw hk ht hj =>
    refine ⟨fun h0 => .inr ?_,fun h0 hwork => ?_⟩
    · rcases hlit (by omega) with hr | hr
      · rw [hr, if_pos rfl] at hw
        omega
      · omega
    · have := hbusy (by omega) (hj hwork)
      omega
  | sleep _ _ hr hj => exact ⟨fun _ => .inl hr,fun _ hwork => hj hwork⟩
  | miss => exact ⟨fun _ => .inr (by omega),fun _ _ => by omega⟩
  | rearm _ _ hr => exact ⟨fun _ => .inl hr,fun _ _ => by omega⟩
  | wake hn ha hw hk ht hr hj hc =>
    refine ⟨fun h0 => (hlit (by omega)).imp (hr ▸ ·) (by omega),fun h0 hwork => ?_⟩
    have := hbusy (by omega) (hj ▸ hwork)
    omega
  | spurious => exact ⟨fun _ => .inr (by omega),fun _ _ => by omega⟩

/-- Closing releases everybody if the wake-ups on their way, the one for the armed bit
among them, are sure to reach everybody who sleeps. -/
theorem Released.move (h : Released t) (hm : Move t t')
    (hclose : t.closed = false → t'.closed = true →
      t.asleep ≤ t.wakes+(if t.armed then 1 else 0)) : Released t' := by
  intro hc'
  cases hm with
  | idle ha hw hk ht hr hj hc => have := h (hc ▸ hc'); omega
  | settle ha hw hk hr hj hc => have := h (hc ▸ hc'); omega
  | signal ha hw hk ht hc => have := h (hc ▸ hc'); omega
  | close ha hw =>
    cases hc : t.closed
    · have := hclose hc hc'
      omega
    · have := h hc
      omega
  | sleep _ _ _ _ hc => exact absurd (hc.symm.trans hc') (by decide)
  | miss ha hw _ _ _ _ hc => have := h (hc ▸ hc'); omega
  | rearm ha hw _ _ hc => have := h (hc ▸ hc'); omega
  | wake hn ha hw hk ht hr hj hc => have := h (hc ▸ hc'); omega
  | spurious ha hw hk ht hr hj hc => have := h (hc ▸ hc'); omega

end Lockness.PoolTorch
