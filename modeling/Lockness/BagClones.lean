import Lockness.BagHandles

/-!
# The count of senders

`clone` counts the new sender before it looks at the guard and before it
computes the bias. The guard allows for more senders than the product of the
bias does. A build that checks overflow panics in between: the sender is
counted, but there is no handle whose drop would take the count back.
-/

set_option autoImplicit false

namespace Lockness.BagClones
open Lockness.PoolRuns Lockness.PoolFutex Lockness.PoolTally Lockness.BagMachine
open Lockness.BagMoves Lockness.BagInversion Lockness.BagHandles

variable {T : Type*} {c : Target T} {h : List (Event T)} {s s' : State T} {e : Event T}

def handles (s : State T) : ℕ := s.senders.card+weigh (dropping_sender .count) s.calls

/-- A sender is only counted where the product of its bias fits. -/
def Sparse (c : Target T) (s : State T) (e : Event T) (s' : State T) : Prop :=
  Step c s e s' ∧ (s.inner.num_senders < s'.inner.num_senders → 7*s.inner.num_senders < 2^32)

/-- The counter is the number of handles, and the last of them raises the flag. -/
structure Exact (c : Target T) (s : State T) : Prop where
  counted : s.inner.num_senders = handles s
  unwrapped : s.inner.num_senders < 2^32
  last : .drop_sender .count ∈ s.calls →
    ((∃ m, drop_sender_code c s.inner .count = .go m (.drop_sender .raise) .tau) ↔ handles s = 1)
  raised : weigh (dropping_sender .raise) s.calls+(BagMasks.dead (~~~s.inner.recv)).toNat =
    if handles s = 0 then 1 else 0

theorem clone_sender_exact (c : Target T) {m : Inner T} (hm : 7*m.num_senders < 2^32) :
    clone_sender c m = .ok { m with num_senders := m.num_senders+1, strong := m.strong+1 }
      (7*m.num_senders%N) := by
  have hmul : m.num_senders*7 = 7*m.num_senders := Nat.mul_comm _ _
  simp only [clone_sender, guard_eq]
  rw [if_neg (by omega), if_neg (by omega), wrapping_add_one_eq (by omega), hmul,
    Nat.mod_eq_of_lt hm]

theorem clone_sender_overflow {m : Inner T} (hc : c.overflow_checks = true)
    (hlt : m.num_senders < 2^31) (hm : 2^32 ≤ 7*m.num_senders) :
    clone_sender c m = .panic { m with num_senders := m.num_senders+1 } := by
  simp only [clone_sender, guard_eq]
  rw [if_neg (by omega), if_pos ⟨hc,by omega⟩, wrapping_add_one_eq hlt]

theorem sparse_leak (hok : ∀ p ∈ s.calls, Ok p) (hstep : Sparse c s e s') : leak e = 0 := by
  obtain ⟨hstep,hm⟩ := hstep
  cases hstep with
  | @party _ m calls hp =>
    generalize s.calls = calls₀ at hok hp
    cases hp with
    | go hc => exact party_move_leak (code_moves (hok _ (Multiset.mem_cons_self _ _)) hc)
    | wake => rfl
    | spurious => rfl
    | exit hc => exact exit_leak (code_exits hc)
  | clone_sender_panic _ hc =>
    obtain ⟨-,rfl⟩ := clone_sender_panics hc
    rw [clone_sender_exact c (hm (Nat.lt_succ_self _))] at hc
    cases hc
  | _ => rfl

theorem sparse_run (hrun : Steps (Sparse c) mpmc h s) : Handles h s ∧ leaks h = 0 := by
  refine hrun.carries (fun h s => Handles h s ∧ leaks h = 0) ⟨handles_start,rfl⟩ ?_
  rintro h s e s' - ⟨hk,hl⟩ hstep
  exact ⟨handles_step hk hstep.1,by rw [leaks_append, hl, sparse_leak hk.ok hstep]⟩

theorem counted_of_handles (hk : Handles h s) (hl : leaks h = 0) :
    s.inner.num_senders = handles s := by
  have hc : s.inner.num_senders = handles s+leaks h := hk.senders_tallied.counted
  rw [hc, hl, Nat.add_zero]

theorem exact_of_handles (hk : Handles h s) (hl : leaks h = 0) : Exact c s where
  counted := counted_of_handles hk hl
  unwrapped := by
    have := hk.senders_le
    omega
  last := by
    intro hmem
    have hc := counted_of_handles hk hl
    have hpos : 0 < handles s := by
      have := le_weigh (dropping_sender .count) hmem
      simp only [dropping_sender] at this
      rw [handles]
      simp at this
      omega
    simp only [drop_sender_code]
    constructor
    · rintro ⟨m,hgo⟩
      by_contra hne
      rw [if_pos (by omega)] at hgo
      cases hgo
    · intro h1
      rw [if_neg (by omega)]
      exact ⟨_,rfl⟩
  raised := by
    have ho : weigh (dropping_sender .raise) s.calls+(BagMasks.dead (~~~s.inner.recv)).toNat =
      if s.inner.num_senders = 0 then 1 else 0 := hk.senders_tallied.once
    rw [ho, counted_of_handles hk hl]

/-- In every run in which clones find room for their bias, the count is exact after every step,
and the next clone that finds room as well returns with the bias of the source. -/
theorem clones_exact (hrun : Steps (Sparse c) mpmc h s) : Exact c s ∧
    (7*s.inner.num_senders < 2^32 → clone_sender c s.inner =
      .ok { s.inner with num_senders := s.inner.num_senders+1, strong := s.inner.strong+1 }
        (7*s.inner.num_senders%N)) := by
  obtain ⟨hk,hl⟩ := sparse_run hrun
  exact ⟨exact_of_handles hk hl,fun hm => clone_sender_exact c hm⟩

section Crowd

variable {n : ℕ}

theorem crowd_reached (c : Target T) (hn : 7*n < 2^32) :
    ∃ (h : List (Event T)) (s : State T), Steps (Sparse c) mpmc h s ∧
      s.inner.num_senders = n+1 ∧ 0 < s.senders.card := by
  induction n with
  | zero => exact ⟨[],mpmc,.refl,rfl,by simp [mpmc]⟩
  | succ n ih =>
    obtain ⟨h,s,hrun,hnum,hpos⟩ := ih (by omega)
    obtain ⟨x,hx⟩ := Multiset.card_pos_iff_exists_mem.mp hpos
    have hm : 7*s.inner.num_senders < 2^32 := by omega
    refine ⟨_,_,hrun.next ⟨.clone_sender hx (clone_sender_exact c hm),fun _ => hm⟩,?_,?_⟩
    · simp only [hnum]
    · simp

theorem clones_exact_first : ∃ (h : List (Event ℕ)) (s : State ℕ),
    Steps (Sparse .debug) mpmc h s ∧ s.inner.num_senders = 3 ∧ Exact .debug s := by
  obtain ⟨h,s,hrun,hnum,-⟩ := crowd_reached (T := ℕ) .debug (n := 2) (by decide)
  exact ⟨h,s,hrun,hnum,(clones_exact hrun).1⟩

/-- The clone that finds 613566757 senders passes the guard and panics, counted. -/
theorem clone_miscounts : ∃ (h : List (Event ℕ)) (s s' : State ℕ),
    Steps (Step .debug) mpmc h s ∧ Step .debug s .clone_panic s' ∧
    s.inner.num_senders = 613566757 ∧ Exact .debug s ∧ ¬ Exact .debug s' := by
  obtain ⟨h,s,hrun,hnum,hpos⟩ := crowd_reached (T := ℕ) .debug (n := 613566756) (by decide)
  obtain ⟨x,hx⟩ := Multiset.card_pos_iff_exists_mem.mp hpos
  have hex := (clones_exact hrun).1
  have hover := clone_sender_overflow (c := .debug) (m := s.inner) rfl (by omega) (by omega)
  refine ⟨h,s,_,hrun.mono (fun _ _ _ ho => ho.1),.clone_sender_panic hx hover,hnum,hex,
    fun hno => ?_⟩
  have h1 := hex.counted
  have h2 := hno.counted
  simp only [handles] at h1 h2
  omega

end Crowd

end Lockness.BagClones
