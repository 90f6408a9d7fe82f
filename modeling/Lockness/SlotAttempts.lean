import Lockness.SlotMoves

/-!
# The count of attempts never reaches the flags

On x86-64 every attempt adds one to the senders' word, and only a receive
resets it. A sender that finds more than `ABORT` attempts stops there, so the
count exceeds that bound by no more than the senders that have stopped or are
about to. Fewer than 2^60 of those keep the count clear of the flags.
-/

set_option autoImplicit false

namespace Lockness.SlotAttempts
open Lockness.PoolRuns Lockness.PoolFutex Lockness.SlotWords Lockness.SlotWords.SendStatus
open Lockness.SlotMachine Lockness.SlotMoves

variable {c : Target} {T : Type*}

/-- A sender that found too many attempts; it aborts when it looks. -/
def over_limit : Party c T → ℕ
  | .send _ _ _ (.check _ prev) => if aborts c prev then 1 else 0
  | .send _ _ _ .abort => 1
  | _ => 0

def aborting (s : State c T) : ℕ := weigh over_limit s.calls

theorem quiet_over_limit : Quiet (over_limit : Party c T → ℕ) := by
  constructor
  · intro w p q h
    rcases woken_cases h with ⟨_,_,_,_,_,rfl,rfl⟩ | ⟨_,_,_,rfl,rfl⟩ <;> rfl
  · intro w n p q h
    cases h <;> rfl

theorem over_limit_move {m m' : Inner c T} {p p' : Party c T} {e : Event T}
    (hm : PartyMove m p m' p' e) : over_limit p ≤ over_limit p' := by
  cases hm with
  | send hm =>
    cases hm with
    | abort ha => simp [over_limit,ha]
    | refuse ha => simp [over_limit,ha]
    | full ha => simp [over_limit,ha]
    | own _ h0 =>
      rename_i prev _
      have : aborts c prev ≠ true := fun ha => aborts_count ha h0
      simp [over_limit,this]
    | _ => exact Nat.zero_le _
  | recv => exact Nat.zero_le _
  | drop hm => cases hm <;> exact Nat.zero_le _

theorem aborting_step {s s' : State c T} {e : Event T} (hstep : Step s e s') :
    aborting s ≤ aborting s' := by
  cases step_moves hstep with
  | move hm =>
    simp only [aborting, weigh_cons]
    have := over_limit_move hm
    omega
  | wake hp hw => exact (quiet_over_limit.weigh_wake hp hw).ge
  | spurious hw => exact (quiet_over_limit.weigh_spurious hw).ge
  | exit hx => cases hx <;> simp [aborting,over_limit]
  | call_send => simp [aborting]
  | call_recv => simp [aborting]
  | clone_sender => rfl
  | drop_sender => simp [aborting]
  | drop_receiver => simp [aborting]

/-- The count runs ahead of the limit by those who are over it. -/
def Counted (s : State c T) : Prop := c = .x86_64 → count s.inner.send ≤ 2^61+1+aborting s

/-- The next attempt does not carry into the flags. -/
def Calm (s : State c T) : Prop := ¬ Carries s.inner.send

theorem Counted.calm {s : State c T} (hc : Counted s) (hs : aborting s ≤ 2^60) : Calm s := by
  rintro ⟨hx,hcount⟩
  have := hc hx
  omega

theorem attempt_counted {m : Inner c T} {rest : Multiset (Party c T)} {x : ℕ} (hx : c = .x86_64)
    (hle : count m.send ≤ 2^61+1+weigh over_limit rest) (hcalm : ¬ Carries m.send)
    (hlim : x = if aborts c m.send then 1 else 0) :
    count (attempt c m.send) ≤ 2^61+1+(x+weigh over_limit rest) := by
  obtain ⟨-,hnext,-⟩ := attempt_spec hcalm
  subst hx
  by_cases ha : aborts .x86_64 m.send = true
  · rw [if_pos ha] at hlim
    omega
  · rw [aborts_iff] at ha
    omega

theorem counted_move {m m' : Inner c T} {p p' : Party c T} {rest : Multiset (Party c T)}
    {e : Event T} (hx : c = .x86_64)
    (hle : count m.send ≤ 2^61+1+(over_limit p+weigh over_limit rest))
    (hcalm : ¬ Carries m.send) (hm : PartyMove m p m' p' e) :
    count m'.send ≤ 2^61+1+(over_limit p'+weigh over_limit rest) := by
  have hover := over_limit_move hm
  have hkeep (heq : count m'.send = count m.send) :
      count m'.send ≤ 2^61+1+(over_limit p'+weigh over_limit rest) := by omega
  cases hm with
  | send hm =>
    cases hm with
    | attempt =>
      rw [show over_limit (.send _ _ _ (.attempt _)) = 0 from rfl, Nat.zero_add] at hle
      exact attempt_counted hx hle hcalm rfl
    | spin hw => exact hkeep hw
    | rearm => exact hkeep (count_or_SLEEPING _)
    | _ => exact hkeep rfl
  | recv hm =>
    cases hm with
    | release => simp
    | _ => exact hkeep rfl
  | drop hm =>
    cases hm with
    | receiver_raise => simp
    | _ => exact hkeep rfl

theorem counted_step {s s' : State c T} {e : Event T} (hc : Counted s) (hcalm : Calm s)
    (hstep : Step s e s') : Counted s' := by
  intro hx
  have hle := hc hx
  have hover := aborting_step hstep
  have hkeep (heq : s'.inner.send = s.inner.send) : count s'.inner.send ≤ 2^61+1+aborting s' := by
    rw [heq]
    omega
  cases step_moves hstep with
  | move hm =>
    simp only [aborting, weigh_cons] at hle ⊢
    exact counted_move hx hle hcalm hm
  | exit hm => exact hkeep (exit_frame hm).1
  | _ => exact hkeep rfl

abbrev CalmStep : State c T → Event T → State c T → Prop := When Step (fun s _ => Calm s)

/-- While few senders are over the limit, no attempt of the run has carried. -/
theorem calm_run {h : List (Event T)} {s : State c T} (hrun : Steps Step mpsc h s)
    (hs : aborting s ≤ 2^60) : Steps CalmStep mpsc h s ∧ Calm s := by
  have hback (u : State c T) (e : Event T) (v : State c T) (hstep : Step u e v)
      (hv : aborting v ≤ 2^60) : aborting u ≤ 2^60 := (aborting_step hstep).trans hv
  have hsince := hrun.since hback hs
  have hinv : Steps CalmStep mpsc h s ∧ Counted s := by
    clear hs hrun
    induction hsince with
    | refl => exact ⟨.refl,fun _ => by simp [mpsc]⟩
    | next _ hone ih =>
      have hcalm := ih.2.calm hone.2
      exact ⟨.next ih.1 ⟨hone.1,hcalm⟩,counted_step ih.2 hcalm hone.1⟩
  exact ⟨hinv.1,hinv.2.calm hs⟩

theorem aborting_le_card (s : State c T) : aborting s ≤ s.calls.card := by
  have hone (p : Party c T) : over_limit p ≤ 1 := by
    unfold over_limit
    split
    · split <;> omega
    · exact le_rfl
    · exact Nat.zero_le _
  have := weigh_le (g := fun _ => 1) (fun p (_ : p ∈ s.calls) => hone p)
  simpa [weigh,aborting] using this

end Lockness.SlotAttempts
