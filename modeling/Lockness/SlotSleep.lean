import Lockness.SlotTorch
import Lockness.SlotSchedule

/-!
# Nobody sleeps beside a value or a free slot

The receiver sleeps at `recv` as long as the word is exactly `SLEEPING`, or a
wake-up is on its way; it never arms the word again, for it is the only one
there. The senders' side follows from their torch once every call is asleep.
-/

set_option autoImplicit false

namespace Lockness.SlotSleep
open Lockness.PoolRuns Lockness.PoolFutex Lockness.SlotWords Lockness.SlotWords.SendStatus
open Lockness.SlotMachine Lockness.SlotMoves Lockness.SlotAttempts Lockness.SlotHandles
open Lockness.SlotTorch Lockness.SlotSchedule

variable {c : Target} {T : Type*} {h : List (Event T)} {s s' : State c T} {e : Event T}

def Asleep (w : Futex) (s : State c T) : Prop := ∃ p ∈ s.calls, (woken w p).isSome

/-- Every party is outside any operation or asleep. -/
def Quiescent (s : State c T) : Prop :=
  ∀ p ∈ s.calls, (woken .send p).isSome ∨ (woken .recv p).isSome

instance (w : Futex) (s : State c T) : Decidable (Asleep w s) :=
  Multiset.decidableExistsMultiset

instance (s : State c T) : Decidable (Quiescent s) :=
  Multiset.decidableForallMultiset

theorem asleep_iff (w : Futex) (s : State c T) :
    Asleep w s ↔ 0 < weigh (sleeps (woken w)) s.calls := by
  have hpos (p : Party c T) : 0 < sleeps (woken w) p ↔ (woken w p).isSome := by
    unfold sleeps
    split <;> simp_all
  simp only [weigh_pos_iff, hpos, Asleep]

def recv_wakes : Party c T → ℕ
  | .send _ _ _ .wake => 1
  | .drop_sender .wake => 1
  | _ => 0

/-- A sleeping receiver has its word as it left it, or a wake-up on its way. -/
def Watched (m : Inner c T) (calls : Multiset (Party c T)) : Prop :=
  0 < weigh (sleeps (woken .recv)) calls →
    m.recv = RecvStatus.SLEEPING ∨ 0 < weigh recv_wakes calls

section Watched

variable {m m' : Inner c T} {ss : Multiset ℕ} {r : Bool} {n : ℕ} {p p' : Party c T}
  {rest rest' : Multiset (Party c T)}

theorem sleeps_le (p : Party c T) : sleeps (woken .recv) p ≤ receiving p := by
  cases p with
  | recv id b pc =>
    simp only [sleeps, receiving]
    split <;> omega
  | _ => exact le_rfl

theorem only_receiver (hk : Handles ⟨m,ss,r,p ::ₘ rest,n⟩) (hp : receiving p = 1) :
    weigh (sleeps (woken .recv)) rest = 0 := by
  have := weigh_le (fun q (_ : q ∈ rest) => sleeps_le q)
  rw [(receiver_held hk hp).2] at this
  omega

theorem Watched.keep {calls calls' : Multiset (Party c T)} (hw : Watched m calls)
    (hm : m'.recv = m.recv)
    (hs : weigh (sleeps (woken .recv)) calls' = weigh (sleeps (woken .recv)) calls)
    (hr : weigh recv_wakes calls ≤ weigh recv_wakes calls') : Watched m' calls' := by
  intro h0
  rw [hm]
  exact (hw (hs ▸ h0)).imp id (fun h => by omega)

theorem watched_send {id x : ℕ} {b : Bool} {pc pc' : SendPc c T}
    (hw : Watched m (.send id b x pc ::ₘ rest)) (hm : SendMove m b pc m' pc' e) :
    Watched m' (.send id b x pc' ::ₘ rest) := by
  cases hm with
  | commit =>
    intro h0
    right
    rw [weigh_cons]
    rcases hw (by simpa [sleeps,woken] using h0) with hs | hs
    · rw [hs, RecvStatus.sleeping_SLEEPING, if_pos rfl]
      simp [recv_wakes]
    · rw [weigh_cons] at hs
      exact hs.trans_le (by simp [recv_wakes])
  | _ =>
    refine hw.keep rfl ?_ ?_
    · simp [sleeps,woken]
    · simp [recv_wakes]

theorem watched_recv {id : ℕ} {b : Bool} {pc pc' : RecvPc T}
    (hk : Handles ⟨m,ss,r,.recv id b pc ::ₘ rest,n⟩) (hm : RecvMove m b pc m' pc' e) :
    Watched m' (.recv id b pc' ::ₘ rest) := by
  intro h0
  rw [weigh_cons, only_receiver hk rfl] at h0
  cases hm with
  | sleep hs => exact .inl hs
  | empty i =>
    exfalso
    revert h0
    split
    · split <;> simp [sleeps,woken]
    · simp [sleeps,woken]
  | release =>
    exfalso
    revert h0
    split <;> simp [sleeps,woken]
  | arm =>
    exfalso
    revert h0
    split <;> simp [sleeps,woken]
  | _ => simp [sleeps,woken] at h0

theorem watched_drop (hw : Watched m (p ::ₘ rest)) (hm : DropMove m p m' p' e) :
    Watched m' (p' ::ₘ rest) := by
  cases hm with
  | sender_raise =>
    intro h0
    right
    rw [weigh_cons]
    rcases hw (by simpa [sleeps,woken] using h0) with hs | hs
    · rw [hs, RecvStatus.sleeping_SLEEPING, if_pos rfl]
      simp [recv_wakes]
    · rw [weigh_cons] at hs
      exact hs.trans_le (by simp [recv_wakes])
  | _ =>
    refine hw.keep rfl ?_ ?_
    · simp [sleeps,woken]
    · simp [recv_wakes]

theorem watched_wake {w : Futex} {k : ℕ} (hk : Handles ⟨m,ss,r,p ::ₘ rest,n⟩)
    (hi : Watched m (p ::ₘ rest)) (hp : Waking p w k p') (hw : Wake (woken w) k rest rest') :
    Watched m (p' ::ₘ rest') := by
  have hwk : weigh recv_wakes rest' = weigh recv_wakes rest := hw.weigh_eq (fun p q h => by
    rcases woken_cases h with ⟨_,_,_,_,_,rfl,rfl⟩ | ⟨_,_,_,rfl,rfl⟩ <;> rfl)
  cases w with
  | recv =>
    have ha : ∀ p q : Party c T, woken .recv p = some q → woken .recv q = none :=
      fun _ _ => woken_awake
    obtain ⟨j,hj,hs⟩ := hw.sleepers ha
    have hle : weigh (sleeps (woken .recv)) rest ≤ weigh receiving rest :=
      weigh_le (fun q _ => sleeps_le q)
    have hone := hk.receiver
    have hr : r.toNat ≤ 1 := Bool.toNat_le r
    have hp' : sleeps (woken .recv) p' = 0 ∧ 1 ≤ sure k := by
      cases hp <;> exact ⟨rfl,by decide⟩
    simp only [weigh_cons] at hone
    intro h0
    rw [weigh_cons, hs, hp'.1] at h0
    omega
  | send =>
    have hs : weigh (sleeps (woken .recv)) rest' = weigh (sleeps (woken .recv)) rest :=
      hw.weigh_eq (fun p q h => by
        rcases woken_cases h with ⟨_,_,_,_,_,rfl,rfl⟩ | ⟨_,_,h0,_⟩
        · rfl
        · cases h0)
    refine hi.keep rfl ?_ ?_ <;> rw [weigh_cons, weigh_cons] <;> cases hp <;>
      simp [sleeps,woken,recv_wakes,hs,hwk]

theorem watched_step (hk : Handles s) (hw : Watched s.inner s.calls) (hstep : Step s e s') :
    Watched s'.inner s'.calls := by
  cases step_moves hstep with
  | move hm =>
    cases hm with
    | send hm => exact watched_send hw hm
    | recv hm => exact watched_recv hk hm
    | drop hm => exact watched_drop hw hm
  | wake hp hwake => exact watched_wake hk hw hp hwake
  | spurious hq =>
    rcases woken_cases hq with ⟨_,_,_,_,_,rfl,rfl⟩ | ⟨_,_,_,rfl,rfl⟩
    · exact hw.keep rfl (by simp [sleeps,woken]) (by simp [recv_wakes])
    · intro h0
      rw [weigh_cons, only_receiver hk rfl] at h0
      simp [sleeps,woken] at h0
  | exit hx =>
    refine hw.keep (exit_frame hx).2.1 ?_ ?_ <;> cases hx <;> simp [sleeps,woken,recv_wakes]
  | clone_sender => exact hw
  | _ => exact hw.keep rfl (by simp [sleeps,woken]) (by simp [recv_wakes])

end Watched

theorem watched_run (hrun : Steps Step mpsc h s) : Watched s.inner s.calls :=
  hrun.carries (fun _ s => Watched s.inner s.calls) (by simp [Watched,mpsc])
    (fun _ _ _ _ hr hw hs => watched_step (handles_run hr) hw hs)

/-- A receiver asleep on a word with `COMMIT` or `SENDER_DEAD` has a sender that
is about to wake it. -/
theorem receiver_not_missed (hrun : Steps Step mpsc h s) : ¬ (Asleep .recv s ∧
    (RecvStatus.commit s.inner.recv = true ∨ RecvStatus.dead s.inner.recv = true) ∧
    ∀ p ∈ s.calls, recv_wakes p = 0) := by
  rintro ⟨ha,hword,hwakes⟩
  rcases watched_run hrun ((asleep_iff .recv s).mp ha) with hs | hs
  · simp [hs] at hword
  · rw [weigh_eq_zero _ hwakes] at hs
    exact absurd hs (lt_irrefl 0)

/-- The receiver falls asleep, and a sender has committed and not woken it yet. -/
theorem receiver_not_missed_commit : ∃ (h : List (Event ℕ)) (s : State .x86_64 ℕ),
    Steps Step mpsc h s ∧ Asleep .recv s ∧ ¬ ∀ p ∈ s.calls, recv_wakes p = 0 := by
  obtain ⟨h,s,hr,ha,hc⟩ := reaches .x86_64
    ([Command.call_recv true]++List.replicate 35 (Command.act 0)++
      [Command.call_send 0 false 7]++List.replicate 4 (Command.act 1))
    (fun _ s => Asleep .recv s ∧ RecvStatus.commit s.inner.recv = true) (by decide +kernel)
  exact ⟨h,s,hr,ha,fun hw => receiver_not_missed hr ⟨ha,.inl hc,hw⟩⟩

theorem quiescent_quiet (hq : Quiescent s) : aborting s = 0 ∧ weigh wakes s.calls = 0 ∧
    weigh rearming s.calls = 0 ∧ weigh trying s.calls = 0 := by
  have hp : ∀ p ∈ s.calls, over_limit p = 0 ∧ wakes p = 0 ∧ rearming p = 0 ∧ trying p = 0 := by
    intro p hp
    have hsome : ∃ w q, woken w p = some q := by
      rcases hq p hp with hq | hq
      · exact ⟨_,_,(Option.isSome_iff_exists.mp hq).choose_spec⟩
      · exact ⟨_,_,(Option.isSome_iff_exists.mp hq).choose_spec⟩
    obtain ⟨w,q,hw⟩ := hsome
    rcases woken_cases hw with ⟨_,_,_,_,_,rfl,_⟩ | ⟨_,_,_,rfl,_⟩ <;> exact ⟨rfl,rfl,rfl,rfl⟩
  exact ⟨weigh_eq_zero _ (fun p h => (hp p h).1),weigh_eq_zero _ (fun p h => (hp p h).2.1),
    weigh_eq_zero _ (fun p h => (hp p h).2.2.1),weigh_eq_zero _ (fun p h => (hp p h).2.2.2)⟩

/-- While the receiver is there, no sender sleeps in a quiescent state whose
slot is free. -/
theorem no_sender_stranded (hrun : Steps Step mpsc h s) : ¬ (s.receiver = true ∧ Quiescent s ∧
    Asleep .send s ∧ reservations s.inner.send = 0) := by
  rintro ⟨hr,hq,ha,h0⟩
  obtain ⟨hab,hwk,hre,htr⟩ := quiescent_quiet hq
  obtain ⟨hcalm,-⟩ := calm_run hrun (by omega)
  have hopen := open_run hcalm
  have hdead : dead s.inner.send = false := by
    cases hd : dead s.inner.send
    · rfl
    · rw [OpenOrDead, hr, hd, Bool.toNat_true] at hopen
      omega
  have hbusy := (torch_run hcalm).1.busy ((asleep_iff .send s).mp ha)
    (by simp [torch,free,hdead,(reservations_eq_zero _).mp h0])
  simp only [torch, hwk, hre, htr] at hbusy
  exact absurd hbusy (lt_irrefl 0)

/-- A value is committed; one sender sleeps behind it, and another is about to. -/
def one_asleep : List (Command ℕ) :=
  [Command.clone_sender 0,Command.call_send 0 false 1]++List.replicate 5 (Command.act 0)++
    [Command.call_send 0 true 2]++List.replicate 36 (Command.act 0)++
    [Command.call_send 1 true 3]++List.replicate 3 (Command.act 1)

def two_asleep : List (Command ℕ) := one_asleep++[Command.act 1]

theorem no_sender_stranded_two : ∃ (h : List (Event ℕ)) (s : State .x86_64 ℕ),
    Steps Step mpsc h s ∧ Asleep .send s ∧ reservations s.inner.send ≠ 0 := by
  obtain ⟨h,s,hr,hl,hq,ha⟩ := reaches .x86_64 two_asleep
    (fun _ s => s.receiver = true ∧ Quiescent s ∧ Asleep .send s) (by decide +kernel)
  exact ⟨h,s,hr,ha,fun h0 => no_sender_stranded hr ⟨hl,hq,ha,h0⟩⟩

end Lockness.SlotSleep
