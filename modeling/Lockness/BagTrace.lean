import Lockness.BagAttempt
import Lockness.BagFinality

/-!
# Which call takes a step

The steps of the channel do not say whose they are. A traced run does: each of
its marks names the call that acts and the memory it meets. Every run has a
trace, and what one call does along it is a run of that call alone.
-/

set_option autoImplicit false

namespace Lockness.BagTrace
open Lockness.PoolRuns Lockness.PoolFutex Lockness.PoolNumbers Lockness.BagMasks
open Lockness.BagMachine Lockness.BagMoves Lockness.BagInversion Lockness.BagHandles
open Lockness.BagNumbers Lockness.BagAttempt

variable {T : Type*}

inductive Acts (c : Target T) (s : State T) : Party T → State T → Prop
  | go {p p' : Party T} {m' : Inner T} {e : Event T} {rest : Multiset (Party T)} :
      s.calls = p ::ₘ rest → code c s.inner p = .go m' p' e →
      Acts c s p { s with inner := m', calls := p' ::ₘ rest }
  | wake {p p' : Party T} {w : Futex} {n : ℕ} {rest rest' : Multiset (Party T)} :
      s.calls = p ::ₘ rest → code c s.inner p = .wake w n p' → Wake (woken w) n rest rest' →
      Acts c s p { s with calls := p' ::ₘ rest' }
  | exit {p : Party T} {m' : Inner T} {e : Event T} {rest : Multiset (Party T)} :
      s.calls = p ::ₘ rest → code c s.inner p = .exit m' e →
      Acts c s p { s with inner := m', calls := rest }

/-- The event of a step, and the call that takes it with the memory it meets. -/
abbrev Mark (T : Type*) := Event T × Option (Inner T × Party T)

inductive Traced (c : Target T) : State T → Mark T → State T → Prop
  | acts {s t : State T} {e : Event T} {p : Party T} : Step c s e t → Acts c s p t →
      Traced c s (e,some (s.inner,p)) t
  | other {s t : State T} {e : Event T} : Step c s e t → (∀ p, ¬ Acts c s p t) →
      Traced c s (e,none) t

variable {c : Target T} {h : List (Event T)} {s t : State T} {e : Event T} {x : Mark T}
  {l : List (Mark T)} {p q : Party T} {n : ℕ}

theorem Traced.step (hx : Traced c s x t) : Step c s x.1 t := by
  cases hx with
  | acts hs => exact hs
  | other hs => exact hs

theorem traced_exists (hs : Step c s e t) : ∃ a, Traced c s (e,a) t := by
  by_cases ha : ∃ p, Acts c s p t
  · obtain ⟨p,hp⟩ := ha
    exact ⟨_,.acts hs hp⟩
  · exact ⟨none,.other hs (not_exists.mp ha)⟩

theorem trace_exists (hrun : Steps (Step c) s h t) :
    ∃ l : List (Mark T), l.map Prod.fst = h ∧ Steps (Traced c) s l t := by
  induction hrun with
  | refl => exact ⟨[],rfl,.refl⟩
  | next _ hs ih =>
    obtain ⟨l,rfl,hl⟩ := ih
    obtain ⟨a,ha⟩ := traced_exists hs
    exact ⟨l++[(_,a)],by simp,hl.next ha⟩

theorem Traced.run (hrun : Steps (Traced c) s l t) : Steps (Step c) s (l.map Prod.fst) t := by
  induction hrun with
  | refl => exact .refl
  | next _ hx ih =>
    rw [List.map_append]
    exact ih.next hx.step

section Calls

def flying (n : ℕ) (p : Party T) : ℕ := if call p = some n then 1 else 0

theorem flying_none (hn : Numbered opening call h s.calls s.next) (hle : s.next ≤ n) :
    weigh (flying n) s.calls = 0 := by
  refine weigh_eq_zero _ (fun p hp => if_neg (fun hcall => ?_))
  have := hn.calls p hp n hcall
  omega

theorem flying_call (hp : call q = call p) : flying n q = flying n p := by
  rw [flying, flying, hp]

theorem flying_party {m m' : Inner T} {cs cs' : Multiset (Party T)} (hok : ∀ p ∈ cs, Ok p)
    (hp : PartyStep (program c) m cs e m' cs') : weigh (flying n) cs' ≤ weigh (flying n) cs := by
  cases hp with
  | go hc =>
    rw [weigh_cons, weigh_cons, flying_call (move_call (code_moves (hok _ (by simp)) hc))]
  | wake hc hw =>
    rw [weigh_cons, weigh_cons, flying_call (waking_call (code_wakes hc)),
      hw.weigh_eq (fun p q hpq => flying_call (woken_call hpq))]
  | spurious hw => rw [weigh_cons, weigh_cons, flying_call (woken_call hw)]
  | exit hc =>
    rw [weigh_cons]
    exact Nat.le_add_left _ _

theorem flying_step (hk : Handles h s) (hn : Numbered opening call h s.calls s.next)
    (hs : Step c s e t)
    (hone : ∀ n, weigh (flying n) s.calls ≤ 1) (n : ℕ) : weigh (flying n) t.calls ≤ 1 := by
  have hopen {p : Party T} (hp : call p = some s.next) :
      weigh (flying n) (p ::ₘ s.calls) ≤ 1 := by
    rw [weigh_cons, flying, hp]
    split_ifs with hns
    · rw [Option.some.injEq] at hns
      rw [flying_none hn (by omega)]
    · have := hone n
      omega
  have hcons {p : Party T} (hp : call p = none) : weigh (flying n) (p ::ₘ s.calls) ≤ 1 := by
    rw [weigh_cons, flying, hp, if_neg (by simp), zero_add]
    exact hone n
  cases hs with
  | party hp => exact (flying_party hk.ok hp).trans (hone n)
  | call_send => exact hopen rfl
  | call_recv => exact hopen rfl
  | drop_sender => exact hcons rfl
  | drop_receiver => exact hcons rfl
  | _ => exact hone n

theorem flying_run (hrun : Steps (Step c) mpmc h s) (n : ℕ) : weigh (flying n) s.calls ≤ 1 := by
  have hall := hrun.carries (fun _ (s : State T) => ∀ n, weigh (flying n) s.calls ≤ 1)
    (fun n => by simp [mpmc])
    (fun _ _ _ _ hr hi hs => flying_step (handles_run hr) (numbered_run hr) hs hi)
  exact hall n

theorem flying_rest (hrun : Steps (Step c) mpmc h s) {rest : Multiset (Party T)}
    (hs : s.calls = p ::ₘ rest) (hp : call p = some n) : ∀ q ∈ rest, call q ≠ some n := by
  have hle := flying_run hrun n
  rw [hs, weigh_cons, flying, if_pos hp] at hle
  intro q hq hcall
  have := (weigh_eq_zero_iff (flying n) rest).mp (by omega) q hq
  rw [flying, if_pos hcall] at this
  omega

theorem acts_own (hrun : Steps (Step c) mpmc h s) (ha : Acts c s p t) (hp : call p = some n)
    (hq : q ∈ t.calls) (hcall : call q = some n) :
    ∃ e, Own c p ⟨s.inner,e,t.inner⟩ q ∧
      ((∃ w j, code c s.inner p = .wake w j q ∧ t.inner = s.inner) ∨
      code c s.inner p = .go t.inner q e) := by
  cases ha with
  | go hs hc =>
    rcases Multiset.mem_cons.mp hq with rfl | hq
    · exact ⟨_,.go hc,.inr hc⟩
    · exact absurd hcall (flying_rest hrun hs hp q hq)
  | wake hs hc hw =>
    rcases Multiset.mem_cons.mp hq with rfl | hq
    · exact ⟨_,.wake hc,.inl ⟨_,_,hc,rfl⟩⟩
    · have := hw.forall_mem (Q := fun q => call q ≠ some n)
        (fun p q hpq hne => by rwa [woken_call hpq]) (flying_rest hrun hs hp) q hq
      exact absurd hcall this
  | exit hs => exact absurd hcall (flying_rest hrun hs hp q hq)

theorem acts_other (ha : Acts c s p t) (hok : Ok p) (hp : call p ≠ some n) (hq : q ∈ t.calls)
    (hcall : call q = some n) : ∃ r ∈ s.calls, r = q ∨ ∃ w, woken w r = some q := by
  cases ha with
  | go hs hc =>
    rcases Multiset.mem_cons.mp hq with rfl | hq
    · exact absurd ((move_call (code_moves hok hc)).symm.trans hcall) hp
    · exact ⟨q,by simp [hs,hq],.inl rfl⟩
  | wake hs hc hw =>
    rcases Multiset.mem_cons.mp hq with rfl | hq
    · exact absurd ((waking_call (code_wakes hc)).symm.trans hcall) hp
    · have := hw.forall_mem (Q := fun q => ∃ r ∈ s.calls, r = q ∨ ∃ w, woken w r = some q) ?_
        (fun r hr => ⟨r,by simp [hs,hr],.inl rfl⟩) q hq
      · exact this
      · rintro p q hpq ⟨r,hr,rfl | ⟨w',hw'⟩⟩
        · exact ⟨_,hr,.inr ⟨_,hpq⟩⟩
        · rw [woken_awake hw'] at hpq
          cases hpq
  | exit hs => exact ⟨q,by simp [hs,hq],.inl rfl⟩

theorem idle_step (hs : Step c s e t) (ha : ∀ p, ¬ Acts c s p t) :
    t.inner.send = s.inner.send ∧ (n < s.next → ∀ q ∈ t.calls, call q = some n →
      ∃ r ∈ s.calls, r = q ∨ ∃ w, woken w r = some q) := by
  have hself {q : Party T} (hq : q ∈ s.calls) : ∃ r ∈ s.calls, r = q ∨ ∃ w, woken w r = some q :=
    ⟨q,hq,.inl rfl⟩
  have hopen {p : Party T} (hp : call p ≠ some n) : ∀ q ∈ p ::ₘ s.calls, call q = some n →
      ∃ r ∈ s.calls, r = q ∨ ∃ w, woken w r = some q := by
    intro q hq hcall
    rcases Multiset.mem_cons.mp hq with rfl | hq
    · exact absurd hcall hp
    · exact hself hq
  cases hs with
  | party hp =>
    generalize hcalls : s.calls = cs at hp
    cases hp with
    | go hc => exact absurd (.go hcalls hc) (ha _)
    | wake hc hw => exact absurd (.wake hcalls hc hw) (ha _)
    | exit hc => exact absurd (.exit hcalls hc) (ha _)
    | spurious hw =>
      refine ⟨rfl,fun _ q hq _ => ?_⟩
      rcases Multiset.mem_cons.mp hq with rfl | hq
      · exact ⟨_,Multiset.mem_cons_self _ _,.inr ⟨_,hw⟩⟩
      · exact ⟨q,Multiset.mem_cons_of_mem hq,.inl rfl⟩
  | call_send => exact ⟨rfl,fun hn => hopen (fun hcall => hn.ne' (Option.some.inj hcall))⟩
  | call_recv => exact ⟨rfl,fun hn => hopen (fun hcall => hn.ne' (Option.some.inj hcall))⟩
  | clone_sender _ hc =>
    obtain ⟨-,-,rfl⟩ := clone_sender_ok hc
    exact ⟨rfl,fun _ q hq _ => hself hq⟩
  | clone_sender_panic _ hc =>
    obtain ⟨-,rfl⟩ := clone_sender_panics hc
    exact ⟨rfl,fun _ q hq _ => hself hq⟩
  | clone_receiver _ hc =>
    obtain ⟨-,rfl⟩ := clone_receiver_ok hc
    exact ⟨rfl,fun _ q hq _ => hself hq⟩
  | drop_sender => exact ⟨rfl,fun _ => hopen (by simp [call])⟩
  | drop_receiver => exact ⟨rfl,fun _ => hopen (by simp [call])⟩

end Calls

end Lockness.BagTrace
