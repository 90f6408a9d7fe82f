import Lockness.BagSleep
import Lockness.BagWeak

/-!
# The bag under a weak memory is safe

The weak runs contain the runs of the channel, and its invariants hold in all of
them. No two accesses to a slot race, the allocation is freed after everything
else, no value is lost, and nobody sleeps on work.
-/

set_option autoImplicit false

namespace Lockness.BagMemory
open Lockness.PoolRuns Lockness.PoolFutex Lockness.PoolSlots Lockness.PoolOrder Lockness.PoolRaces
open Lockness.PoolArc Lockness.PoolThreads Lockness.PoolSchedule Lockness.BagMasks
open Lockness.BagMachine Lockness.BagMoves Lockness.BagInversion Lockness.BagHandles
open Lockness.BagBoard Lockness.BagOwnership Lockness.BagConservation Lockness.BagTorch
open Lockness.BagSleep Lockness.BagThreads Lockness.BagRaces Lockness.BagWeak
open Lockness.BagSchedule (Command reaches)

variable {T : Type*} {c : Target T} {h : List (Event T)} {s s' : Scene T} {e : Event T}

structure Sound (c : Target T) (h : List (Event T)) (s : Scene T) : Prop where
  handles : Handles h s.erase
  slots : PoolSlots.Inv (view h s.erase)
  torch : ∀ w, PoolTorch.Inv (torch w s.erase.inner s.erase.calls)
  settled : Settled c h s.inner
  traced : Traced c s

theorem sound_start : Sound c [] (start : Scene T) := by
  have hrun : Steps (BagMachine.Step c) mpmc [] (mpmc : State T) := .refl
  have herase : (start : Scene T).erase = mpmc := by simp [Scene.erase,start,mpmc]
  exact ⟨herase ▸ handles_start,herase ▸ slots_run hrun,herase ▸ torch_run hrun,settled_start,
    traced_start⟩

theorem sound_step (hs : Sound c h s) (hstep : WeakStep c s e s') : Sound c (h++[e]) s' := by
  obtain ⟨hk,hi,hw,hd,ht⟩ := hs
  have htraced := traced_step hk hi ht hstep
  rcases erase_step hk ht hstep with hone | ⟨rfl,hshown⟩
  · exact ⟨handles_step hk hone,hi.step (step_slots hk hone),
      fun w => (hw w).move (step_torch hk hone),settled_step hk hi hd hone,htraced⟩
  · have hstale := hshown.stale
    have hinner : s'.inner = s.inner := stale_inner hstale
    have hdropped : total dropped (h++[.tau]) = total dropped h := by
      rw [total_append]
      exact zero_add _
    refine ⟨handles_stale hk hstale,slots_stale hi hstale,
      fun w => (hw w).move (torch_stale hstale w),?_,htraced⟩
    rw [hinner]
    exact ⟨fun hf => hdropped.trans (hd.before hf),fun hf => hdropped ▸ hd.after hf⟩

theorem sound_run (hrun : Steps (WeakStep c) start h s) : Sound c h s :=
  hrun.carries (Sound c) sound_start (fun _ _ _ _ _ hs hstep => sound_step hs hstep)

section Contains

theorem lawful (c : Target T) : Lawful (program c) (marking c) := by
  refine ⟨put_self,fun m p x o m' p' e hl hc => ?_,fun m p x o m' e hl hc => ?_⟩
  · have hc : code c (put m x (word m x)) p = .go m' p' e :=
      (congrArg (code c · p) (put_self m x)).trans hc
    rw [(load_go hl hc).2.1, put_self]
  · obtain ⟨hp,rfl,-⟩ := load_exit hl hc
    have hf : freeing p ≠ 0 := by
      rcases hp with rfl | rfl <;> exact one_ne_zero
    rw [(free_exit hf hc).1]
    rfl

theorem weak_party (ht : Traced c s) {m' : Inner T} {calls : Multiset (Party T)}
    (hp : PartyStep (program c) s.inner s.erase.calls e m' calls) :
    ∃ s', WeakStep c s e s' ∧ s'.erase = { s.erase with inner := m', calls := calls } := by
  obtain ⟨τ,named,hstep,rfl⟩ := named_step (lawful c) ht.latest hp
  exact ⟨_,.party hstep,rfl⟩

theorem weak_step (hs : Sound c h s) {t : State T} (hstep : BagMachine.Step c s.erase e t) :
    ∃ s', WeakStep c s e s' ∧ s'.erase = t := by
  cases hstep with
  | party hp => exact weak_party hs.traced hp
  | call_send blocking data hx => exact ⟨_,.call_send blocking data hx,by simp [Scene.erase]⟩
  | call_recv blocking hx => exact ⟨_,.call_recv blocking hx,by simp [Scene.erase]⟩
  | clone_sender hx hc => exact ⟨_,.clone_sender hx hc,rfl⟩
  | clone_sender_panic hx hc => exact ⟨_,.clone_sender_panic hx hc,rfl⟩
  | clone_receiver hx hc => exact ⟨_,.clone_receiver hx hc,rfl⟩
  | drop_sender hd hfree =>
    refine ⟨_,.drop_sender hd (fun q hq => hfree q.2 (Multiset.mem_map_of_mem _ hq)),?_⟩
    simp [Scene.erase]
  | drop_receiver hd hfree =>
    refine ⟨_,.drop_receiver hd (fun q hq => hfree q.2 (Multiset.mem_map_of_mem _ hq)),?_⟩
    simp [Scene.erase]

/-- So every run of the channel is a weak run without its trace. -/
theorem weak_of_run {t : State T} (hrun : Steps (BagMachine.Step c) mpmc h t) :
    ∃ s, Steps (WeakStep c) start h s ∧ s.erase = t := by
  induction hrun with
  | refl => exact ⟨start,.refl,by simp [Scene.erase,start,mpmc]⟩
  | next _ hone ih =>
    obtain ⟨s,hs,rfl⟩ := ih
    obtain ⟨s',hs',rfl⟩ := weak_step (sound_run hs) hone
    exact ⟨s',.next hs hs',rfl⟩

end Contains

section Safety

/-- Whatever old words the calls are shown, any two accesses to one slot are ordered. -/
theorem slots_race_free (hrun : Steps (WeakStep c) start h s) : RaceFree s.trace :=
  (sound_run hrun).traced.raced

def slot_reused : List (Command ℕ) :=
  [Command.call_send 0 false (.value 7)]++List.replicate 4 (Command.act 0)++
    [Command.call_recv 0 false]++List.replicate 4 (Command.act 0)++
    [Command.call_send 0 false (.value 8)]++List.replicate 4 (Command.act 0)++
    [Command.call_recv 0 false]++List.replicate 4 (Command.act 0)

theorem slots_race_free_reused : ∃ (h : List (Event ℕ)) (s : Scene ℕ),
    Steps (WeakStep .release) start h s ∧ .received 2 (.ok [7]) ∈ h ∧
      .received 4 (.ok [8]) ∈ h ∧ RaceFree s.trace := by
  obtain ⟨h,t,hr,h1,h2⟩ := reaches (c := .release) slot_reused
    (fun h _ => .received 2 (.ok [7]) ∈ h ∧ .received 4 (.ok [8]) ∈ h) (by decide +kernel)
  obtain ⟨s,hs,-⟩ := weak_of_run hr
  exact ⟨h,s,hs,h1,h2,slots_race_free hs⟩

/-- The allocation is freed once nobody is left, and all that anybody has done to it
happens before. -/
theorem freed_last (hrun : Steps (WeakStep c) start h s) :
    (∀ j t, At s.trace j t .free → s.senders = 0 ∧ s.receivers = 0 ∧ s.calls = 0 ∧
      ∀ i < s.trace.length, i ≠ j → Before s.trace i j) ∧
    (s.senders = 0 → s.receivers = 0 → s.calls = 0 → ∃ j t, At s.trace j t .free) := by
  obtain ⟨hk,-,-,-,ht⟩ := sound_run hrun
  refine ⟨fun j t hj => ?_,fun hs hr hc => ?_⟩
  · obtain ⟨hf,hbefore⟩ := ht.ended j t hj
    obtain ⟨hs,hr,hc⟩ := freed_empty hk hf
    exact ⟨hs,hr,Multiset.map_eq_zero.mp hc,hbefore⟩
  · exact ht.freed (empty_freed hk hs hr (by simp [Scene.erase,hc]))

/-- The last handle frees the allocation after a value was left in it. -/
theorem freed_last_undelivered : ∃ (h : List (Event ℕ)) (s : Scene ℕ),
    Steps (WeakStep .release) start h s ∧ .dropped [3] ∈ h ∧
      ∃ j t, At s.trace j t .free ∧ ∀ i < s.trace.length, i ≠ j → Before s.trace i j := by
  obtain ⟨h,t,hr,hd,h1,h2,h3⟩ := reaches (c := .release) two_of_three
    (fun h s => .dropped [3] ∈ h ∧ s.senders = 0 ∧ s.receivers = 0 ∧ s.calls.card = 0)
      (by decide +kernel)
  obtain ⟨s,hs,rfl⟩ := weak_of_run hr
  have hlast := freed_last hs
  have hcalls : s.calls = 0 := by simpa [Scene.erase] using h3
  obtain ⟨j,t,hj⟩ := hlast.2 h1 h2 hcalls
  exact ⟨h,s,hs,hd,j,t,hj,(hlast.1 j t hj).2.2.2⟩

/-- No call is about to do something undefined, whichever word it is shown. -/
theorem weak_defined (hs : Sound c h s) {q : Thread Handle × Party T} (hq : q ∈ s.calls) :
    code c s.inner q.2 ≠ .ub ∧ ∀ x o g v, loads q.2 = some (x,o) → Readable s.trace q.1 x g v →
      code c (put s.inner x v) q.2 ≠ .ub := by
  obtain ⟨hk,hi,-,-,ht⟩ := hs
  have hnow : code c s.inner q.2 ≠ .ub := no_ub hk hi (Multiset.mem_map_of_mem _ hq)
  refine ⟨hnow,fun x o g v hl hr => ?_⟩
  obtain ⟨t,p⟩ := q
  cases p with
  | send id b y pc =>
    cases pc with
    | spin => simp [code,send_code]
    | _ => cases hl
  | recv id b y pc =>
    cases pc with
    | spin => simp [code,recv_code]
    | _ => cases hl
  | drop_sender pc | drop_receiver pc =>
    cases pc with
    | free =>
      obtain ⟨rfl,-⟩ := Prod.mk.inj (Option.some.inj hl)
      have hv : v = word s.inner .recv := hr.latest (ht.latest .recv) (ht.last _ hq one_ne_zero)
      rw [hv, put_self]
      exact hnow
    | _ => cases hl

end Safety

section Sleep

theorem sound_asleep (hs : Sound c h s) (hq : Quiescent s.erase) {w : Futex}
    (ha : Asleep w s.erase) : armed s.inner w = true ∧ work s.inner w = false := by
  obtain ⟨hw,hr,hy⟩ := quiescent_torch hq w
  have hpos := (asleep_iff w s.erase).mp ha
  have hlit := (hs.torch w).lit hpos
  have hbusy := (hs.torch w).busy hpos
  simp only [torch, hw, hr, hy] at hlit hbusy
  have hboth : armed s.erase.inner w = true ∧ work s.erase.inner w = false := by
    simpa using And.intro hlit hbusy
  exact hboth

theorem sound_ready (hs : Sound c h s) (hq : Quiescent s.erase) (hr : s.receivers ≠ 0) :
    slots (N := 30) s.inner.recv = slots s.inner.send := by
  refine hs.slots.ready_subset.antisymm (fun i hi => ?_)
  rcases owner_of_taken hs.slots (open_of_receiver hs.handles hr) hi with hready | ⟨p,hp,hown⟩
  · exact hready
  · obtain ⟨-,-,-,hidle⟩ := sleeper_weights (hq p hp) .send
    simp [reserving,claiming,hidle,Footprint.idle] at hown

theorem asleep_receiver (hs : Sound c h s) (ha : Asleep .recv s.erase) : s.receivers ≠ 0 := by
  obtain ⟨p,hp,hsome⟩ := ha
  obtain ⟨q,hw⟩ := Option.isSome_iff_exists.mp hsome
  rcases woken_cases hw with ⟨_,_,_,_,h0,-⟩ | ⟨_,_,x,-,rfl,-⟩
  · cases h0
  · intro h0
    have hmem : x ∈ s.receivers := hs.handles.receiver _ hp x rfl
    simp [h0] at hmem

/-- A spin loop may end on an old word, but nobody falls asleep on one: once all calls
sleep, no receiver does so beside a ready value, nor both sides together. -/
theorem weak_sleep (hrun : Steps (WeakStep c) start h s) (hq : Quiescent s.erase) :
    ¬ (Asleep .recv s.erase ∧ (slots (N := 30) s.inner.recv).Nonempty) ∧
    ¬ (Asleep .send s.erase ∧ Asleep .recv s.erase) ∧
    (s.receivers ≠ 0 → Asleep .send s.erase →
      sleeping s.inner.send = true ∧ (slots (N := 30) s.inner.recv).Nonempty) := by
  have hs := sound_run hrun
  have hsend (hr : s.receivers ≠ 0) (ha : Asleep .send s.erase) :
      sleeping s.inner.send = true ∧ (slots (N := 30) s.inner.recv).Nonempty := by
    obtain ⟨harmed,hwork⟩ := sound_asleep hs hq ha
    refine ⟨harmed,?_⟩
    rw [sound_ready hs hq hr, Finset.nonempty_iff_ne_empty]
    simpa [work] using hwork
  have hrecv (ha : Asleep .recv s.erase) : ¬ (slots (N := 30) s.inner.recv).Nonempty := by
    obtain ⟨-,hwork⟩ := sound_asleep hs hq ha
    simpa [work] using hwork
  refine ⟨?_,?_,hsend⟩
  · rintro ⟨ha,hne⟩
    exact hrecv ha hne
  · rintro ⟨ha,hb⟩
    exact hrecv hb (hsend (asleep_receiver hs hb) ha).2

theorem weak_sleep_receiver : ∃ (h : List (Event ℕ)) (s : Scene ℕ),
    Steps (WeakStep .release) start h s ∧ Asleep .recv s.erase ∧
      slots (N := 30) s.inner.recv = ∅ ∧ ¬ Asleep .send s.erase := by
  obtain ⟨h,t,hr,hq,ha⟩ := reaches (c := .release) receiver_asleep
    (fun _ s => Quiescent s ∧ Asleep .recv s) (by decide +kernel)
  obtain ⟨s,hs,rfl⟩ := weak_of_run hr
  obtain ⟨h1,h2,-⟩ := weak_sleep hs hq
  exact ⟨h,s,hs,ha,Finset.not_nonempty_iff_eq_empty.mp (fun hne => h1 ⟨ha,hne⟩),
    fun hb => h2 ⟨hb,ha⟩⟩

end Sleep

end Lockness.BagMemory
