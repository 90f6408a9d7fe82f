import Lockness.SlotFinality
import Lockness.SlotRest
import Lockness.SlotWeak

/-!
# The slot under a weak memory is safe

The weak runs contain the runs of the channel, and its invariants hold in all of
them while few enough senders are in flight. No two accesses to the cell race, the
allocation is freed after everything else, the receiver gets the values in order,
and nobody sleeps on work.
-/

set_option autoImplicit false

namespace Lockness.SlotMemory
open Lockness.PoolRuns Lockness.PoolFutex Lockness.PoolSlots Lockness.PoolOrder Lockness.PoolRaces
open Lockness.PoolArc Lockness.PoolThreads Lockness.SlotWords Lockness.SlotWords.SendStatus
open Lockness.SlotMachine Lockness.SlotMoves Lockness.SlotAttempts Lockness.SlotHandles
open Lockness.SlotBoard Lockness.SlotPipeline Lockness.SlotDelivery Lockness.SlotTorch
open Lockness.SlotSleep Lockness.SlotFinality Lockness.SlotRest Lockness.SlotThreads
open Lockness.SlotRaces Lockness.SlotWeak
open Lockness.SlotSchedule (Command reaches)

variable {c : Target} {T : Type*} {h : List (Event T)} {e : Event T}

section Kept

variable {s s' : State c T}

structure Kept (h : List (Event T)) (s : State c T) : Prop where
  counted : Counted s
  handles : Handles s
  opened : OpenOrDead s
  slots : PoolSlots.Inv (view h s)
  pipeline : Pipeline h s
  accounted : .abort ∉ h → (gather given h : Multiset T) =
    gather reserved h+gather handed_back h+weigh waiting s.calls
  dropped : gather dropped h =
    if s.inner.freed && RecvStatus.commit s.inner.recv then s.inner.slot.toList else []
  torch : PoolTorch.Inv (torch s.inner s.calls)
  claimed : Claimed s.inner s.calls
  watched : Watched s.inner s.calls
  seen : Seen h s → Over s

theorem kept_start : Kept [] (mpsc : State c T) := by
  have hrun : Steps CalmStep (mpsc : State c T) [] mpsc := .refl
  exact ⟨fun _ => by simp [mpsc],handles_start,open_run hrun,slots_run hrun,pipeline_run hrun,
    fun _ => rfl,rfl,(torch_run hrun).1,(torch_run hrun).2,watched_run .refl,seen_run .refl⟩

theorem kept_step (hs : Kept h s) (hcalm : Calm s) (hstep : Step s e s') : Kept (h++[e]) s' := by
  obtain ⟨hn,hk,ho,hi,hp,ha,hd,hw,hcl,hwt,hseen⟩ := hs
  refine ⟨counted_step hn hcalm hstep,handles_step hk hstep,open_step hk ho ⟨hstep,hcalm⟩,
    slots_step hk ho hi ⟨hstep,hcalm⟩,pipeline_step hk hi hp hstep,
    (step_accounted hstep).append ha,dropped_step hk hd hstep,
    hw.move (step_torch hk ho hcl ⟨hstep,hcalm⟩),claimed_step hcl ⟨hstep,hcalm⟩,
    watched_step hk hwt hstep,fun hs' => ?_⟩
  by_cases hs : Seen h s
  · exact over_step hk (hseen hs) hstep
  · exact seen_step hk hs hstep hs'

theorem over_stale (ho : Over s) (hstale : Stale s s') : Over s' := by
  cases hstale with
  | @intro p p' rest hc hi hok =>
    refine ⟨ho.flag,ho.empty,fun q hq => ?_⟩
    rcases Multiset.mem_cons.mp hq with rfl | hq
    · cases hi <;> rfl
    · exact ho.idle q (by simp [hc,hq])

theorem seen_stale (hseen : Seen (h++[.tau]) s') (hstale : Stale s s') : Seen h s := by
  refine hseen.imp (fun hr => by simpa using hr) ?_
  rintro ⟨q,hq,hr⟩
  cases hstale with
  | @intro p p' rest hc hi hok =>
    rcases Multiset.mem_cons.mp hq with rfl | hq
    · obtain ⟨id,b,r,rfl,hend⟩ := hr
      cases hi
      cases hend
    · exact ⟨q,by simp [hc,hq],hr⟩

theorem kept_stale (hs : Kept h s) (hstale : Stale s s') : Kept (h++[.tau]) s' := by
  obtain ⟨hn,hk,ho,hi,hp,ha,hd,hw,hcl,hwt,hseen⟩ := hs
  have hinner := hstale.inner
  have hwait := hstale.weigh (f := waiting) (fun p p' hi => by cases hi <;> rfl)
  refine ⟨counted_stale hn hstale,handles_stale hk hstale,open_stale ho hstale,
    slots_stale hi hstale,pipeline_stale hp hstale,Accounted.append (fun _ => ?_) ha,?_,
    hw.move (torch_stale hstale),fun h1 h2 => ?_,?_,
    fun hs' => over_stale (hseen (seen_stale hs' hstale)) hstale⟩
  · simp [given,SlotBoard.reserved,handed_back,hwait]
  · rw [gather_append, hd, hinner]
    exact List.append_nil _
  · rw [hinner] at h1 h2
    exact (hcl h1 h2).trans_le (trying_stale hstale)
  · exact hwt.keep (by rw [hinner]) (hstale.weigh (fun p p' hi => by cases hi <;> rfl))
      (hstale.weigh (fun p p' hi => by cases hi <;> rfl)).ge

end Kept

section Sound

variable {s s' : Scene c T} {p p' : Party c T} {t : Thread Handle}
  {rest : Multiset (Thread Handle × Party c T)}

structure Sound (h : List (Event T)) (s : Scene c T) : Prop where
  kept : Kept h s.erase
  traced : Traced s
  told : s.inner.freed = false → Told s.trace s.inner
  follows : Follows s.trace s.calls

theorem aborting_erase (s : Scene c T) :
    aborting s.erase = weigh (fun q => over_limit q.2) s.calls := weigh_map _ _ _

theorem loads_over_limit {l : Atomic × MemOrder} (hl : loads p = some l) : over_limit p = 0 := by
  cases p with
  | send id b x pc => cases pc <;> first | rfl | cases hl
  | _ => rfl

theorem weak_aborting (hstep : WeakStep s e s') : aborting s.erase ≤ aborting s'.erase := by
  cases hstep with
  | party hp =>
    rcases hp.erase with hp | hload
    · exact aborting_step (Step.party (s := s.erase) hp)
    rw [aborting_erase, aborting_erase]
    generalize hcalls : s.calls = cs at hload
    cases hload with
    | go hl | exit hl =>
      simp only [weigh_cons, loads_over_limit hl]
      omega
  | clone_sender => exact le_rfl
  | _ => simp [aborting_erase]

theorem weak_unfreed (hk : Handles s.erase) (hstep : WeakStep s e s') : s.inner.freed = false := by
  cases hstep with
  | party hp =>
    generalize hcalls : s.calls = cs at hp
    cases hp <;> exact unfreed_of_call hk (hcalls ▸ Multiset.mem_cons_self _ _)
  | @call_send x _ _ hx => exact unfreed_of_alive hk (x := .sender x) hx
  | call_recv _ hr => exact unfreed_of_alive hk (x := .receiver) hr
  | @clone_sender x _ hx => exact unfreed_of_alive hk (x := .sender x) hx
  | @drop_sender x _ hs => exact unfreed_of_alive hk (x := .sender x) (by simp [alive,hs])
  | drop_receiver hr => exact unfreed_of_alive hk (x := .receiver) hr

theorem told_step (hs : Kept h s.erase) (hcalm : Calm s.erase) (ht : Traced s)
    (htold : Told s.trace s.inner) (hstep : WeakStep s e s') (ht' : Traced s')
    (hf' : s'.inner.freed = false) : Told s'.trace s'.inner := by
  have hpark (hc : RecvStatus.commit s'.inner.recv = true) : Parked s'.trace () .recv :=
    (ht'.settled hf').parked () .recv (.committed hc)
  cases hstep with
  | party hp =>
    generalize hcalls : s.calls = cs at hp
    cases hp with
    | @go _ t p p' _ _ hl hc =>
      have herase := erase_cons hcalls
      have hfit : Fits t p := ht.fits (t,p) (by simp [hcalls])
      refine htold.marks (move_tells (n := s.next) (herase ▸ hs.handles) (herase ▸ hs.opened)
        (herase ▸ hs.slots) hcalm hfit hl (code_moves hc)) hpark
    | exit hl hc =>
      cases code_exits hc with
      | send | recv =>
        simpa [marking,actions,send_actions,recv_actions,marks] using htold
      | sender_release | receiver_release =>
        refine htold.marks (tells_quiet ?_ ?_ ?_ ⟨rfl,rfl⟩) hpark <;>
          simp [marking,actions,drop_sender_actions,drop_receiver_actions,release_actions]
      | sender_free | receiver_free => cases hl
    | @load_go _ t p _ _ _ y o g v hl hr hc =>
      obtain ⟨hp,rfl,-⟩ := load_go hl hc
      simp only [marking, put_word, hp.silent, marks, List.map_nil, List.append_nil] at hpark ⊢
      exact htold.marks (t := t) (l := [.load y o g])
        (tells_quiet (by simp) (by simp) (by simp) ⟨rfl,rfl⟩) hpark
    | load_exit hl hr hc =>
      obtain ⟨-,rfl,-,-,-,rfl,-⟩ := free_reads ht hcalls hl hr hc
      simp [marking,put,word] at hf'
    | wake | spurious => exact htold
  | @clone_sender x m hx hc =>
    obtain ⟨-,rfl⟩ := clone_sender_ok hc
    exact htold.marks (tells_quiet (by simp) (by simp) (by simp) ⟨rfl,rfl⟩) hpark
  | call_send | call_recv | drop_sender | drop_receiver =>
    exact htold.marks (l := [.join _]) (tells_quiet (by simp) (by simp) (by simp) ⟨rfl,rfl⟩) hpark

theorem follows_marks {τ : Trace (Thread Handle) Atomic Unit (Value c)} {l : List (Access c)}
    {calls : Multiset (Thread Handle × Party c T)} (hk : Handles s.erase) (hfit : Fits t p)
    (hc : s.calls = (t,p) ::ₘ rest) (hf : Follows τ s.calls)
    (hsub : ∀ q ∈ calls, q ∈ rest ∨ q.1 = t ∧ q.2.receives = p.receives) :
    Follows (τ++marks t l) calls := by
  refine hf.marks (fun q hq hr => ?_) (fun hown q hq hr => ?_)
  · rcases hsub q hq with hq | ⟨hname,hsame⟩
    · exact ⟨q,by simp [hc,hq],rfl,hr⟩
    · exact ⟨(t,p),by simp [hc],hname.symm,hsame ▸ hr⟩
  · rcases hsub q hq with hq | ⟨hname,-⟩
    · -- only one receive runs at a time
      have hp : receiving p = 1 := by
        have := Fits.hears hfit hown
        cases p <;> first | rfl | cases this
      have hle := le_weigh receiving (Multiset.mem_map_of_mem Prod.snd hq)
      have hone := (receiver_held (erase_cons hc ▸ hk) hp).2
      have hq1 : receiving q.2 = 1 := by
        obtain ⟨u,q⟩ := q
        cases q <;> first | rfl | cases hr
      omega
    · exact hname

theorem Follows.same {τ : Trace (Thread Handle) Atomic Unit (Value c)}
    {calls calls' : Multiset (Thread Handle × Party c T)} (hf : Follows τ calls)
    (hmap : calls'.map (fun q => (q.1,q.2.receives)) = calls.map (fun q => (q.1,q.2.receives))) :
    Follows τ calls' := by
  intro q hq hr
  have hq := Multiset.mem_map_of_mem (fun q => (q.1,q.2.receives)) hq
  rw [hmap] at hq
  obtain ⟨q',hq',heq⟩ := Multiset.mem_map.mp hq
  obtain ⟨h1,h2⟩ := Prod.mk.inj heq
  exact h1 ▸ hf q' hq' (h2.trans hr)

theorem move_receives {m m' : Inner c T} (hm : PartyMove m p m' p' e) :
    p'.receives = p.receives := by
  cases hm with
  | drop hm => cases hm <;> rfl
  | _ => rfl

theorem woken_receives {w : Futex} (hw : woken w p = some p') : p'.receives = p.receives := by
  rcases woken_cases hw with ⟨_,_,_,_,_,rfl,rfl⟩ | ⟨_,_,_,rfl,rfl⟩ <;> rfl

theorem waking_receives {w : Futex} {n : ℕ} (hw : Waking p w n p') :
    p'.receives = p.receives := by
  cases hw <;> rfl

theorem mem_goes (hp : p'.receives = p.receives) :
    ∀ q ∈ (t,p') ::ₘ rest, q ∈ rest ∨ q.1 = t ∧ q.2.receives = p.receives := by
  intro q hq
  rcases Multiset.mem_cons.mp hq with rfl | hq
  · exact .inr ⟨rfl,hp⟩
  · exact .inl hq

theorem sender_unbound (x n : ℕ) : .call (.sender x) n ∉ bound Handle.receiver ∧
    .clone (.sender x) (.sender n) ∉ bound Handle.receiver := by
  constructor <;> rintro ((h | ⟨_,h⟩) | ⟨_,h⟩ | ⟨_,h⟩ | ⟨_,h⟩) <;> cases h

theorem drop_unbound (x : Handle) : .drop x ∉ bound Handle.receiver := by
  rintro ((h | ⟨_,h⟩) | ⟨_,h⟩ | ⟨_,h⟩ | ⟨_,h⟩) <;> cases h

theorem follows_party (hk : Handles s.erase) (ht : Traced s) (hf : Follows s.trace s.calls)
    {m' : Inner c T} {τ : Trace (Thread Handle) Atomic Unit (Value c)}
    {calls : Multiset (Thread Handle × Party c T)}
    (hp : ThreadStep (program c T) (marking c T) s.trace s.inner s.calls e τ m' calls) :
    Follows τ calls := by
  generalize hcalls : s.calls = cs at hp
  have hfit {t : Thread Handle} {p : Party c T} {rest : Multiset (Thread Handle × Party c T)}
      (hc : s.calls = (t,p) ::ₘ rest) : Fits t p := ht.fits (t,p) (by simp [hc])
  cases hp with
  | go hl hc =>
    exact follows_marks hk (hfit hcalls) hcalls hf (mem_goes (move_receives (code_moves hc)))
  | exit hl hc => exact follows_marks hk (hfit hcalls) hcalls hf (fun q hq => .inl hq)
  | @load_go _ t p p' _ _ y o g v hl hr hc =>
    obtain ⟨hp,rfl,-⟩ := load_go hl hc
    have hloaded := follows_marks (l := [.load y o g]) hk (hfit hcalls) hcalls hf
      (mem_goes (move_receives (code_moves hc)))
    simpa [marking,put_word,hp.silent,marks] using hloaded
  | @load_exit _ t p _ _ y o g v hl hr hc =>
    have hloaded := follows_marks (l := [.load y o g]) hk (hfit hcalls) hcalls hf
      (mem_goes (p := p) rfl)
    rw [← hcalls] at hloaded
    exact follows_marks hk (hfit hcalls) hcalls hloaded (fun q hq => .inl hq)
  | wake hc hw =>
    refine Follows.same (hcalls ▸ hf) ?_
    rw [Multiset.map_cons, Multiset.map_cons, waking_receives (code_wakes hc),
      hw.map_eq (fun q q' hq => ?_)]
    obtain ⟨hname,hq⟩ := named_some hq
    rw [hname, woken_receives hq]
  | spurious hw =>
    refine Follows.same (hcalls ▸ hf) ?_
    rw [Multiset.map_cons, Multiset.map_cons, woken_receives hw]

theorem follows_step (hk : Handles s.erase) (ht : Traced s) (hf : Follows s.trace s.calls)
    (hstep : WeakStep s e s') : Follows s'.trace s'.calls := by
  have hother {l : List (Access c)} {u : Thread Handle} (hu : u ∉ bound Handle.receiver)
      {calls : Multiset (Thread Handle × Party c T)}
      (hsub : ∀ q ∈ calls, q ∈ s.calls ∨ q.2.receives = false) :
      Follows (s.trace++marks u l) calls := by
    refine hf.marks (fun q hq hr => ⟨q,?_,rfl,hr⟩) (fun h0 => absurd h0 hu)
    exact (hsub q hq).resolve_right (by simp [hr])
  have hcons {u : Thread Handle} {p : Party c T} (hp : p.receives = false) :
      ∀ q ∈ (u,p) ::ₘ s.calls, q ∈ s.calls ∨ q.2.receives = false := by
    intro q hq
    rcases Multiset.mem_cons.mp hq with rfl | hq
    · exact .inr hp
    · exact .inl hq
  cases hstep with
  | party hp => exact follows_party hk ht hf hp
  | @call_send x _ _ hx =>
    exact hother (l := [.join _]) (sender_unbound x _).1 (hcons rfl)
  | call_recv blocking hx hnone => exact .join hnone
  | @clone_sender x _ hx hc => exact hother (sender_unbound x _).2 (fun q hq => .inl hq)
  | @drop_sender x _ hs hfree =>
    exact hother (l := [.join _]) (drop_unbound _) (hcons rfl)
  | drop_receiver hs hfree =>
    exact hother (l := [.join _]) (drop_unbound _) (hcons rfl)

end Sound

section Runs

variable {s s' : Scene c T}

theorem told_start : Told (marks .main (start_actions c)) (mpsc : State c T).inner := by
  have hfirst {g : ℕ} {u : Thread Handle} {a : Access c}
      (hg : At ([]++marks Thread.main (start_actions c)) g u a) : a ∈ start_actions c := by
    rcases hg.of_marks with h0 | ⟨-,ha,-⟩
    · exact absurd h0.lt (Nat.not_lt_zero g)
    · exact ha
  refine ⟨fun g u o v hg => ?_,fun g u o v hg => ?_⟩
  · obtain ⟨-,rfl⟩ : o = .relaxed ∧ v = .send 0 := by simpa [start_actions] using hfirst hg
    exact ⟨0,rfl,fun hd h0 => ⟨hd,h0⟩⟩
  · obtain ⟨-,rfl⟩ : o = .relaxed ∧ v = .recv 0 := by simpa [start_actions] using hfirst hg
    exact ⟨0,rfl,.inr (by simp [Vouched])⟩

theorem sound_start : Sound [] (start : Scene c T) := by
  have herase : (start : Scene c T).erase = mpsc := by simp [Scene.erase,start,mpsc]
  exact ⟨herase ▸ kept_start,traced_start,fun _ => told_start,by simp [Follows,start]⟩

theorem sound_step (hs : Sound h s) (hcalm : Calm s.erase) (hstep : WeakStep s e s') :
    Sound (h++[e]) s' := by
  obtain ⟨hkept,ht,htold,hfollow⟩ := hs
  have hk := hkept.handles
  have hf := weak_unfreed hk hstep
  have ht' := traced_step hk hkept.slots hcalm ht htold hfollow hstep
  refine ⟨?_,ht',told_step hkept hcalm ht (htold hf) hstep ht',follows_step hk ht hfollow hstep⟩
  rcases erase_step ht hk htold hfollow hstep with hone | ⟨rfl,hstale⟩
  · exact kept_step hkept hcalm hone
  · exact kept_stale hkept hstale

/-- While few senders are over the limit, a weak run is in order. -/
theorem sound_run (hrun : Steps WeakStep start h s) (hn : s.calls.card ≤ 2^60) : Sound h s := by
  have hle : aborting s.erase ≤ 2^60 := (aborting_le_card s.erase).trans (by simpa [Scene.erase])
  have hback (u : Scene c T) (e : Event T) (v : Scene c T) (hstep : WeakStep u e v)
      (hv : aborting v.erase ≤ 2^60) : aborting u.erase ≤ 2^60 := (weak_aborting hstep).trans hv
  have hsince := hrun.since hback hle
  clear hrun hn hle
  induction hsince with
  | refl => exact sound_start
  | next _ hone ih => exact sound_step ih (ih.kept.counted.calm hone.2) hone.1

theorem lawful : Lawful (program c T) (marking c T) := by
  refine ⟨put_self,fun m p x o m' p' e hl hc => ?_,fun m p x o m' e hl hc => ?_⟩
  · have hc : code (put m x (word m x)) p = .go m' p' e :=
      (congrArg (code · p) (put_self m x)).trans hc
    rw [(load_go hl hc).2.1, put_self]
  · obtain ⟨hp,rfl,-⟩ := load_exit hl hc
    have hf : freeing p ≠ 0 := by
      rcases hp with rfl | rfl <;> exact one_ne_zero
    rw [(free_exit hf hc).1]
    rfl

theorem weak_step (hs : Sound h s) {u : State c T} (hstep : Step s.erase e u) :
    ∃ s', WeakStep s e s' ∧ s'.erase = u := by
  cases hstep with
  | party hp =>
    obtain ⟨τ,named,hstep,rfl⟩ := named_step lawful hs.traced.latest hp
    exact ⟨_,.party hstep,rfl⟩
  | call_send blocking data hx => exact ⟨_,.call_send blocking data hx,by simp [Scene.erase]⟩
  | call_recv blocking hx hnone =>
    refine ⟨_,.call_recv blocking hx (fun q hq => hnone q.2 (Multiset.mem_map_of_mem _ hq)),?_⟩
    simp [Scene.erase]
  | clone_sender hx hc => exact ⟨_,.clone_sender hx hc,rfl⟩
  | drop_sender hd hfree =>
    refine ⟨_,.drop_sender hd (fun q hq => hfree q.2 (Multiset.mem_map_of_mem _ hq)),?_⟩
    simp [Scene.erase]
  | drop_receiver hd hfree =>
    refine ⟨_,.drop_receiver hd (fun q hq => hfree q.2 (Multiset.mem_map_of_mem _ hq)),?_⟩
    simp [Scene.erase]

/-- So every run of the channel is a weak run without its trace. -/
theorem weak_of_run {u : State c T} (hrun : Steps Step mpsc h u) (hn : u.calls.card ≤ 2^60) :
    ∃ s, Steps WeakStep start h s ∧ s.erase = u ∧ Sound h s := by
  have hback (u : State c T) (e : Event T) (v : State c T) (hstep : Step u e v)
      (hv : aborting v ≤ 2^60) : aborting u ≤ 2^60 := (aborting_step hstep).trans hv
  have hsince := hrun.since hback ((aborting_le_card u).trans hn)
  clear hrun hn
  induction hsince with
  | refl => exact ⟨start,.refl,by simp [Scene.erase,start,mpsc],sound_start⟩
  | next _ hone ih =>
    obtain ⟨s,hrun,rfl,hs⟩ := ih
    obtain ⟨s',hstep,rfl⟩ := weak_step hs hone.1
    exact ⟨s',.next hrun hstep,rfl,sound_step hs (hs.kept.counted.calm hone.2) hstep⟩

end Runs

section Safety

variable {s : Scene c T}

/-- Whatever old words the calls are shown, any two accesses to the cell are ordered. -/
theorem cell_race_free (hrun : Steps WeakStep start h s) (hn : s.calls.card ≤ 2^60) :
    RaceFree s.trace :=
  (sound_run hrun hn).traced.raced

def cell_reused : List (Command ℕ) :=
  [Command.call_send 0 false 7]++List.replicate 5 (Command.act 0)++
    [Command.call_recv false]++List.replicate 5 (Command.act 0)++
    [Command.call_send 0 false 8]++List.replicate 5 (Command.act 0)++
    [Command.call_recv false]++List.replicate 5 (Command.act 0)

theorem cell_race_free_reused : ∃ (h : List (Event ℕ)) (s : Scene .x86_64 ℕ),
    Steps WeakStep start h s ∧ gather returned h = [7,8] ∧ RaceFree s.trace := by
  obtain ⟨h,u,hr,hn,hq⟩ := reaches .x86_64 cell_reused
    (fun h s => s.calls.card ≤ 2^60 ∧ gather returned h = [7,8]) (by decide +kernel)
  obtain ⟨s,hs,rfl,-⟩ := weak_of_run hr hn
  exact ⟨h,s,hs,hq,cell_race_free hs (by simpa [Scene.erase] using hn)⟩

/-- The allocation is freed once nobody is left, and all that anybody has done to it
happens before. -/
theorem cell_freed_last (hrun : Steps WeakStep start h s) (hn : s.calls.card ≤ 2^60) :
    (∀ j t, At s.trace j t .free → s.senders = 0 ∧ s.receiver = false ∧ s.calls = 0 ∧
      ∀ i < s.trace.length, i ≠ j → Before s.trace i j) ∧
    (s.senders = 0 → s.receiver = false → s.calls = 0 → ∃ j t, At s.trace j t .free) := by
  obtain ⟨hkept,ht,-,-⟩ := sound_run hrun hn
  have hk := hkept.handles
  refine ⟨fun j t hj => ?_,fun hs hr hc => ?_⟩
  · obtain ⟨hf,hbefore⟩ := ht.ended j t hj
    obtain ⟨hs,hr,hc⟩ := freed_empty hk hf
    exact ⟨hs,hr,Multiset.map_eq_zero.mp hc,hbefore⟩
  · exact ht.freed (empty_freed hk hs hr (by simp [Scene.erase,hc]))

def value_left : List (Command ℕ) :=
  [Command.call_send 0 false 7]++List.replicate 5 (Command.act 0)++
    [Command.drop_receiver]++List.replicate 2 (Command.act 0)++
    [Command.drop_sender 0]++List.replicate 4 (Command.act 0)

theorem cell_freed_last_undelivered : ∃ (h : List (Event ℕ)) (s : Scene .x86_64 ℕ),
    Steps WeakStep start h s ∧ .dropped [7] ∈ h ∧
      ∃ j t, At s.trace j t .free ∧ ∀ i < s.trace.length, i ≠ j → Before s.trace i j := by
  obtain ⟨h,u,hr,hd,h1,h2,h3⟩ := reaches .x86_64 value_left
    (fun h s => .dropped [7] ∈ h ∧ s.senders = 0 ∧ s.receiver = false ∧ s.calls.card = 0)
      (by decide +kernel)
  obtain ⟨s,hs,rfl,-⟩ := weak_of_run hr (by simp [h3])
  have hcalls : s.calls = 0 := by simpa [Scene.erase] using h3
  have hlast := cell_freed_last hs (by simp [hcalls])
  obtain ⟨j,t,hj⟩ := hlast.2 h1 h2 hcalls
  exact ⟨h,s,hs,hd,j,t,hj,(hlast.1 j t hj).2.2.2⟩

theorem kept_delivered {u : State c T} (hkept : Kept h u) (ha : .abort ∉ h) : Delivered h u := by
  obtain ⟨-,hk,ho,hi,hp,hacc,hdrop,-,-,-,-⟩ := hkept
  have hacc := hacc ha
  have hone : slot_owners u ≤ 1 := (owners_le hi).trans (Bool.toNat_le _)
  have hret := weigh_le (fun p (_ : p ∈ u.calls) =>
    (Nat.le_add_left (returning p) (reading p)).trans (reading_le p))
  obtain ⟨rest,hrest,hlen⟩ := behind hp
  refine ⟨⟨rest,hrest,by omega⟩,hret.trans (hk.receiver.trans (Bool.toNat_le _)),hacc,
    handed_back_disjoint hacc,hone,fun p => no_ub hi,fun hr => ?_,empty_freed hk,fun hf => ?_,
    fun hf => ?_⟩
  · rw [Ne, reservations_eq_zero]
    exact owners_open hi (open_alive ho hr)
  · simpa [hf] using hdrop
  · have := dropped_rest hp (freed_empty hk hf).2.2
    rw [hf, Bool.true_and] at hdrop
    rwa [hdrop]

/-- No call is about to do something undefined, whichever word it is shown. -/
theorem weak_defined (hs : Sound h s) {q : Thread Handle × Party c T} (hq : q ∈ s.calls)
    {x : Atomic} {o : MemOrder} {g : ℕ} {v : Value c} (hl : loads q.2 = some (x,o))
    (hr : Readable s.trace q.1 x g v) : code (put s.inner x v) q.2 ≠ .ub := by
  obtain ⟨t,p⟩ := q
  cases p with
  | send id b y pc => cases pc <;> simp [code,send_code]
  | recv id b pc =>
    cases pc with
    | load => simp [code,recv_code]
    | _ => cases hl
  | drop_sender pc | drop_receiver pc =>
    cases pc with
    | free =>
      obtain ⟨rfl,-⟩ := Prod.mk.inj (Option.some.inj hl)
      have hv : v = word s.inner .recv :=
        hr.latest (hs.traced.latest .recv) (hs.traced.last _ hq one_ne_zero)
      rw [hv, put_self]
      exact no_ub hs.kept.slots (Multiset.mem_map_of_mem _ hq)
    | _ => cases hl

/-- Under the weak memory the slot delivers in the order of the reservations, everything
that was reserved for and nothing else. -/
theorem weak_delivery (hrun : Steps WeakStep start h s) (hn : s.calls.card ≤ 2^60)
    (ha : .abort ∉ h) : Delivered h s.erase ∧ ∀ q ∈ s.calls, ∀ x o g v,
      loads q.2 = some (x,o) → Readable s.trace q.1 x g v → code (put s.inner x v) q.2 ≠ .ub := by
  have hs := sound_run hrun hn
  exact ⟨kept_delivered hs.kept ha,fun q hq x o g v => weak_defined hs hq⟩

theorem weak_delivery_two_behind : ∃ (h : List (Event ℕ)) (s : Scene .x86_64 ℕ),
    Steps WeakStep start h s ∧ Delivered h s.erase ∧ gather reserved h = [1,3] := by
  obtain ⟨h,u,hr,hn,ha,hq⟩ := reaches .x86_64 two_behind
    (fun h s => s.calls.card ≤ 2^60 ∧ .abort ∉ h ∧ gather reserved h = [1,3]) (by decide +kernel)
  obtain ⟨s,hs,rfl,-⟩ := weak_of_run hr hn
  exact ⟨h,s,hs,(weak_delivery hs (by simpa [Scene.erase] using hn) ha).1,hq⟩

end Safety

section Sleep

variable {s : Scene c T}

/-- A poll may end on an old word, but no call comes to rest on one: once all calls rest,
a receive waits beside no value and no end and no sender sleeps beside it, and while the
receiver is there a sender sleeps only behind a value that waits for a receive. -/
theorem weak_rest (hrun : Steps WeakStep start h s) (hn : s.calls.card ≤ 2^60)
    (hq : Resting s.erase) :
    (∀ t id b pc, (t,.recv id b pc) ∈ s.calls →
      s.inner.recv = RecvStatus.SLEEPING ∧ ¬ Asleep .send s.erase) ∧
    (s.receiver = true → Asleep .send s.erase → RecvStatus.commit s.inner.recv = true) := by
  have hkept := (sound_run hrun hn).kept
  have hsend := torch_rest hkept.opened hkept.slots hkept.torch hq
  refine ⟨fun t id b pc hp => ?_,hsend⟩
  have hword := watched_rest hkept.watched hq (Multiset.mem_map_of_mem Prod.snd hp)
  refine ⟨hword,fun ha => ?_⟩
  obtain ⟨rest,hc⟩ := Multiset.exists_cons_of_mem hp
  have hcommit := hsend (receiver_held (erase_cons hc ▸ hkept.handles) rfl).1 ha
  exact absurd hcommit (by simp [show s.erase.inner.recv = RecvStatus.SLEEPING from hword])

theorem weak_rest_two : ∃ (h : List (Event ℕ)) (s : Scene .x86_64 ℕ),
    Steps WeakStep start h s ∧ Asleep .send s.erase ∧ RecvStatus.commit s.inner.recv = true := by
  obtain ⟨h,u,hr,hn,hl,hq,ha⟩ := reaches .x86_64 two_asleep
    (fun _ s => s.calls.card ≤ 2^60 ∧ s.receiver = true ∧ Resting s ∧ Asleep .send s)
      (by decide +kernel)
  obtain ⟨s,hs,rfl,-⟩ := weak_of_run hr hn
  exact ⟨h,s,hs,ha,(weak_rest hs (by simpa [Scene.erase] using hn) hq).2 hl ha⟩

end Sleep

section Ending

variable {s : Scene c T}

/-- A receive polls by loads, but the end that it reports is final: from then on no sender
is left, nothing is committed, and all that was committed has been returned. -/
theorem weak_end (hrun : Steps WeakStep start h s) (hn : s.calls.card ≤ 2^60) {id : ℕ}
    {r : RecvResult T} (hin : .received id r ∈ h) (hr : at_end r = true) :
    s.senders = 0 ∧ RecvStatus.dead s.inner.recv = true ∧ RecvStatus.commit s.inner.recv = false ∧
      gather committed h = gather returned h := by
  have hkept := (sound_run hrun hn).kept
  have ho := hkept.seen (.inl ⟨id,r,hin,hr⟩)
  have hholders := (hkept.handles.senders_tallied.raised ho.flag).2.1
  simp only [senders_tally, Scene.erase] at hholders
  exact ⟨Multiset.card_eq_zero.mp (by omega),ho.flag,ho.empty,over_returned ho hkept.pipeline⟩

/-- The last sender leaves a value behind, and the receiver takes it before the end. -/
def one_and_end : List (Command ℕ) :=
  [Command.call_send 0 false 7]++List.replicate 5 (Command.act 0)++
    [Command.drop_sender 0]++List.replicate 3 (Command.act 0)++
    [Command.call_recv false]++List.replicate 5 (Command.act 0)++
    [Command.call_recv true]++List.replicate 2 (Command.act 0)

theorem weak_end_after_one : ∃ (h : List (Event ℕ)) (s : Scene .x86_64 ℕ),
    Steps WeakStep start h s ∧ .received 3 .recv_error ∈ h ∧ gather committed h = [7] ∧
      gather returned h = [7] := by
  obtain ⟨h,u,hr,hn,hin,hc⟩ := reaches .x86_64 one_and_end
    (fun h s => s.calls.card ≤ 2^60 ∧ .received 3 .recv_error ∈ h ∧ gather committed h = [7])
      (by decide +kernel)
  obtain ⟨s,hs,rfl,-⟩ := weak_of_run hr hn
  have hall := (weak_end hs (by simpa [Scene.erase] using hn) hin rfl).2.2.2
  exact ⟨h,s,hs,hin,hc,hall.symm.trans hc⟩

end Ending

end Lockness.SlotMemory
