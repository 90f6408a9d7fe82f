import Lockness.BagConservation
import Lockness.BagRaces

/-!
# Every weak run of the bag is in order

Without its trace a weak run is one of the channel, but for calls that were shown
old words and went on to nothing. So the accounts of handles, slots and values hold
under the weak memory as well. With them the trace is free of races, and whoever
frees the allocation knows all that has happened.
-/

set_option autoImplicit false

namespace Lockness.BagWeak
open Lockness.PoolRuns Lockness.PoolFutex Lockness.PoolSlots Lockness.PoolTally Lockness.PoolOrder
open Lockness.PoolRaces Lockness.PoolArc Lockness.PoolThreads
open Lockness.PoolShared hiding Traced
open Lockness.BagMasks Lockness.BagMachine
open Lockness.BagMoves Lockness.BagInversion Lockness.BagHandles Lockness.BagBoard
open Lockness.BagOwnership Lockness.BagConservation Lockness.BagThreads Lockness.BagRaces

variable {T : Type*} {c : Target T} {m m' : Inner T} {p p' : Party T} {e : Event T}

section Alone

variable {h : List (Event T)} {s : State T}

theorem orphan (hk : Handles h s) (hs : s.senders = 0) (hr : s.receivers = 0) (hp : p ∈ s.calls) :
    unreleased p+freeing p = 1 := by
  cases p with
  | send id b x pc => simpa [hs] using hk.sender _ hp x rfl
  | recv id b x pc => simpa [hr] using hk.receiver _ hp x rfl
  | drop_sender pc => cases pc <;> rfl
  | drop_receiver pc => cases pc <;> rfl

theorem tallied (hk : Handles h s) : Tallied (arc_tally s) (s.senders.card+s.receivers.card)
    unreleased freeing s.calls := by
  refine ⟨hk.arc_tallied,rfl,rfl,rfl,fun hn p hp => ?_⟩
  exact orphan hk (Multiset.card_eq_zero.mp (by omega)) (Multiset.card_eq_zero.mp (by omega)) hp

theorem freeing_sole (hk : Handles h s) (hp : p ∈ s.calls) (hf : freeing p ≠ 0) :
    s.inner.strong = 0 ∧ s.senders = 0 ∧ s.receivers = 0 ∧ s.calls = {p} := by
  obtain ⟨h0,hn,hsole⟩ := (tallied hk).freeing_sole hp hf
  exact ⟨h0,Multiset.card_eq_zero.mp (by omega),Multiset.card_eq_zero.mp (by omega),hsole⟩

theorem last_sole (hk : Handles h s) (hp : p ∈ s.calls) (hu : unreleased p = 1)
    (h1 : s.inner.strong = 1) : s.senders = 0 ∧ s.receivers = 0 ∧ s.calls = {p} := by
  obtain ⟨hn,hsole⟩ := (tallied hk).last_sole hp hu h1
  exact ⟨Multiset.card_eq_zero.mp (by omega),Multiset.card_eq_zero.mp (by omega),hsole⟩

end Alone

section Words

theorem told_send {id : ℕ} {blocking : Bool} {x : Sender} {pc pc' : SendPc T}
    (hl : loads (.send id blocking x pc) = none) (hm : SendMove m blocking x pc m' pc' e)
    (y : Atomic) :
    told y (word m y) (send_actions m' pc (some (.send id blocking x pc'))) = word m' y := by
  cases hm with
  | @write data data' reserved todo todo' i v hi =>
    simp only [send_actions]
    cases hdr : drain_next N todo with
    | none => simp [drain_next_none hdr] at hi
    | some r => cases y <;> rfl
  | @commit data reserved todo w ht =>
    simp only [send_actions]
    cases hdr : drain_next N todo with
    | none => cases y <;> rfl
    | some r => simpa [ht] using drain_next_mem (by decide) hdr
  | @spin data spin =>
    obtain rfl : spin = 0 := by simpa [loads] using hl
    cases y <;> rfl
  | full => cases blocking <;> cases y <;> rfl
  | refuse => cases y <;> rfl
  | _ => cases y <;> rfl

theorem told_recv {id x : ℕ} {blocking : Bool} {pc pc' : RecvPc T}
    (hl : loads (.recv id blocking x pc) = none) (hm : RecvMove m blocking pc m' pc' e)
    (y : Atomic) : told y (word m y) (recv_actions m' pc) = word m' y := by
  cases hm with
  | @read claimed' todo todo' values i v hi =>
    simp only [recv_actions]
    cases hdr : drain_next N todo with
    | none => simp [drain_next_none hdr] at hi
    | some r => cases y <;> rfl
  | @release claimed' todo w values ht =>
    simp only [recv_actions]
    cases hdr : drain_next N todo with
    | none => cases y <;> rfl
    | some r => simpa [ht] using drain_next_mem (by decide) hdr
  | @spin spin =>
    obtain rfl : spin = 0 := by simpa [loads] using hl
    cases y <;> rfl
  | _ => cases y <;> rfl

theorem told_move (hl : loads p = none) (hm : PartyMove m p m' p' e) (y : Atomic) :
    told y (word m y) (actions c m m' p (some p')) = word m' y := by
  cases hm with
  | send hm => exact told_send hl hm y
  | recv hm => exact told_recv hl hm y
  | drop hm => cases hm <;> cases y <;> rfl

end Words

section Traces

variable {h : List (Event T)} {s : Scene T} {t : Thread Handle}
  {rest : Multiset (Thread Handle × Party T)}

def alive (s : Scene T) : Handle → Prop
  | .sender id => ∃ h ∈ s.senders, h.id = id
  | .receiver id => id ∈ s.receivers

abbrev Traced (c : Target T) (s : Scene T) : Prop :=
  PoolShared.Traced (shared c) s.trace s.inner (alive s) s.calls

theorem nobody (hs : s.senders = 0) (hr : s.receivers = 0) (x : Handle) : ¬ alive s x := by
  intro hx
  cases x with
  | sender id =>
    obtain ⟨y,hy,-⟩ := hx
    simp [hs] at hy
  | receiver id =>
    have hx : id ∈ s.receivers := hx
    simp [hr] at hx

theorem rest_unfreeing (hk : Handles h s.erase) (hc : s.calls = (t,p) ::ₘ rest) :
    ∀ q ∈ rest, freeing q.2 = 0 := (tallied hk).rest_unfreeing hc

theorem unfreeing (hk : Handles h s.erase) {x : Handle} (hx : alive s x) :
    ∀ q ∈ s.calls, freeing q.2 = 0 := by
  have hn (hn : s.senders.card+s.receivers.card = 0) : False :=
    nobody (Multiset.card_eq_zero.mp (by omega)) (Multiset.card_eq_zero.mp (by omega)) x hx
  exact fun q hq => (tallied hk).unfreeing hn q.2 (Multiset.mem_map_of_mem _ hq)

theorem unfreed_of_call (hk : Handles h s.erase) {q : Thread Handle × Party T}
    (hq : q ∈ s.calls) : s.inner.freed = false := by
  by_contra hf
  have h0 := (freed_empty hk (Bool.not_eq_false _ ▸ hf)).2.2
  have hmem : q.2 ∈ s.erase.calls := Multiset.mem_map_of_mem _ hq
  simp [h0] at hmem

theorem unfreed_of_alive (hk : Handles h s.erase) {x : Handle} (hx : alive s x) :
    s.inner.freed = false := by
  by_contra hf
  obtain ⟨hs,hr,-⟩ := freed_empty hk (Bool.not_eq_false _ ▸ hf)
  exact nobody hs hr x hx

theorem move_count (hm : PartyMove m p m' p' e) : m'.freed = m.freed ∧
    (m'.strong = m.strong ∧ freeing p' = 0 ∨ m.strong = 1 ∧ m' = { m with strong := 0 } ∧
      unreleased p = 1 ∧ owned p' = ∅ ∧ actions c m m' p (some p') =
        [.update .strong .release (.count m'.strong),.fence .acquire]) := by
  cases hm with
  | send hm =>
    obtain ⟨-,-,hs,hf⟩ := send_move_frame hm
    exact ⟨hf,.inl ⟨hs,rfl⟩⟩
  | recv hm =>
    obtain ⟨-,-,hs,hf⟩ := recv_move_frame hm
    exact ⟨hf,.inl ⟨hs,rfl⟩⟩
  | drop hd =>
    cases hd with
    | last_sender h1 => exact ⟨rfl,.inr ⟨h1,rfl,rfl,rfl,rfl⟩⟩
    | last_receiver h1 => exact ⟨rfl,.inr ⟨h1,rfl,rfl,rfl,rfl⟩⟩
    | sender_count => refine ⟨rfl,.inl ⟨rfl,?_⟩⟩; split_ifs <;> rfl
    | receiver_count => refine ⟨rfl,.inl ⟨rfl,?_⟩⟩; split_ifs <;> rfl
    | sender_raise => refine ⟨rfl,.inl ⟨rfl,?_⟩⟩; split_ifs <;> rfl
    | receiver_raise => refine ⟨rfl,.inl ⟨rfl,?_⟩⟩; split_ifs <;> rfl

theorem traced_move (hk : Handles h s.erase) (hi : PoolSlots.Inv (view h s.erase))
    (ht : Traced c s) (hl : loads p = none) (hc : s.calls = (t,p) ::ₘ rest)
    (hm : PartyMove s.inner p m' p' e) : Traced c { s with
      trace := s.trace++marks t (actions c s.inner m' p (some p'))
      inner := m'
      calls := (t,p') ::ₘ rest } := by
  have hmem : (t,p) ∈ s.calls := by simp [hc]
  have hcalls : s.erase.calls = p ::ₘ rest.map Prod.snd := by simp [Scene.erase,hc]
  have hp : p ∈ s.erase.calls := by simp [hcalls]
  have hf := unfreed_of_call hk hmem
  have hfit := ht.fits _ hmem
  have hdeed : Does c s.inner m' (owned p) (owned p') (actions c s.inner m' p (some p')) :=
    move_deed (hk.ok p hp)
      (fun x hx => (hk.receivers_tallied.down (hk.receiver_pos hp hx)).2) hm
  have halone : ∀ k, .access k ∈ actions c s.inner m' p (some p') →
      Alone (shared c) s.inner rest k ∧ k ∉ ((shared c).holding p').awaits :=
    fun k hk' => ⟨alone_of_slots hi hcalls (hdeed.held hk'),Set.notMem_empty k⟩
  have ht' : PoolShared.Traced (shared c) s.trace s.inner (alive s) ((t,p) ::ₘ rest) := hc ▸ ht
  obtain ⟨hfreed,⟨hstrong,hp'⟩ | ⟨h1,h0,hu,hown,hact⟩⟩ := move_count hm
  · exact ht'.move hf (hfreed.trans hf) hstrong (told_move hl hm) (Fits.move hfit hm) halone hdeed
      (unfreeing_cons hp' (rest_unfreeing hk hc))
  · obtain ⟨hs,hr,hp⟩ := last_sole hk hp hu h1
    obtain ⟨x,hx⟩ := Fits.dropping hfit hu
    have hrest : rest = 0 := rest_eq_zero hp hc
    have htold := told_move (c := c) hl hm
    rw [hact] at hdeed htold ⊢
    subst h0
    exact ht'.last_count hf hx hrest (nobody hs hr) (h1.trans_ne one_ne_zero) hf rfl
      (Fits.move hfit hm) (parks_mono subset_rfl (fun h0 => ⟨h0,subset_rfl⟩))
      (holding_within (by simp [hown])) htold

theorem traced_spin (hk : Handles h s.erase) (ht : Traced c s) {y : Atomic} {o : MemOrder} {g : ℕ}
    (hc : s.calls = (t,p) ::ₘ rest) (hs : Spins m p y p') : Traced c { s with
      trace := s.trace++[(t,.load y o g)]
      calls := (t,p') ::ₘ rest } := by
  have hmem : (t,p) ∈ s.calls := by simp [hc]
  have hown : owned p' = ∅ ∧ freeing p' = 0 ∧ Fits t p' := by
    have hfit : Fits t p := ht.fits _ hmem
    cases hs with
    | send id b x d =>
      cases hfit
      exact ⟨owned_idle (footprint_send_spin id b x d _ _),rfl,.send _ _ _ _⟩
    | recv id b x =>
      cases hfit
      exact ⟨owned_idle (footprint_recv_spin id b x _ _),rfl,.recv _ _ _ _⟩
  have ht' : PoolShared.Traced (shared c) s.trace s.inner (alive s) ((t,p) ::ₘ rest) := hc ▸ ht
  refine ht'.load (unfreed_of_call hk hmem) hown.2.2 (fun k hk => ?_) subset_rfl
    (unfreeing_cons hown.2.1 (rest_unfreeing hk hc))
  simp [shared,holding,hown.1] at hk

theorem traced_done (hk : Handles h s.erase) (ht : Traced c s) (hc : s.calls = (t,p) ::ₘ rest)
    (hp : p.sender ≠ none ∨ p.receiver ≠ none) : Traced c { s with calls := rest } := by
  have hmem : (t,p) ∈ s.calls := by simp [hc]
  have herase : p ∈ s.erase.calls := Multiset.mem_map_of_mem _ hmem
  have hfit : Fits t p := ht.fits _ hmem
  obtain ⟨x,id,hname,hx⟩ : ∃ x id, t = .call x id ∧ alive s x := by
    cases hfit with
    | send id b x pc => exact ⟨_,id,rfl,x,hk.sender _ herase x rfl,rfl⟩
    | recv id b x pc => exact ⟨_,id,rfl,hk.receiver _ herase x rfl⟩
    | _ => simp [Party.sender,Party.receiver] at hp
  have ht' : PoolShared.Traced (shared c) s.trace s.inner (alive s) ((t,p) ::ₘ rest) := hc ▸ ht
  exact ht'.leave (unfreed_of_call hk hmem) hx hname

theorem traced_release (hk : Handles h s.erase) (ht : Traced c s) (hc : s.calls = (t,p) ::ₘ rest)
    (hp : unreleased p = 1) : Traced c { s with
      trace := s.trace++marks t [.update .strong .release (.count (s.inner.strong-1))]
      inner := { s.inner with strong := s.inner.strong-1 }
      calls := rest } := by
  have hmem : (t,p) ∈ s.calls := by simp [hc]
  have hf := unfreed_of_call hk hmem
  obtain ⟨x,hx⟩ := Fits.dropping (ht.fits _ hmem) hp
  have hle := le_weigh unreleased (s := s.erase.calls) (p := p) (Multiset.mem_map_of_mem _ hmem)
  have hpos : 0 < s.inner.strong := hk.arc_tallied.num_pos (by simp only [arc_tally]; omega)
  have ht' : PoolShared.Traced (shared c) s.trace s.inner (alive s) ((t,p) ::ₘ rest) := hc ▸ ht
  refine ht'.release hf hx hf hpos.ne' (parks_mono subset_rfl (fun h0 => ⟨h0,subset_rfl⟩))
    (fun y => ?_)
    (fun q hq h0 => h0 (rest_unfreeing hk hc q hq))
  cases y <;> rfl

theorem traced_free (hk : Handles h s.erase) (ht : Traced c s) (hc : s.calls = (t,p) ::ₘ rest)
    (hp : freeing p ≠ 0) (g : ℕ) : Traced c { s with
      trace := s.trace++[(t,.load .recv .acquire g)]++marks t (free_actions c s.inner)
      inner := { s.inner with freed := true }
      calls := rest } := by
  have hmem : (t,p) ∈ s.calls := by simp [hc]
  obtain ⟨h0,-,-,hsole⟩ := freeing_sole hk (p := p) (Multiset.mem_map_of_mem _ hmem) hp
  have hrest : rest = 0 := rest_eq_zero hsole hc
  have ht' : PoolShared.Traced (shared c) s.trace s.inner (alive s) ((t,p) ::ₘ rest) := hc ▸ ht
  exact ht'.free (unfreed_of_call hk hmem) hrest hp h0 rfl (fun x => by cases x <;> rfl)

theorem same_waking {w : Futex} {n : ℕ} (hw : Waking p w n p') : Same (shared c) p p' := by
  refine ⟨?_,?_,fun t (hf : Fits t p) => ?_⟩
  · simp only [shared, owned, footprint_waking hw]
  · simp only [shared, quiet_freeing.waking hw]
  · cases hw <;> cases hf <;> constructor

theorem same_woken {w : Futex} (hw : woken w p = some p') : Same (shared c) p p' := by
  refine ⟨?_,?_,fun t (hf : Fits t p) => ?_⟩
  · simp only [shared, owned, footprint_woken hw]
  · simp only [shared, quiet_freeing.woken hw]
  · rcases woken_cases hw with ⟨_,_,_,_,-,rfl,rfl⟩ | ⟨_,_,_,-,rfl,rfl⟩ <;> cases hf <;> constructor

theorem holding_none (h : owned p = ∅) : (shared c).holding p = .none := by
  simp [shared,holding,h,Holding.none]

theorem traced_call (hk : Handles h s.erase) (ht : Traced c s) {x : Handle} (hx : alive s x)
    (hfit : Fits t p) (hown : owned p = ∅) (hfree : freeing p = 0) (threads : Set (Thread Handle))
    (n : ℕ) : Traced c { s with
      trace := s.trace++[(t,.join threads)]
      calls := (t,p) ::ₘ s.calls
      next := n } :=
  ht.call (unfreed_of_alive hk hx) threads hfit (holding_none hown)
    (unfreeing_cons hfree (unfreeing hk hx))

theorem traced_drop (hk : Handles h s.erase) (ht : Traced c s) {x : Handle} (hx : alive s x)
    (hfit : Fits (.drop x) p) (hown : owned p = ∅) (hfree : freeing p = 0)
    {senders : Multiset Sender} {receivers : Multiset ℕ}
    (ha : ∀ y, alive s y → y = x ∨
      alive { s with senders := senders, receivers := receivers } y) : Traced c { s with
      trace := s.trace++[(.drop x,.join (bound x))]
      senders := senders
      receivers := receivers
      calls := (.drop x,p) ::ₘ s.calls } :=
  ht.drop (unfreed_of_alive hk hx) hfit (holding_none hown)
    (unfreeing_cons hfree (unfreeing hk hx)) ha

theorem traced_clone (hk : Handles h s.erase) (ht : Traced c s) {x : Handle} (hx : alive s x)
    {l : List Access} (hl : Plain l) (htold : ∀ y, told y (word s.inner y) l = word m' y)
    (hm : m'.send = s.inner.send ∧ m'.recv = s.inner.recv ∧ m'.freed = s.inner.freed)
    (hbound : t ∈ bound x) {senders : Multiset Sender} {receivers : Multiset ℕ}
    (hs : s.senders ⊆ senders) (hr : s.receivers ⊆ receivers) (n : ℕ) : Traced c { s with
      trace := s.trace++marks t l
      inner := m'
      senders := senders
      receivers := receivers
      next := n } := by
  have hf := unfreed_of_alive hk hx
  obtain ⟨hsend,hrecv,hfreed⟩ := hm
  have hstrong : s.inner.strong ≠ 0 := by
    cases x with
    | sender id =>
      obtain ⟨y,hy,-⟩ := hx
      exact (hk.live_sender hy).2.ne'
    | receiver id => exact (hk.live_receiver hx).2.ne'
  refine ht.clone hf (hfreed.trans hf) hl htold (fun y hy => ?_) hx hbound hstrong
    (parks_mono (by rw [hrecv]) (fun h0 => ⟨hsend ▸ h0,by rw [hsend]⟩))
    (fun q hq h0 => h0 (unfreeing hk hx q hq))
  cases y with
  | sender id => exact hy.imp (fun z hz => ⟨hs hz.1,hz.2⟩)
  | receiver id => exact hr hy

end Traces

section Steps

variable {h : List (Event T)} {s s' : Scene T}

theorem put_self (m : Inner T) (y : Atomic) : put m y (word m y) = m := by
  cases y <;> rfl

theorem free_exit (hf : freeing p ≠ 0) (hc : code c m p = .exit m' e) :
    m' = { m with freed := true } ∧ actions c m m' p none = free_actions c m := by
  cases code_exits hc with
  | sender_free hd => exact ⟨(drop_inner_spec hd).1,rfl⟩
  | receiver_free hd => exact ⟨(drop_inner_spec hd).1,rfl⟩
  | _ => exact absurd rfl hf

theorem free_reads (ht : Traced c s) {t : Thread Handle} {rest : Multiset (Thread Handle × Party T)}
    {y : Atomic} {o : MemOrder} {g : ℕ} {v : Value} (hc : s.calls = (t,p) ::ₘ rest)
    (hl : loads p = some (y,o)) (hr : Readable s.trace t y g v)
    (hcode : code c (put s.inner y v) p = .exit m' e) :
    freeing p ≠ 0 ∧ y = .recv ∧ o = .acquire ∧ put s.inner y v = s.inner ∧
      code c s.inner p = .exit m' e ∧ m' = { s.inner with freed := true } ∧
        actions c s.inner m' p none = free_actions c s.inner := by
  obtain ⟨hp,rfl,rfl⟩ := load_exit hl hcode
  have hf : freeing p ≠ 0 := by
    rcases hp with rfl | rfl <;> exact one_ne_zero
  have hv : v = word s.inner .recv := hr.latest (ht.latest .recv) (ht.last (t,p) (by simp [hc]) hf)
  have hput : put s.inner .recv v = s.inner := by rw [hv, put_self]
  rw [hput] at hcode
  obtain ⟨hm,ha⟩ := free_exit hf hcode
  exact ⟨hf,rfl,rfl,hput,hcode,hm,ha⟩

theorem erased_party {calls calls' : Multiset (Party T)} (hc : s.erase.calls = calls)
    (hp : PartyStep (program c) s.inner calls e m' calls') :
    BagMachine.Step c s.erase e { s.erase with inner := m', calls := calls' } :=
  .party (hc ▸ hp)

/-- A spin loop was shown a word that is old, or may be. -/
inductive Shown (s : Scene T) : State T → Prop
  | intro {t : Thread Handle} {p p' : Party T} {rest : Multiset (Party T)} {y : Atomic} {g : ℕ}
      {v : Value} : s.erase.calls = p ::ₘ rest → Readable s.trace t y g v →
      Spins (put s.inner y v) p y p' → Ok p' → Shown s { s.erase with calls := p' ::ₘ rest }

theorem Shown.stale {u : State T} (hs : Shown s u) : Stale s.erase u := by
  cases hs with
  | intro hc _ hs hok => exact .intro hc (hs.alike hok)

/-- A weak step is one of the channel, or that of a call that was shown an old word. -/
theorem erase_step (hk : Handles h s.erase) (ht : Traced c s) (hstep : WeakStep c s e s') :
    BagMachine.Step c s.erase e s'.erase ∨ e = .tau ∧ Shown s s'.erase := by
  cases hstep with
  | party hp =>
    rcases hp.erase with hp | hload
    · exact .inl (.party hp)
    generalize hcalls : s.calls = cs at hload
    have herase {t : Thread Handle} {p : Party T} {rest : Multiset (Thread Handle × Party T)}
        (hc : s.calls = (t,p) ::ₘ rest) : s.erase.calls = p ::ₘ rest.map Prod.snd := by
      simp [Scene.erase,hc]
    cases hload with
    | go hl hr hc =>
      obtain ⟨hs,rfl,rfl⟩ := load_go hl hc
      have hok := party_move_ok (hk.ok _ (by simp [herase hcalls]))
        (code_moves (hk.ok _ (by simp [herase hcalls])) hc)
      refine .inr ⟨rfl,?_⟩
      have hshown := Shown.intro (herase hcalls) hr hs hok
      simpa [Scene.erase,marking,put_word] using hshown
    | exit hl hr hc =>
      obtain ⟨-,rfl,-,-,hc,rfl,-⟩ := free_reads ht hcalls hl hr hc
      have hstep := erased_party (herase hcalls) (.exit hc)
      exact .inl (by simpa [Scene.erase,marking,put,word] using hstep)
  | call_send blocking data hx =>
    have := BagMachine.Step.call_send (c := c) (s := s.erase) blocking data hx
    exact .inl (by simpa [Scene.erase] using this)
  | call_recv blocking hx =>
    have := BagMachine.Step.call_recv (c := c) (s := s.erase) blocking hx
    exact .inl (by simpa [Scene.erase] using this)
  | clone_sender hx hc => exact .inl (.clone_sender (s := s.erase) hx hc)
  | clone_sender_panic hx hc => exact .inl (.clone_sender_panic (s := s.erase) hx hc)
  | clone_receiver hx hc => exact .inl (.clone_receiver (s := s.erase) hx hc)
  | drop_sender hs hfree =>
    have := BagMachine.Step.drop_sender (c := c) (s := s.erase) hs
      (by simpa [Scene.erase] using fun p t ht => hfree (t,p) ht)
    exact .inl (by simpa [Scene.erase] using this)
  | drop_receiver hs hfree =>
    have := BagMachine.Step.drop_receiver (c := c) (s := s.erase) hs
      (by simpa [Scene.erase] using fun p t ht => hfree (t,p) ht)
    exact .inl (by simpa [Scene.erase] using this)

theorem traced_party (hk : Handles h s.erase) (hi : PoolSlots.Inv (view h s.erase))
    (ht : Traced c s)
    {τ : Trace (Thread Handle) Atomic Slot Value} {calls : Multiset (Thread Handle × Party T)}
    (hp : ThreadStep (program c) (marking c) s.trace s.inner s.calls e τ m' calls) :
    Traced c { s with trace := τ, inner := m', calls := calls } := by
  generalize hcalls : s.calls = cs at hp
  have hok {t : Thread Handle} {p : Party T} {rest : Multiset (Thread Handle × Party T)}
      (hc : s.calls = (t,p) ::ₘ rest) : Ok p := hk.ok p (by simp [Scene.erase,hc])
  cases hp with
  | go hl hc => exact traced_move hk hi ht hl hcalls (code_moves (hok hcalls) hc)
  | exit hl hc =>
    cases code_exits hc with
    | send =>
      have := traced_done hk ht hcalls (.inl (by simp [Party.sender]))
      simpa [marking,actions,send_actions,marks] using this
    | recv =>
      have := traced_done hk ht hcalls (.inr (by simp [Party.receiver]))
      simpa [marking,actions,recv_actions,marks] using this
    | sender_release => exact traced_release hk ht hcalls rfl
    | receiver_release => exact traced_release hk ht hcalls rfl
    | sender_free => cases hl
    | receiver_free => cases hl
  | @load_go _ _ _ _ _ _ y o g v hl hr hc =>
    obtain ⟨hs,rfl,-⟩ := load_go hl hc
    have := traced_spin hk ht (o := o) (g := g) hcalls hs
    simpa [marking,put_word,hs.silent,marks] using this
  | @load_exit _ _ _ _ _ y o g v hl hr hc =>
    obtain ⟨hf,rfl,rfl,hput,-,rfl,ha⟩ := free_reads ht hcalls hl hr hc
    simp only [marking, hput, ha]
    exact traced_free hk ht hcalls hf g
  | wake hc hw =>
    rw [Traced, hcalls] at ht
    exact ht.wake (same_waking (code_wakes hc)) hw (fun _ _ => same_woken)
  | @spurious _ _ _ w rest hw =>
    rw [Traced, hcalls] at ht
    have hstop : Wake (named (woken w)) 0 rest rest := .nil _
    exact ht.wake (same_woken hw) hstop (fun _ _ => same_woken)

theorem traced_step (hk : Handles h s.erase) (hi : PoolSlots.Inv (view h s.erase)) (ht : Traced c s)
    (hstep : WeakStep c s e s') : Traced c s' := by
  cases hstep with
  | party hp => exact traced_party hk hi ht hp
  | @call_send x blocking data hx =>
    exact traced_call hk ht (x := .sender x.id) ⟨x,hx,rfl⟩ (.send _ _ _ _)
      (owned_idle (footprint_try_send _ _ _ _)) rfl _ _
  | @call_recv x blocking hx =>
    exact traced_call hk ht (x := .receiver x) hx (.recv _ _ _ _) (owned_idle rfl) rfl _ _
  | @clone_sender x m bias hx hc =>
    obtain ⟨-,-,rfl⟩ := clone_sender_ok hc
    refine traced_clone hk ht (x := .sender x.id) ⟨x,hx,rfl⟩ ?_ ?_ ?_ (.inr (.inr (.inl ⟨_,rfl⟩)))
      (Multiset.subset_cons _ _) (Multiset.Subset.refl _) _
    · simp [Plain]
    · intro y
      cases y <;> rfl
    · exact ⟨rfl,rfl,rfl⟩
  | @clone_sender_panic x m hx hc =>
    obtain ⟨-,rfl⟩ := clone_sender_panics hc
    refine traced_clone hk ht (x := .sender x.id) ⟨x,hx,rfl⟩ ?_ ?_ ?_ (.inr (.inr (.inr ⟨_,rfl⟩)))
      (Multiset.Subset.refl _) (Multiset.Subset.refl _) _
    · simp [Plain]
    · intro y
      cases y <;> rfl
    · exact ⟨rfl,rfl,rfl⟩
  | @clone_receiver x m hx hc =>
    obtain ⟨-,rfl⟩ := clone_receiver_ok hc
    refine traced_clone hk ht (x := .receiver x) hx ?_ ?_ ?_ (.inr (.inr (.inl ⟨_,rfl⟩)))
      (Multiset.Subset.refl _) (Multiset.subset_cons _ _) _
    · simp [Plain]
    · intro y
      cases y <;> rfl
    · exact ⟨rfl,rfl,rfl⟩
  | @drop_sender x rest hs hfree =>
    refine traced_drop hk ht (x := .sender x.id) ⟨x,by simp [hs],rfl⟩ (.drop_sender _ _)
      (owned_idle rfl) rfl ?_
    rintro (id | id) hy
    · obtain ⟨z,hz,rfl⟩ := hy
      rw [hs] at hz
      rcases Multiset.mem_cons.mp hz with rfl | hz
      · exact .inl rfl
      · exact .inr ⟨z,hz,rfl⟩
    · exact .inr hy
  | @drop_receiver x rest hs hfree =>
    refine traced_drop hk ht (x := .receiver x) (by simp [alive,hs]) (.drop_receiver _ _)
      (owned_idle rfl) rfl ?_
    rintro (id | id) hy
    · exact .inr hy
    · have hy : id ∈ s.receivers := hy
      rw [hs] at hy
      rcases Multiset.mem_cons.mp hy with rfl | hy
      · exact .inl rfl
      · exact .inr hy

theorem traced_start : Traced c (start : Scene T) := by
  have hfirst : alive (start : Scene T) (.sender 0) := ⟨⟨0,0⟩,by simp [start],rfl⟩
  refine PoolShared.traced_start (by simp [Plain,start_actions]) (fun y => ?_) rfl hfirst
  have hlater (n : ℕ) (v : Value) :=
    (latest_update (marks Thread.main (start_actions.take n)) .main y .relaxed v).marks .main
      (start_actions.drop (n+1))
  cases y with
  | send => exact hlater 0 (.word 0)
  | recv => exact hlater 1 (.word Status.all)
  | num_senders => exact hlater 2 (.count 1)
  | num_receivers => exact hlater 3 (.count 1)
  | strong => exact hlater 4 (.count 2)

end Steps

end Lockness.BagWeak
