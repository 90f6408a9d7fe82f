import Lockness.BagMemory
import Lockness.BagObject

/-!
# Every call on the bag takes effect at one moment

Each step of the channel is matched by one of the object, or by none. A spin loop
that was shown an old word goes by what has not changed since: a flag once raised
stays, and so does an empty bag without senders.
-/

set_option autoImplicit false

namespace Lockness.BagAtomic
open Lockness.PoolRuns Lockness.PoolFutex Lockness.PoolSlots Lockness.PoolOrder
open Lockness.PoolThreads Lockness.PoolAtomic Lockness.BagMasks Lockness.BagMachine
open Lockness.BagMoves Lockness.BagInversion Lockness.BagHandles Lockness.BagBoard
open Lockness.BagOwnership Lockness.BagDisconnect Lockness.BagFinality Lockness.BagThreads
open Lockness.BagRaces Lockness.BagWeak Lockness.BagMemory Lockness.BagObject
open Lockness.BagSchedule (Command reaches)

variable {T : Type*}

def Related (s : BagMachine.State T) : PoolAtomic.State (Content T) (Op T) (Answer T) → Prop :=
  PoolAtomic.Related calling (Match s.inner) (content s.inner) s.calls

theorem footprint_dropping {p : Party T} (hp : calling p = false) : footprint p = .idle := by
  cases p with
  | send => cases hp
  | recv => cases hp
  | drop_sender => rfl
  | drop_receiver => rfl

section Steps

variable {c : Target T} {h : List (Event T)} {s s' : BagMachine.State T} {e : Event T}
  {m m' : Inner T} {p p' : Party T} {rest : Multiset (Party T)}
  {a : PoolAtomic.State (Content T) (Op T) (Answer T)}

theorem match_frame (hbag : ∀ q ∈ rest, ∀ i ∈ owned q, m'.bag i = m.bag i) :
    ∀ q ∈ rest, ∀ y, Match m q y → Match m' q y :=
  fun q hq _ hy => hy.frame (hbag q hq)

theorem woken_match {w : Futex} {p q : Party T} (hw : woken w p = some q) :
    calling p = true ∧ calling q = true ∧ ∀ y, Match m p y → Match m q y := by
  refine ⟨?_,?_,fun y hy => hy.woken hw⟩ <;>
    rcases woken_cases hw with ⟨_,_,_,_,-,rfl,rfl⟩ | ⟨_,_,_,-,rfl,rfl⟩ <;> rfl

theorem go_related (hk : Handles h s) (hi : PoolSlots.Inv (view h s)) (ha : Related s a)
    (hc : s.calls = p ::ₘ rest) (hm : PartyMove s.inner p m' p' e) :
    Shows (bag T) a (visible e) (Related { s with inner := m', calls := p' ::ₘ rest }) := by
  have hframe := match_frame (move_bag hi hc (hk.ok _ (by simp [hc])) hm)
  rw [Related, hc] at ha
  cases hm with
  | @send id b x pc pc' m' e hm =>
    have he : visible e = none := by cases hm <;> rfl
    rw [he]
    refine ha.move rfl rfl hframe fun n y hn hy => send_follows hi hk hc (fun h0 q hq => ?_) hm hy
    exact footprint_dropping (hn h0 q hq)
  | @recv id b x pc pc' m' e hm =>
    have he : visible e = none := by cases hm <;> rfl
    rw [he]
    exact ha.move rfl rfl hframe fun n y _ hy => recv_follows hi hk hc hm hy
  | drop hm =>
    obtain ⟨hp,hp',hcase⟩ := drop_content hm
    have hrest := ((related_pass hp).mp ha).frame hframe
    rcases hcase with ⟨he,hv⟩ | ⟨g,he,hv⟩
    · rw [he]
      refine .still ((related_pass hp').mpr ?_)
      simpa only [hv] using hrest
    · rw [he]
      exact (hrest.shifts (O := bag T) hv).mono fun _ => (related_pass hp').mpr

theorem wake_related (ha : Related s a) (hc : s.calls = p ::ₘ rest) {w : Futex} {n : ℕ}
    (hw : Waking p w n p') {calls : Multiset (Party T)} (hwake : Wake (woken w) n rest calls) :
    Related { s with calls := p' ::ₘ calls } a := by
  rw [Related, hc] at ha
  have hdrop (hp : calling p = false) (hp' : calling p' = false) :
      Related { s with calls := p' ::ₘ calls } a :=
    (related_pass hp').mpr (((related_pass hp).mp ha).wake hwake fun _ _ => woken_match)
  have hcall (hp : calling p = true) (hp' : calling p' = true)
      (hm : ∀ y, Match s.inner p y → Match s.inner p' y) :
      Related { s with calls := p' ::ₘ calls } a := by
    obtain ⟨y,ys,rfl,hy,hys⟩ := ha.call hp
    exact (hys.wake hwake fun _ _ => woken_match).enter hp' (hm y hy)
  cases hw with
  | send =>
    refine hcall rfl rfl fun y hy => ?_
    cases hy with
    | sending hs => exact hs.elim
    | sent hs =>
      rcases hs with ⟨-,rfl⟩ | hs
      · exact .sent (.inr rfl)
      · cases hs
  | recv =>
    refine hcall rfl rfl fun y hy => ?_
    cases hy with
    | receiving hr => exact hr.elim
    | received hr => exact .received hr
  | drop_sender => exact hdrop rfl rfl
  | drop_receiver => exact hdrop rfl rfl

theorem exit_related (ha : Related s a) (hc : s.calls = p ::ₘ rest) (hx : Exit c s.inner p m' e) :
    Shows (bag T) a (visible e) (Related { s with inner := m', calls := rest }) := by
  rw [Related, hc] at ha
  have hdrop (hp : calling p = false)
      (hm : m'.send = s.inner.send ∧ m'.recv = s.inner.recv ∧ m'.bag = s.inner.bag) :
      Related { s with inner := m', calls := rest } a := by
    have hv : content m' = content s.inner := by
      rw [content, content, hm.1, hm.2.1, hm.2.2]
    have hframe : ∀ q ∈ rest, ∀ y, Match s.inner q y → Match m' q y :=
      match_frame fun _ _ _ _ => by rw [hm.2.2]
    have hrest := ((related_pass hp).mp ha).frame hframe
    simpa only [Related, hv] using hrest
  cases hx with
  | send =>
    refine ha.answers rfl fun y hy => ?_
    cases hy with
    | sending hs => exact hs.elim
    | sent hs =>
      rcases hs with ⟨hs,-⟩ | hs <;> cases hs
      rfl
  | recv =>
    refine ha.answers rfl fun y hy => ?_
    cases hy with
    | receiving hr => exact hr.elim
    | received hr => rw [show _ = answer _ from hr]
  | sender_release => exact .still (hdrop rfl ⟨rfl,rfl,rfl⟩)
  | receiver_release => exact .still (hdrop rfl ⟨rfl,rfl,rfl⟩)
  | sender_free hd =>
    rw [(drop_inner_spec hd).1] at hdrop ⊢
    exact .still (hdrop rfl ⟨rfl,rfl,rfl⟩)
  | receiver_free hd =>
    rw [(drop_inner_spec hd).1] at hdrop ⊢
    exact .still (hdrop rfl ⟨rfl,rfl,rfl⟩)

theorem call_send_related (hk : Handles h s) (ha : Related s a) {x : Sender} (hx : x ∈ s.senders)
    (b : Bool) (d : SendBuffer T) : Shows (bag T) a (some (.ask s.next (.send b d)))
      (Related { s with
        calls := .send s.next b x (try_send x d) ::ₘ s.calls, next := s.next+1 }) := by
  by_cases hd : d.contents = []
  · rcases try_send_spec x d with ⟨-,ht⟩ | ⟨hne,-⟩
    · rw [ht]
      exact PoolAtomic.Related.asks_performs ha rfl (.nothing hd) (.sent (.inr rfl))
    · exact absurd hd hne
  · exact PoolAtomic.Related.asks ha rfl (.sending (sending_try_send (hk.bias x hx) hd))

theorem related_step (hk : Handles h s) (hi : PoolSlots.Inv (view h s)) (ha : Related s a)
    (hstep : BagMachine.Step c s e s') : Shows (bag T) a (visible e) (Related s') := by
  have hsame {m' : Inner T} (hv : content m' = content s.inner) (hb : m'.bag = s.inner.bag) :
      PoolAtomic.Related calling (Match m') (content m') s.calls a := by
    rw [hv]
    exact PoolAtomic.Related.frame ha (match_frame fun _ _ _ _ => by rw [hb])
  cases hstep with
  | party hp =>
    generalize hc : s.calls = cs at hp
    cases hp with
    | go hcode => exact go_related hk hi ha hc (code_moves (hk.ok _ (by simp [hc])) hcode)
    | wake hcode hw => exact .still (wake_related ha hc (code_wakes hcode) hw)
    | spurious hw =>
      rw [Related, hc] at ha
      exact .still (ha.wake (.single hw _) fun _ _ => woken_match)
    | exit hcode => exact exit_related ha hc (code_exits hcode)
  | call_send b d hx => exact call_send_related hk ha hx b d
  | call_recv b hx => exact PoolAtomic.Related.asks ha rfl (.receiving trivial)
  | clone_sender _ hc =>
    obtain ⟨-,-,rfl⟩ := clone_sender_ok hc
    exact .still (hsame rfl rfl)
  | clone_sender_panic _ hc =>
    obtain ⟨-,rfl⟩ := clone_sender_panics hc
    exact .still (hsame rfl rfl)
  | clone_receiver _ hc =>
    obtain ⟨-,rfl⟩ := clone_receiver_ok hc
    exact .still (hsame rfl rfl)
  | drop_sender => exact .still ((related_pass rfl).mpr ha)
  | drop_receiver => exact .still ((related_pass rfl).mpr ha)

end Steps

section Weak

variable {c : Target T} {h : List (Event T)} {s s' : Scene T} {e : Event T} {m m' : Inner T}
  {p p' : Party T}

def Lasting (m : Inner T) : Atomic → Value → Prop
  | .send,v => ∃ w, v = .word w ∧ (dead w = true → dead m.send = true)
  | .recv,v => ∃ w, v = .word w ∧ (dead (~~~w) = true → slots (N := 30) w = ∅ → Over m)
  | _,_ => True

theorem lasting_word (m : Inner T) (y : Atomic) : Lasting m y (word m y) := by
  cases y with
  | send => exact ⟨m.send,rfl,id⟩
  | recv => exact ⟨m.recv,rfl,fun hd h0 => ⟨hd,h0⟩⟩
  | _ => trivial

theorem Lasting.mono {y : Atomic} {v : Value} (hv : Lasting m y v)
    (hs : dead m.send = true → dead m'.send = true) (hr : Over m → Over m') :
    Lasting m' y v := by
  cases y with
  | send =>
    obtain ⟨w,rfl,hw⟩ := hv
    exact ⟨w,rfl,fun hd => hs (hw hd)⟩
  | recv =>
    obtain ⟨w,rfl,hw⟩ := hv
    exact ⟨w,rfl,fun hd h0 => hr (hw hd h0)⟩
  | _ => trivial

def Remembered (s : Scene T) : Prop :=
  ∀ g u y o v, At s.trace g u (.update y o v) → Lasting s.inner y v

def Writes (m : Inner T) (l : List Access) : Prop := ∀ y o v, .update y o v ∈ l → v = word m y

theorem writes_nil : Writes m [] := by simp [Writes]

theorem Writes.join {l : List Access} (hl : Writes m l)
    (threads : Set (PoolArc.Thread Handle)) : Writes m (.join threads::l) := by
  simpa [Writes] using hl

theorem Writes.update {l : List Access} (hl : Writes m l) (y : Atomic) (o : MemOrder) :
    Writes m (.update y o (word m y)::l) := by
  intro y' o' v hmem
  rcases List.mem_cons.mp hmem with heq | hmem
  · cases heq
    rfl
  · exact hl y' o' v hmem

theorem writes_actions (next : Option (Party T)) : Writes m' (actions c m m' p next) := by
  intro y o v hmem
  cases p with
  | send id b x pc =>
    cases pc with
    | write data reserved todo =>
      simp only [actions, send_actions] at hmem
      cases hdr : drain_next N todo <;> simp_all [word]
    | _ =>
      simp only [actions, send_actions] at hmem
      repeat' split at hmem
      all_goals simp_all [word]
  | recv id b x pc =>
    cases pc with
    | read claimed todo values =>
      simp only [actions, recv_actions] at hmem
      cases hdr : drain_next N todo <;> simp_all [word]
    | _ =>
      simp only [actions, recv_actions] at hmem
      repeat' split at hmem
      all_goals simp_all [word]
  | drop_sender pc =>
    cases pc <;> cases next <;>
      simp_all [actions,drop_sender_actions,release_actions,free_actions,word]
  | drop_receiver pc =>
    cases pc <;> cases next <;>
      simp_all [actions,drop_receiver_actions,release_actions,free_actions,word]

theorem weak_marks (ht : Traced c s) (hstep : WeakStep c s e s') :
    ∃ t l, s'.trace = s.trace++marks t l ∧ Writes s'.inner l := by
  cases hstep with
  | party hp =>
    generalize hcalls : s.calls = cs at hp
    cases hp with
    | go => exact ⟨_,_,rfl,writes_actions _⟩
    | exit => exact ⟨_,_,rfl,writes_actions _⟩
    | @load_go _ t _ _ _ _ x o g v hl _ hc =>
      obtain ⟨hs,rfl,-⟩ := load_go hl hc
      exact ⟨t,[.load x o g],by simp [marking,hs.silent,marks],by simp [Writes]⟩
    | @load_exit _ t _ _ _ x o g v hl hr hc =>
      obtain ⟨-,rfl,rfl,hput,-,rfl,ha⟩ := free_reads ht hcalls hl hr hc
      refine ⟨t,.load .recv .acquire g::free_actions c s.inner,?_,by simp [Writes,free_actions]⟩
      simp [marking,hput,ha,marks]
    | wake => exact ⟨.main,[],by simp [marks],writes_nil⟩
    | spurious => exact ⟨.main,[],by simp [marks],writes_nil⟩
  | call_send => exact ⟨_,[_],rfl,writes_nil.join _⟩
  | call_recv => exact ⟨_,[_],rfl,writes_nil.join _⟩
  | clone_sender =>
    exact ⟨_,_,rfl,((writes_nil.update .strong .relaxed).update .num_senders .relaxed).join _⟩
  | clone_sender_panic =>
    exact ⟨_,_,rfl,(writes_nil.update .num_senders .relaxed).join _⟩
  | clone_receiver =>
    exact ⟨_,_,rfl,((writes_nil.update .strong .relaxed).update .num_receivers .relaxed).join _⟩
  | drop_sender => exact ⟨_,[_],rfl,writes_nil.join _⟩
  | drop_receiver => exact ⟨_,[_],rfl,writes_nil.join _⟩

theorem remembered_step (hs : Sound c h s) (hm : Remembered s) (hstep : WeakStep c s e s') :
    Remembered s' := by
  have hlast : (dead s.inner.send = true → dead s'.inner.send = true) ∧
      (Over s.inner → Over s'.inner) := by
    rcases erase_step hs.handles hs.traced hstep with hone | ⟨-,hshown⟩
    · refine ⟨fun hd => ?_,fun ho => over_step hs.handles ho hone⟩
      have := (step_dead hs.handles hone).2
      rw [show dead s.erase.inner.send = true from hd, Bool.true_or] at this
      exact this
    · rw [show s'.inner = s.inner from stale_inner hshown.stale]
      exact ⟨id,id⟩
  obtain ⟨t,l,htrace,hl⟩ := weak_marks hs.traced hstep
  intro g u y o v hg
  rw [htrace] at hg
  rcases Nat.lt_or_ge g s.trace.length with hlt | hge
  · rw [At, List.getElem?_append_left hlt] at hg
    exact (hm g u y o v hg).mono hlast.1 hlast.2
  · obtain ⟨a,ha,hat⟩ := at_marks hg.lt hge
    obtain ⟨-,rfl⟩ := hat.unique hg
    rw [hl y o v ha]
    exact lasting_word _ _

theorem shown_related {u : BagMachine.State T} (hk : Handles h s.erase) (hm : Remembered s)
    {a : PoolAtomic.State (Content T) (Op T) (Answer T)} (ha : Related s.erase a)
    (hs : Shown s u) : Shows (bag T) a none (Related u) := by
  obtain @⟨t,p,p',rest,y,g,v,hc,⟨⟨i,o,hg⟩,-⟩,hspin,-⟩ := hs
  have hlast := hm g i y o v hg
  have hp : p ∈ s.erase.calls := by simp [hc]
  rw [Related, hc] at ha
  cases hspin with
  | @send id b x data spin h0 =>
    obtain ⟨w,rfl,hdead⟩ := hlast
    refine ha.move rfl rfl (fun _ _ _ hy => hy) fun n z _ hz => ?_
    have hb : x.bias < 30 := hk.bias x (hk.sender _ hp x rfl)
    have hmove : SendMove (put s.inner .send (.word w)) b x _ _ _ _ := send_spin_moves data spin
    rw [if_neg h0] at hmove
    cases hz with
    | sent hs => rcases hs with ⟨hs,-⟩ | hs <;> cases hs
    | sending hs =>
      have hok := send_move_ok hs.1 hb hmove
      cases hmove with
      | spin _ _ _ hcase => exact send_spin_follows hb hs hok rfl hdead hcase
  | @recv id b x spin h0 =>
    obtain ⟨w,rfl,hdead⟩ := hlast
    refine ha.move rfl rfl (fun _ _ _ hy => hy) fun n z _ hz => ?_
    have hmove : RecvMove (put s.inner .recv (.word w)) b _ _ _ _ := recv_spin_moves spin
    rw [if_neg h0] at hmove
    cases hz with
    | received hr => exact hr.elim
    | receiving =>
      cases hmove with
      | spin _ _ _ hcase => exact recv_spin_follows (hk.ok _ hp) rfl hdead hcase

theorem remembered_start : Remembered (start : Scene T) := by
  intro g u y o v hg
  obtain ⟨a,ha,hat⟩ := at_marks (τ := []) (t := .main) (l := start_actions) hg.lt (Nat.zero_le _)
  obtain ⟨-,rfl⟩ := hat.unique hg
  have hv : v = word (start : Scene T).inner y := by
    simp only [start_actions, List.mem_cons, Action.update.injEq, List.not_mem_nil, or_false] at ha
    rcases ha with ⟨rfl,-,rfl⟩ | ⟨rfl,-,rfl⟩ | ⟨rfl,-,rfl⟩ | ⟨rfl,-,rfl⟩ | ⟨rfl,-,rfl⟩ <;> rfl
  rw [hv]
  exact lasting_word _ _

theorem related_start : Related (start : Scene T).erase fresh := by
  constructor
  · simp [fresh,content,start,Scene.erase,mpmc]
  · simp [under_way,start,Scene.erase,fresh]

theorem weak_related (hs : Sound c h s) (hm : Remembered s)
    {a : PoolAtomic.State (Content T) (Op T) (Answer T)} (ha : Related s.erase a)
    (hstep : WeakStep c s e s') : Shows (bag T) a (visible e) (Related s'.erase) := by
  rcases erase_step hs.handles hs.traced hstep with hone | ⟨rfl,hshown⟩
  · exact related_step hs.handles hs.slots ha hone
  · exact shown_related hs.handles hm ha hshown

/-- What can be seen of any run of the channel under the weak memory can be seen of a
bag each of whose calls takes effect at once, after it was made and before it returns. -/
theorem bag_atomic (hrun : Steps (WeakStep c) start h s) : ∃ k a,
    Steps (PoolAtomic.Step (bag T)) fresh k a ∧ k.filterMap Label.seen = h.filterMap visible ∧
    a.value = content s.inner ∧ ∀ k₁ k₂ id r,
      k = k₁++.sign (.answer id r)::k₂ → Performed k₁ id r := by
  have hone (h : List (Event T)) (u : Scene T) (e : Event T) (w : Scene T)
      (t : PoolAtomic.State (Content T) (Op T) (Answer T)) (hr : Steps (WeakStep c) start h u)
      (ht : Remembered u ∧ Related u.erase t) (hstep : WeakStep c u e w) :
      Shows (bag T) t (visible e) fun t' => Remembered w ∧ Related w.erase t' :=
    (weak_related (sound_run hr) ht.1 ht.2 hstep).mono fun _ ht' =>
      ⟨remembered_step (sound_run hr) ht.1 hstep,ht'⟩
  obtain ⟨k,a,hk,hseen,-,hrel⟩ := simulated (R := fun s a => Remembered s ∧ Related s.erase a)
    ⟨remembered_start,related_start⟩ hrun hone
  exact ⟨k,a,hk,hseen,hrel.1,fun k₁ k₂ id r heq => answer_performed hk heq⟩

/-- A send overlaps with a receive that finds nothing and with one that finds its values. -/
def overlapping : List (Command ℕ) :=
  [Command.call_send 0 false (.vec [1,2]),Command.act 0,Command.call_recv 0 false]++
    List.replicate 2 (Command.act 1)++List.replicate 3 (Command.act 0)++
    [Command.call_recv 0 false,Command.act 1]++List.replicate 5 (Command.act 0)

theorem bag_atomic_overlapping : ∃ (h : List (Event ℕ)) (s : Scene ℕ),
    Steps (WeakStep .release) start h s ∧ .received 2 .empty ∈ h ∧ .sent 1 .ok ∈ h ∧
    .received 3 (.ok [2,1]) ∈ h ∧ ∃ k a, Steps (PoolAtomic.Step (bag ℕ)) fresh k a ∧
      k.filterMap Label.seen = h.filterMap visible ∧ a.value = content s.inner := by
  obtain ⟨h,t,hr,h1,h2,h3⟩ := reaches (c := .release) overlapping (fun h _ =>
    .received 2 .empty ∈ h ∧ .sent 1 .ok ∈ h ∧ .received 3 (.ok [2,1]) ∈ h) (by decide +kernel)
  obtain ⟨s,hs,-⟩ := weak_of_run hr
  obtain ⟨k,a,hk,hseen,hv,-⟩ := bag_atomic hs
  exact ⟨h,s,hs,h1,h2,h3,k,a,hk,hseen,hv⟩

end Weak

end Lockness.BagAtomic
