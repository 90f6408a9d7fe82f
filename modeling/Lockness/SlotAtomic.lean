import Lockness.PoolAtomic
import Lockness.SlotBoard
import Lockness.SlotSchedule

/-!
# Every call on the slot takes effect at one moment

The slot is a cell for one value. A send that succeeds takes effect when it
commits, one that fails when its attempt returns the old word, and a receive when
it clears `COMMIT`. A sender that aborts never takes effect.
-/

set_option autoImplicit false

namespace Lockness.SlotAtomic
open Lockness.PoolRuns Lockness.PoolFutex Lockness.PoolSlots Lockness.PoolAtomic
open Lockness.SlotWords Lockness.SlotWords.SendStatus
open Lockness.SlotMachine Lockness.SlotMoves Lockness.SlotAttempts Lockness.SlotHandles
open Lockness.SlotBoard
open Lockness.SlotSchedule (Command reaches)

variable {c : Target} {T : Type*}

inductive Op (T : Type*) where
  | send (blocking : Bool) (data : T)
  | recv (blocking : Bool)

inductive Answer (T : Type*) where
  | sent (r : SendResult T)
  | received (r : RecvResult T)

inductive Gone where
  | senders
  | receiver

structure Content (T : Type*) where
  item : Option T
  senders_gone : Bool
  receiver_gone : Bool

def Content.shift (v : Content T) : Gone → Content T
  | .senders => { v with senders_gone := true }
  | .receiver => { v with receiver_gone := true }

/-- A send that meets no other call is told that the slot is full only if it is. -/
inductive Performs (n : ℕ) (v : Content T) : Op T → Answer T → Content T → Prop
  | send {b : Bool} {d : T} : v.item = none → v.senders_gone = false →
      Performs n v (.send b d) (.sent .ok) { v with item := some d }
  | full {d : T} : v.receiver_gone = false → (n = 0 → v.item ≠ none) →
      Performs n v (.send false d) (.sent (.full d)) v
  | refused {b : Bool} {d : T} : v.receiver_gone = true →
      Performs n v (.send b d) (.sent (refused b d)) v
  | recv {b : Bool} {x : T} : v.item = some x →
      Performs n v (.recv b) (.received (.ok x)) { v with item := none }
  | empty : v.item = none → v.senders_gone = false →
      Performs n v (.recv false) (.received .empty) v
  | ended {b : Bool} : v.item = none → v.senders_gone = true →
      Performs n v (.recv b) (.received (ended b)) v

def slot (T : Type*) : Object (Content T) (Op T) (Answer T) Gone where
  perform := Performs
  shift v g v' := v' = v.shift g

def fresh : PoolAtomic.State (Content T) (Op T) (Answer T) := ⟨⟨none,false,false⟩,0⟩

/-- What the users of the channel see of its events. -/
def visible : Event T → Option (Sign (Op T) (Answer T) Gone)
  | .sending id b d => some (.ask id (.send b d))
  | .receiving id b => some (.ask id (.recv b))
  | .sent id r => some (.answer id (.sent r))
  | .received id r => some (.answer id (.received r))
  | .sender_dead => some (.shift .senders)
  | .receiver_dead => some (.shift .receiver)
  | _ => none

def content (m : Inner c T) : Content T :=
  ⟨if RecvStatus.commit m.recv then m.slot else none,RecvStatus.dead m.recv,dead m.send⟩

def Sending (m : Inner c T) (b : Bool) (d : T) : SendPc c T → Prop
  | .attempt data => data = d
  | .check data prev => data = d ∧
      (aborts c prev = true ∨ dead prev = false ∧ (count prev = 0 ∨ b = true))
  | .abort => True
  | .write data => data = d
  | .commit => m.slot = some d
  | .wake => False
  | .spin data _ => b = true ∧ data = d
  | .sleep data _ => b = true ∧ data = d
  | .asleep data => b = true ∧ data = d
  | .rearm data => b = true ∧ data = d
  | .done _ => False

def Sent (b : Bool) : SendPc c T → SendResult T → Prop
  | .check data prev,r => aborts c prev = false ∧ (dead prev = true ∧ r = refused b data ∨
      dead prev = false ∧ count prev ≠ 0 ∧ b = false ∧ r = .full data)
  | .wake,r => r = .ok
  | .done q,r => r = q
  | _,_ => False

def Receiving : RecvPc T → Prop
  | .read => False
  | .release _ => False
  | .wake _ => False
  | .done _ => False
  | _ => True

def Received (m : Inner c T) : RecvPc T → RecvResult T → Prop
  | .read,r => ∃ x, m.slot = some x ∧ r = .ok x
  | .release x,r => r = .ok x
  | .wake x,r => r = .ok x
  | .done q,r => r = q
  | _,_ => False

inductive Match (m : Inner c T) : Party c T → ℕ × PoolAtomic.Call (Op T) (Answer T) → Prop
  | sending {id x : ℕ} {b : Bool} {d : T} {pc : SendPc c T} :
      Sending m b d pc → Match m (.send id b x pc) (id,.asked (.send b d))
  | sent {id x : ℕ} {b : Bool} {pc : SendPc c T} {r : SendResult T} :
      Sent b pc r → Match m (.send id b x pc) (id,.answered (.sent r))
  | receiving {id : ℕ} {b : Bool} {pc : RecvPc T} :
      Receiving pc → Match m (.recv id b pc) (id,.asked (.recv b))
  | received {id : ℕ} {b : Bool} {pc : RecvPc T} {r : RecvResult T} :
      Received m pc r → Match m (.recv id b pc) (id,.answered (.received r))

def calling : Party c T → Bool
  | .send _ _ _ _ => true
  | .recv _ _ _ => true
  | _ => false

theorem footprint_dropping {p : Party c T} (hp : calling p = false) : footprint p = .idle := by
  cases p with
  | send => cases hp
  | recv => cases hp
  | drop_sender => rfl
  | drop_receiver => rfl

section Moves

variable {h : List (Event T)} {m m' : Inner c T} {ss : Multiset ℕ} {r : Bool} {k n : ℕ}
  {p p' : Party c T} {rest : Multiset (Party c T)} {e : Event T}
  {y : ℕ × PoolAtomic.Call (Op T) (Answer T)}

theorem Match.frame (hm : Match m p y) (hown : () ∈ (footprint p).owned → m'.slot = m.slot) :
    Match m' p y := by
  cases hm with
  | @sending id x b d pc hs =>
    refine .sending ?_
    cases pc with
    | commit => exact (hown (by simp [footprint,Footprint.owned])).trans hs
    | _ => exact hs
  | sent hs => exact .sent hs
  | receiving hr => exact .receiving hr
  | @received id b pc q hr =>
    refine .received ?_
    cases pc with
    | read =>
      obtain ⟨v,hv,hq⟩ := hr
      exact ⟨v,(hown (by simp [footprint,Footprint.owned])).trans hv,hq⟩
    | _ => exact hr

theorem woken_match {w : Futex} {q : Party c T} (hw : woken w p = some q) :
    calling p = true ∧ calling q = true ∧ ∀ y, Match m p y → Match m q y := by
  rcases woken_cases hw with ⟨_,_,_,_,-,rfl,rfl⟩ | ⟨_,_,-,rfl,rfl⟩
  · refine ⟨rfl,rfl,fun y hy => ?_⟩
    cases hy with
    | sending hs => exact .sending hs
    | sent hs => exact hs.elim
  · refine ⟨rfl,rfl,fun y hy => ?_⟩
    cases hy with
    | receiving => exact .receiving trivial
    | received hr => exact hr.elim

theorem apart (hi : PoolSlots.Inv (view h ⟨m,ss,r,p ::ₘ rest,k⟩))
    (hp : () ∈ (footprint p).owned) :
    RecvStatus.commit m.recv = false ∧ ∀ q ∈ rest, () ∉ (footprint q).owned := by
  simp only [view, Multiset.map_cons] at hi
  obtain ⟨hready,-,hrest⟩ := hi.owned_apart hp
  refine ⟨?_,fun q hq => hrest _ (Multiset.mem_map_of_mem _ hq)⟩
  cases hc : RecvStatus.commit m.recv with
  | false => rfl
  | true => exact absurd (by simp [board,hc]) hready

theorem move_slot (hi : PoolSlots.Inv (view h ⟨m,ss,r,p ::ₘ rest,k⟩))
    (hm : PartyMove m p m' p' e) : ∀ q ∈ rest, ∀ y, Match m q y → Match m' q y := by
  have hown (hp : () ∈ (footprint p).owned) : ∀ q ∈ rest, ∀ y, Match m q y → Match m' q y :=
    fun q hq _ hy => hy.frame fun hmem => absurd hmem ((apart hi hp).2 q hq)
  have hsame (hs : m'.slot = m.slot) : ∀ q ∈ rest, ∀ y, Match m q y → Match m' q y :=
    fun _ _ _ hy => hy.frame fun _ => hs
  cases hm with
  | send hm =>
    cases hm with
    | write => exact hown (by simp [footprint,Footprint.owned])
    | _ => exact hsame rfl
  | recv hm =>
    cases hm with
    | read => exact hown (by simp [footprint,Footprint.owned])
    | _ => exact hsame rfl
  | drop hm => cases hm <;> exact hsame rfl

theorem ready_item (hi : PoolSlots.Inv (view h ⟨m,ss,r,rest,k⟩))
    (hc : RecvStatus.commit m.recv = true) : ∃ v, m.slot = some v :=
  Option.isSome_iff_exists.mp (hi.ready_some (i := ()) (by simp [view,board,hc]))

theorem full_alone (hi : PoolSlots.Inv (view h ⟨m,ss,r,rest,k⟩)) (hd : dead m.send = false)
    (h0 : count m.send ≠ 0) (hidle : ∀ q ∈ rest, footprint q = .idle) :
    (content m).item ≠ none := by
  have hnone (f : Footprint Unit T → Finset Unit) (hf : f .idle = ∅) :
      weigh (fun g => mark (f g) ()) (rest.map footprint) = 0 := by
    refine weigh_eq_zero _ fun g hg => ?_
    obtain ⟨q,hq,rfl⟩ := Multiset.mem_map.mp hg
    rw [hidle q hq, hf, mark_empty]
  have htaken : () ∈ (board m).taken := by simp [board,bne_iff_ne.mpr h0]
  have hown := hi.open_owned hd ()
  simp only [owners, reservers, claimers, view, hnone (fun g => g.reserved) rfl,
    hnone (fun g => g.claimed) rfl, mark_of_mem htaken] at hown
  have hready : () ∈ (board m).ready := mark_pos (by omega)
  have hc : RecvStatus.commit m.recv = true := by
    cases hc : RecvStatus.commit m.recv with
    | true => rfl
    | false => simp [board,hc] at hready
  obtain ⟨v,hv⟩ := ready_item hi hc
  simp [content,hc,hv]

theorem content_of_send {w : SendStatusU c} (hd : dead w = dead m.send) :
    content { m with send := w } = content m := by
  simp only [content, hd]

theorem content_of_slot {v : Option T} (hc : RecvStatus.commit m.recv = false) :
    content { m with slot := v } = content m := by
  simp [content,hc]

theorem follows_sending {id x : ℕ} {b : Bool} {d : T} {pc' : SendPc c T}
    (hv : content m' = content m) (hs : Sending m' b d pc') :
    Follows (slot T) (content m) (content m') (Match m' (.send id b x pc')) n
      (id,.asked (.send b d)) :=
  .inl ⟨hv,.sending hs⟩

theorem follows_sent {id x : ℕ} {b : Bool} {q : SendResult T} {pc' : SendPc c T}
    (hv : content m' = content m) (hs : Sent b pc' q) :
    Follows (slot T) (content m) (content m') (Match m' (.send id b x pc')) n
      (id,.answered (.sent q)) :=
  .inl ⟨hv,.sent hs⟩

theorem attempt_follows (hi : PoolSlots.Inv (view h ⟨m,ss,r,p ::ₘ rest,k⟩))
    (hcalm : ¬ Carries m.send) {id x : ℕ} {b : Bool} (d : T) (hp : footprint p = .idle)
    (hn : n = 0 → ∀ q ∈ rest, footprint q = .idle) :
    Follows (slot T) (content m) (content { m with send := SendStatus.attempt c m.send })
      (Match { m with send := SendStatus.attempt c m.send } (.send id b x (.check d m.send))) n
      (id,.asked (.send b d)) := by
  have hv : content { m with send := SendStatus.attempt c m.send } = content m :=
    content_of_send (attempt_spec hcalm).2.2.1
  by_cases ha : aborts c m.send = true
  · exact follows_sending hv ⟨rfl,.inl ha⟩
  rw [Bool.not_eq_true] at ha
  cases hd : dead m.send with
  | true =>
    refine .inr ⟨id,_,.sent (refused b d),rfl,?_,.sent ⟨ha,.inl ⟨hd,rfl⟩⟩⟩
    rw [hv]
    exact .refused hd
  | false =>
    by_cases h0 : count m.send = 0
    · exact follows_sending hv ⟨rfl,.inr ⟨hd,.inl h0⟩⟩
    cases b with
    | true => exact follows_sending hv ⟨rfl,.inr ⟨hd,.inr rfl⟩⟩
    | false =>
      refine .inr ⟨id,_,.sent (.full d),rfl,?_,.sent ⟨ha,.inr ⟨hd,h0,rfl,rfl⟩⟩⟩
      rw [hv]
      refine .full hd fun hn0 => full_alone hi hd h0 fun q hq => ?_
      rcases Multiset.mem_cons.mp hq with rfl | hq
      · exact hp
      · exact hn hn0 q hq

theorem sending_follows (hi : PoolSlots.Inv (view h ⟨m,ss,r,p ::ₘ rest,k⟩))
    (hk : Handles ⟨m,ss,r,p ::ₘ rest,k⟩) (hcalm : ¬ Carries m.send) {id x : ℕ} {b : Bool} {d : T}
    {pc pc' : SendPc c T} (hp : p = .send id b x pc)
    (hn : n = 0 → ∀ q ∈ rest, footprint q = .idle) (hm : SendMove m b pc m' pc' e)
    (hs : Sending m b d pc) :
    Follows (slot T) (content m) (content m') (Match m' (.send id b x pc')) n
      (id,.asked (.send b d)) := by
  subst hp
  cases hm with
  | attempt data =>
    obtain rfl : data = d := hs
    exact attempt_follows hi hcalm data rfl hn
  | abort => exact follows_sending rfl trivial
  | refuse ha hd =>
    rcases hs.2 with ha' | ⟨hd',-⟩
    · exact absurd (ha.symm.trans ha') Bool.false_ne_true
    · exact absurd (hd'.symm.trans hd) Bool.false_ne_true
  | full ha hd h0 =>
    obtain ⟨rfl,hs⟩ := hs
    rcases hs with ha' | ⟨-,h0' | rfl⟩
    · exact absurd (ha.symm.trans ha') Bool.false_ne_true
    · exact absurd h0' h0
    · exact follows_sending rfl ⟨rfl,rfl⟩
  | own => exact follows_sending rfl hs.1
  | write data =>
    obtain rfl : data = d := hs
    have hc := (apart hi (by simp [footprint,Footprint.owned])).1
    exact follows_sending (content_of_slot hc) (Eq.refl (some data))
  | commit =>
    have hc := (apart hi (by simp [footprint,Footprint.owned])).1
    have halive := (hk.senders_tallied.down (sender_held hk rfl)).2
    refine .inr ⟨id,_,.sent .ok,rfl,?_,.sent (by split <;> rfl)⟩
    have hv : content { m with recv := RecvStatus.COMMIT } =
        { content m with item := some d } := by
      simp only [content, RecvStatus.commit_COMMIT, RecvStatus.dead_COMMIT, if_true]
      rw [show m.slot = some d from hs, show RecvStatus.dead m.recv = false from halive]
    rw [hv]
    exact .send (by simp [content,hc]) halive
  | spin _ hd _ hcase =>
    obtain ⟨rfl,rfl⟩ := hs
    have hv := content_of_send hd
    rcases hcase with ⟨-,rfl⟩ | ⟨-,hdead,rfl⟩ | ⟨-,-,-,rfl⟩ | ⟨-,-,rfl⟩
    · exact follows_sending hv rfl
    · refine .inr ⟨id,_,.sent (.send_error _),rfl,?_,.sent rfl⟩
      rw [hv]
      exact .refused (b := true) (hd.symm.trans hdead)
    · exact follows_sending hv ⟨rfl,rfl⟩
    · exact follows_sending hv ⟨rfl,rfl⟩
  | sleep => exact follows_sending rfl hs
  | miss => exact follows_sending rfl hs
  | rearm => exact follows_sending (content_of_send (dead_or_SLEEPING _)) hs.2

theorem sent_follows {id x : ℕ} {b : Bool} {q : SendResult T} {pc pc' : SendPc c T}
    (hm : SendMove m b pc m' pc' e) (hs : Sent b pc q) :
    Follows (slot T) (content m) (content m') (Match m' (.send id b x pc')) n
      (id,.answered (.sent q)) := by
  cases hm with
  | abort ha => exact absurd (hs.1.symm.trans ha) Bool.false_ne_true
  | refuse ha hd =>
    rcases hs.2 with ⟨-,rfl⟩ | ⟨hd',-⟩
    · exact follows_sent rfl rfl
    · exact absurd (hd'.symm.trans hd) Bool.false_ne_true
  | full ha hd h0 =>
    rcases hs.2 with ⟨hd',-⟩ | ⟨-,-,rfl,rfl⟩
    · exact absurd (hd.symm.trans hd') Bool.false_ne_true
    · exact follows_sent rfl rfl
  | own hd h0 =>
    rcases hs.2 with ⟨hd',-⟩ | ⟨-,h0',-⟩
    · exact absurd (hd.symm.trans hd') Bool.false_ne_true
    · exact absurd h0 h0'
  | _ => exact hs.elim

theorem follows_receiving {id : ℕ} {b : Bool} {pc' : RecvPc T} (hv : content m' = content m)
    (hr : Receiving pc') :
    Follows (slot T) (content m) (content m') (Match m' (.recv id b pc')) n
      (id,.asked (.recv b)) :=
  .inl ⟨hv,.receiving hr⟩

theorem receiving_follows (hi : PoolSlots.Inv (view h ⟨m,ss,r,p ::ₘ rest,k⟩))
    (hk : Handles ⟨m,ss,r,p ::ₘ rest,k⟩) {id : ℕ} {b : Bool} {pc pc' : RecvPc T}
    (hp : p = .recv id b pc) (hm : RecvMove m b pc m' pc' e) (hr : Receiving pc) :
    Follows (slot T) (content m) (content m') (Match m' (.recv id b pc')) n
      (id,.asked (.recv b)) := by
  subst hp
  cases hm with
  | found => exact follows_receiving rfl trivial
  | ended _ hc hd =>
    exact .inr ⟨id,_,.received (ended b),rfl,.ended (by simp [content,hc]) hd,.received rfl⟩
  | empty i hc hd =>
    cases b with
    | true =>
      refine follows_receiving rfl ?_
      rw [if_pos rfl]
      split <;> trivial
    | false =>
      exact .inr ⟨id,_,.received .empty,rfl,.empty (by simp [content,hc]) hd,.received rfl⟩
  | clear =>
    have hc : RecvStatus.commit m.recv = true := by
      have hfound := hk.found
      cases hc : RecvStatus.commit m.recv with
      | true => rfl
      | false => simp [hc,clearing] at hfound
    obtain ⟨v,hv⟩ := ready_item hi hc
    refine .inr ⟨id,_,.received (.ok v),rfl,?_,.received ⟨v,hv,rfl⟩⟩
    have hcontent : content { m with recv := m.recv &&& RecvStatus.SENDER_DEAD } =
        { content m with item := none } := by
      simp [content]
    rw [hcontent]
    exact .recv (by simp [content,hc,hv])
  | arm =>
    refine follows_receiving ?_ (by split <;> trivial)
    simp [content]
  | sleep => exact follows_receiving rfl trivial
  | miss => exact follows_receiving rfl trivial
  | read => exact hr.elim
  | release => exact hr.elim

theorem received_follows (hi : PoolSlots.Inv (view h ⟨m,ss,r,p ::ₘ rest,k⟩))
    (ho : dead m.send = false) {id : ℕ} {b : Bool} {q : RecvResult T} {pc pc' : RecvPc T}
    (hp : p = .recv id b pc) (hm : RecvMove m b pc m' pc' e) (hr : Received m pc q) :
    Follows (slot T) (content m) (content m') (Match m' (.recv id b pc')) n
      (id,.answered (.received q)) := by
  subst hp
  cases hm with
  | read hv =>
    obtain ⟨x,hx,rfl⟩ := hr
    obtain rfl := Option.some.inj (hv.symm.trans hx)
    have hc := (apart hi (by simp [footprint,Footprint.owned])).1
    exact .inl ⟨content_of_slot hc,.received rfl⟩
  | release value =>
    obtain rfl := hr
    exact .inl ⟨content_of_send (by rw [ho]; exact dead_zero c),.received (by split <;> rfl)⟩
  | _ => exact hr.elim

theorem drop_content (hm : DropMove m p m' p' e) : calling p = false ∧ calling p' = false ∧
    (visible e = none ∧ content m' = content m ∨
      ∃ g, visible e = some (.shift g) ∧ content m' = (content m).shift g) := by
  cases hm with
  | sender_raise => exact ⟨rfl,rfl,.inr ⟨.senders,rfl,by simp [content,Content.shift]⟩⟩
  | receiver_raise => exact ⟨rfl,rfl,.inr ⟨.receiver,rfl,by simp [content,Content.shift]⟩⟩
  | _ => exact ⟨rfl,rfl,.inl ⟨rfl,rfl⟩⟩

end Moves

def Related (s : SlotMachine.State c T) :
    PoolAtomic.State (Content T) (Op T) (Answer T) → Prop :=
  PoolAtomic.Related calling (Match s.inner) (content s.inner) s.calls

section Steps

variable {h : List (Event T)} {s s' : SlotMachine.State c T} {m m' : Inner c T} {ss : Multiset ℕ}
  {r : Bool} {k : ℕ} {p p' : Party c T} {rest : Multiset (Party c T)} {e : Event T}
  {a : PoolAtomic.State (Content T) (Op T) (Answer T)}

theorem move_related (hi : PoolSlots.Inv (view h ⟨m,ss,r,p ::ₘ rest,k⟩))
    (hk : Handles ⟨m,ss,r,p ::ₘ rest,k⟩) (ho : OpenOrDead ⟨m,ss,r,p ::ₘ rest,k⟩)
    (hcalm : ¬ Carries m.send) (ha : Related ⟨m,ss,r,p ::ₘ rest,k⟩ a)
    (hm : PartyMove m p m' p' e) :
    Shows (slot T) a (visible e) (Related ⟨m',ss,r,p' ::ₘ rest,k⟩) := by
  have hframe := move_slot hi hm
  cases hm with
  | @send id b x pc pc' m' e hm =>
    have he : visible e = none := by
      cases hm <;> first | rfl | (split <;> rfl)
    rw [he]
    refine PoolAtomic.Related.move ha rfl rfl hframe fun n y hn hy => ?_
    cases hy with
    | sending hs =>
      exact sending_follows hi hk hcalm rfl (fun h0 q hq => footprint_dropping (hn h0 q hq)) hm hs
    | sent hs => exact sent_follows hm hs
  | @recv id b pc pc' m' e hm =>
    have he : visible e = none := by cases hm <;> rfl
    rw [he]
    refine PoolAtomic.Related.move ha rfl rfl hframe fun n y _ hy => ?_
    cases hy with
    | receiving hr => exact receiving_follows hi hk rfl hm hr
    | received hr => exact received_follows hi (receive_open hk ho rfl) rfl hm hr
  | drop hm =>
    obtain ⟨hp,hp',hcase⟩ := drop_content hm
    have hrest := ((related_pass hp).mp ha).frame hframe
    rcases hcase with ⟨he,hv⟩ | ⟨g,he,hv⟩
    · rw [he]
      refine .still ((related_pass hp').mpr ?_)
      simpa only [hv] using hrest
    · rw [he]
      exact (hrest.shifts (O := slot T) hv).mono fun _ => (related_pass hp').mpr

theorem wake_related (ha : Related ⟨m,ss,r,p ::ₘ rest,k⟩ a) {w : Futex} {n : ℕ}
    (hw : Waking p w n p') {calls : Multiset (Party c T)} (hwake : Wake (woken w) n rest calls) :
    Related ⟨m,ss,r,p' ::ₘ calls,k⟩ a := by
  have hdrop (hp : calling p = false) (hp' : calling p' = false) :
      Related ⟨m,ss,r,p' ::ₘ calls,k⟩ a :=
    (related_pass hp').mpr (((related_pass hp).mp ha).wake hwake fun _ _ => woken_match)
  have hcall (hp : calling p = true) (hp' : calling p' = true)
      (hm : ∀ y, Match m p y → Match m p' y) : Related ⟨m,ss,r,p' ::ₘ calls,k⟩ a := by
    obtain ⟨y,ys,rfl,hy,hys⟩ := PoolAtomic.Related.call ha hp
    exact (hys.wake hwake fun _ _ => woken_match).enter hp' (hm y hy)
  cases hw with
  | send =>
    refine hcall rfl rfl fun y hy => ?_
    cases hy with
    | sending hs => exact hs.elim
    | sent hs => exact .sent hs
  | recv =>
    refine hcall rfl rfl fun y hy => ?_
    cases hy with
    | receiving hr => exact hr.elim
    | received hr => exact .received hr
  | drop_sender => exact hdrop rfl rfl
  | drop_receiver => exact hdrop rfl rfl

theorem exit_related (ha : Related ⟨m,ss,r,p ::ₘ rest,k⟩ a) (hx : Exit m p m' e) :
    Shows (slot T) a (visible e) (Related ⟨m',ss,r,rest,k⟩) := by
  obtain ⟨hsend,hrecv,-,hslot⟩ := exit_frame hx
  have hdrop (hp : calling p = false) : Related ⟨m',ss,r,rest,k⟩ a := by
    have hv : content m' = content m := by rw [content, content, hsend, hrecv, hslot]
    have hframe : ∀ q ∈ rest, ∀ y, Match m q y → Match m' q y :=
      fun _ _ _ hy => hy.frame fun _ => hslot
    have hrest := ((related_pass hp).mp ha).frame hframe
    simpa only [Related, hv] using hrest
  cases hx with
  | send =>
    refine PoolAtomic.Related.answers ha rfl fun y hy => ?_
    cases hy with
    | sending hs => exact hs.elim
    | sent hs => rw [show _ = _ from hs]
  | recv =>
    refine PoolAtomic.Related.answers ha rfl fun y hy => ?_
    cases hy with
    | receiving hr => exact hr.elim
    | received hr => rw [show _ = _ from hr]
  | sender_release => exact .still (hdrop rfl)
  | receiver_release => exact .still (hdrop rfl)
  | sender_free => exact .still (hdrop rfl)
  | receiver_free => exact .still (hdrop rfl)

theorem related_step (hi : PoolSlots.Inv (view h s)) (hk : Handles s) (ho : OpenOrDead s)
    (ha : Related s a) (hstep : CalmStep s e s') :
    Shows (slot T) a (visible e) (Related s') := by
  obtain ⟨hstep,hcalm⟩ := hstep
  cases step_moves hstep with
  | move hm => exact move_related hi hk ho hcalm ha hm
  | wake hp hw => exact .still (wake_related ha hp hw)
  | spurious hw =>
    exact .still (PoolAtomic.Related.wake (.single hw _) (fun _ _ => woken_match) ha)
  | exit hx => exact exit_related ha hx
  | call_send b d => exact PoolAtomic.Related.asks ha rfl (.sending (Eq.refl d))
  | call_recv b => exact PoolAtomic.Related.asks ha rfl (.receiving trivial)
  | clone_sender =>
    exact .still (PoolAtomic.Related.frame ha fun _ _ _ hy => hy.frame fun _ => rfl)
  | drop_sender => exact .still ((related_pass rfl).mpr ha)
  | drop_receiver => exact .still ((related_pass rfl).mpr ha)

/-- What can be seen of any run of the channel can be seen of a cell each of whose calls
takes effect at once, after it was made and before it returns. -/
theorem slot_atomic (hrun : Steps SlotMachine.Step mpsc h s) (hn : s.calls.card ≤ 2^60) : ∃ k a,
    Steps (PoolAtomic.Step (slot T)) fresh k a ∧ k.filterMap Label.seen = h.filterMap visible ∧
    a.value = content s.inner ∧ ∀ k₁ k₂ id r,
      k = k₁++.sign (.answer id r)::k₂ → Performed k₁ id r := by
  have hcalm := (calm_run hrun ((aborting_le_card s).trans hn)).1
  have hstart : Related (mpsc : SlotMachine.State c T) fresh := by
    constructor
    · simp [fresh,content,mpsc]
    · simp [under_way,mpsc,fresh]
  have hone (h : List (Event T)) (u : SlotMachine.State c T) (e : Event T)
      (w : SlotMachine.State c T) (t : PoolAtomic.State (Content T) (Op T) (Answer T))
      (hr : Steps CalmStep mpsc h u) (ha : Related u t) (hs : CalmStep u e w) :
      Shows (slot T) t (visible e) (Related w) :=
    related_step (slots_run hr) (handles_run hr.of_when) (open_run hr) ha hs
  obtain ⟨k,a,hk,hseen,hrel⟩ := simulated hstart hcalm hone
  exact ⟨k,a,hk,hseen,hrel.1,fun k₁ k₂ id r heq => answer_performed hk heq⟩

/-- While one sender has the slot, a second one and the receiver are turned away. -/
def turned_away : List (Command ℕ) :=
  [Command.clone_sender 0,Command.call_send 0 false 7]++List.replicate 2 (Command.act 0)++
    [Command.call_send 1 false 8]++List.replicate 3 (Command.act 1)++[Command.call_recv false]++
    List.replicate 2 (Command.act 1)++List.replicate 3 (Command.act 0)++[Command.call_recv true]++
    List.replicate 5 (Command.act 0)

theorem slot_atomic_turned_away : ∃ (h : List (Event ℕ)) (s : SlotMachine.State .x86_64 ℕ),
    Steps SlotMachine.Step mpsc h s ∧ .sent 3 (.full 8) ∈ h ∧ .received 4 .empty ∈ h ∧
    .sent 2 .ok ∈ h ∧ .received 5 (.ok 7) ∈ h ∧ ∃ k a, Steps (PoolAtomic.Step (slot ℕ)) fresh k a ∧
      k.filterMap Label.seen = h.filterMap visible ∧ a.value = content s.inner := by
  obtain ⟨h,s,hr,hn,h1,h2,h3,h4⟩ := reaches .x86_64 turned_away
    (fun h s => s.calls.card ≤ 2^60 ∧ .sent 3 (.full 8) ∈ h ∧ .received 4 .empty ∈ h ∧
      .sent 2 .ok ∈ h ∧ .received 5 (.ok 7) ∈ h) (by decide +kernel)
  obtain ⟨k,a,hk,hseen,hv,-⟩ := slot_atomic hr hn
  exact ⟨h,s,hr,h1,h2,h3,h4,k,a,hk,hseen,hv⟩

end Steps

end Lockness.SlotAtomic
