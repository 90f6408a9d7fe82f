import Mathlib.Data.Multiset.OrderedMonoid
import Lockness.BagFinality
import Lockness.PoolAtomic

/-!
# The bag as one object

The bag is a multiset of at most thirty values. A send puts some of its last
values in at once, a receive takes everything out at once, and each failure is
true of one moment. In the code a send takes effect when it commits and a receive
when it claims; what either does in its slots before and after concerns nobody
else.
-/

set_option autoImplicit false

namespace Lockness.BagObject
open Lockness.PoolFutex Lockness.PoolSlots Lockness.PoolAtomic Lockness.BagMasks
open Lockness.BagMachine Lockness.BagMoves Lockness.BagInversion Lockness.BagHandles
open Lockness.BagBoard Lockness.BagOwnership Lockness.BagFinality

variable {T : Type*}

inductive Op (T : Type*) where
  | send (blocking : Bool) (data : SendBuffer T)
  | recv (blocking : Bool)

/-- The order in which a receive returns its values is not specified. -/
inductive Answer (T : Type*) where
  | sent (r : SendResult T)
  | values (values : Multiset T)
  | empty
  | disconnected
  | recv_error

inductive Gone where
  | senders
  | receivers

structure Content (T : Type*) where
  items : Multiset T
  senders_gone : Bool
  receivers_gone : Bool

def Content.shift (v : Content T) : Gone → Content T
  | .senders => { v with senders_gone := true }
  | .receivers => { v with receivers_gone := true }

/-- A send that meets no other call is told that the bag is full only if it is. -/
inductive Performs (n : ℕ) (v : Content T) : Op T → Answer T → Content T → Prop
  | nothing {b : Bool} {d : SendBuffer T} : d.contents = [] →
      Performs n v (.send b d) (.sent .ok) v
  | send {b : Bool} {d : SendBuffer T} {kept stored : List T} : v.senders_gone = false →
      d.contents = kept++stored → stored ≠ [] → v.items.card+stored.length ≤ N →
      Performs n v (.send b d) (.sent .ok) { v with items := v.items+stored }
  | full {d : SendBuffer T} : d.contents ≠ [] → v.receivers_gone = false →
      (n = 0 → v.items.card = N) → Performs n v (.send false d) (.sent (.full d)) v
  | refused {b : Bool} {d : SendBuffer T} : d.contents ≠ [] → v.receivers_gone = true →
      Performs n v (.send b d) (.sent (if b then .send_error d else .disconnected d)) v
  | recv {b : Bool} : v.items ≠ 0 →
      Performs n v (.recv b) (.values v.items) { v with items := 0 }
  | empty : v.items = 0 → v.senders_gone = false → Performs n v (.recv false) .empty v
  | disconnected {b : Bool} : v.items = 0 → v.senders_gone = true →
      Performs n v (.recv b) (if b then .recv_error else .disconnected) v

def bag (T : Type*) : Object (Content T) (Op T) (Answer T) Gone where
  perform := Performs
  shift v g v' := v' = v.shift g

def fresh : PoolAtomic.State (Content T) (Op T) (Answer T) := ⟨⟨0,false,false⟩,0⟩

def answer : RecvResult T → Answer T
  | .ok values => .values values
  | .empty => .empty
  | .disconnected => .disconnected
  | .recv_error => .recv_error

/-- What the users of the channel see of its events. -/
def visible : Event T → Option (Sign (Op T) (Answer T) Gone)
  | .sending id b d => some (.ask id (.send b d))
  | .receiving id b => some (.ask id (.recv b))
  | .sent id r => some (.answer id (.sent r))
  | .received id r => some (.answer id (answer r))
  | .sender_dead => some (.shift .senders)
  | .receiver_dead => some (.shift .receivers)
  | _ => none

def content (m : Inner T) : Content T :=
  ⟨cells m.bag (slots m.recv),dead (~~~m.recv),dead m.send⟩

def Sending (m : Inner T) (b : Bool) (d : SendBuffer T) : SendPc T → Prop
  | .write data reserved todo => slots (N := 30) todo ⊆ slots reserved ∧
      (slots (N := 30) reserved).Nonempty ∧ ∃ stored, d.contents = data.contents++stored ∧
        (stored : Multiset T) = cells m.bag (slots reserved \ slots todo)
  | .wake => False
  | .done _ => False
  | pc => SendOk b d pc ∧ d.contents ≠ []

def Sent (pc : SendPc T) (r : SendResult T) : Prop := pc = .wake ∧ r = .ok ∨ pc = .done r

def Receiving : RecvPc T → Prop
  | .read _ _ _ => False
  | .wake _ => False
  | .done _ => False
  | _ => True

def Received (m : Inner T) : RecvPc T → Answer T → Prop
  | .read claimed todo values,r => slots (N := 30) todo ⊆ slots claimed ∧
      r = .values (values+cells m.bag (slots todo))
  | .wake values,r => r = .values values
  | .done q,r => r = answer q
  | _,_ => False

inductive Match (m : Inner T) : Party T → ℕ × PoolAtomic.Call (Op T) (Answer T) → Prop
  | sending {id : ℕ} {b : Bool} {x : Sender} {d : SendBuffer T} {pc : SendPc T} :
      Sending m b d pc → Match m (.send id b x pc) (id,.asked (.send b d))
  | sent {id : ℕ} {b : Bool} {x : Sender} {pc : SendPc T} {r : SendResult T} :
      Sent pc r → Match m (.send id b x pc) (id,.answered (.sent r))
  | receiving {id : ℕ} {b : Bool} {x : ℕ} {pc : RecvPc T} :
      Receiving pc → Match m (.recv id b x pc) (id,.asked (.recv b))
  | received {id : ℕ} {b : Bool} {x : ℕ} {pc : RecvPc T} {r : Answer T} :
      Received m pc r → Match m (.recv id b x pc) (id,.answered r)

def calling : Party T → Bool
  | .send _ _ _ _ => true
  | .recv _ _ _ _ => true
  | _ => false

section Match

variable {m m' : Inner T} {p : Party T} {x : ℕ × PoolAtomic.Call (Op T) (Answer T)}

theorem Match.frame (hm : Match m p x) (hown : ∀ i ∈ owned p, m'.bag i = m.bag i) :
    Match m' p x := by
  have hcells (t : Finset Slot) (ht : t ⊆ owned p) : cells m'.bag t = cells m.bag t :=
    Finset.sum_congr rfl fun i hi => congrArg cell (hown i (ht hi))
  cases hm with
  | @sending id b x d pc hs =>
    refine .sending ?_
    cases pc with
    | write data reserved todo =>
      obtain ⟨hsub,hne,stored,hd,hcell⟩ := hs
      refine ⟨hsub,hne,stored,hd,?_⟩
      rw [hcell, hcells]
      simp [owned,footprint]
    | _ => exact hs
  | sent hs => exact .sent hs
  | receiving hr => exact .receiving hr
  | @received id b x pc r hr =>
    refine .received ?_
    cases pc with
    | read claimed todo values =>
      obtain ⟨hsub,rfl⟩ := hr
      refine ⟨hsub,?_⟩
      rw [hcells]
      simpa [owned,footprint] using hsub
    | _ => exact hr

theorem Match.woken {w : Futex} {q : Party T} (hm : Match m p x) (hw : woken w p = some q) :
    Match m q x := by
  rcases woken_cases hw with ⟨id,b,y,d,-,rfl,rfl⟩ | ⟨id,b,y,-,rfl,rfl⟩
  · cases hm with
    | sending hs => exact .sending hs
    | sent hs => rcases hs with ⟨hs,-⟩ | hs <;> cases hs
  · cases hm with
    | receiving => exact .receiving trivial
    | received hr => exact hr.elim

end Match

section Moves

variable {h : List (Event T)} {s : BagMachine.State T} {m' : Inner T} {p p' : Party T}
  {rest : Multiset (Party T)} {e : Event T} {n : ℕ}
  {y : ℕ × PoolAtomic.Call (Op T) (Answer T)}

theorem content_of_send {m : Inner T} {w : Word} (hd : dead w = dead m.send) :
    content { m with send := w } = content m := by
  simp only [content, hd]

theorem content_of_recv {m : Inner T} {w : Word} (hs : slots (N := 30) w = slots m.recv)
    (hd : dead (~~~w) = dead (~~~m.recv)) : content { m with recv := w } = content m := by
  simp only [content, hs, hd]

theorem content_of_bag {m : Inner T} {i : Slot} {v : Option T} (hi : i ∉ slots (N := 30) m.recv) :
    content { m with bag := Function.update m.bag i v } = content m := by
  simp only [content, cells_update_notMem v hi]

theorem sending_try_send {m : Inner T} {x : Sender} {b : Bool} {d : SendBuffer T}
    (hb : x.bias < 30) (hd : d.contents ≠ []) : Sending m b d (try_send x d) := by
  have hok := try_send_ok hb b d
  rcases try_send_spec x d with ⟨h0,-⟩ | ⟨-,data,-,ht⟩
  · exact absurd h0 hd
  · rw [ht] at hok ⊢
    exact ⟨hok,hd⟩

theorem move_bag (hi : PoolSlots.Inv (view h s)) (hc : s.calls = p ::ₘ rest) (hok : Ok p)
    (hm : PartyMove s.inner p m' p' e) : ∀ q ∈ rest, ∀ i ∈ owned q, m'.bag i = s.inner.bag i := by
  have hother {i : Slot} {v : Option T} (hi' : i ∈ owned p) : ∀ q ∈ rest, ∀ j ∈ owned q,
      Function.update s.inner.bag i v j = s.inner.bag j := by
    intro q hq j hj
    refine Function.update_of_ne ?_ _ _
    rintro rfl
    exact (owned_apart hi hc hi').2.2 q hq hj
  cases hm with
  | send hm =>
    cases hm with
    | write hmem =>
      obtain ⟨-,d,hsub,-⟩ := hok
      exact hother (by simpa [owned,footprint] using hsub hmem)
    | _ => exact fun _ _ _ _ => rfl
  | recv hm =>
    cases hm with
    | read hmem => exact hother (by simpa [owned,footprint] using hok.1 hmem)
    | _ => exact fun _ _ _ _ => rfl
  | drop hm => cases hm <;> exact fun _ _ _ _ => rfl

theorem full_alone (hi : PoolSlots.Inv (view h s)) (ho : dead s.inner.send = false)
    (hs : slots (N := 30) s.inner.send = Finset.univ)
    (hidle : ∀ p ∈ s.calls, footprint p = .idle) : (content s.inner).items.card = N := by
  have hready : slots (N := 30) s.inner.recv = Finset.univ := by
    ext i
    refine iff_of_true ?_ (Finset.mem_univ i)
    rcases owner_of_taken hi ho (hs ▸ Finset.mem_univ i) with hr | ⟨q,hq,hown⟩
    · exact hr
    · simp [reserving,claiming,hidle q hq,Footprint.idle] at hown
  have hcard : (cells s.inner.bag (slots s.inner.recv)).card = (slots s.inner.recv).card :=
    card_cells (fun i hr => hi.ready_some hr)
  rw [content, hcard, hready, Finset.card_univ, Fintype.card_fin]

theorem cells_write {bag : Slot → Option T} {i : Slot} {v : T} {r t : Finset Slot} (hr : i ∈ r)
    (ht : i ∈ t) : cells (Function.update bag i (some v)) (r \ t.erase i) =
      {v}+cells bag (r \ t) := by
  have hnew : i ∉ r \ t := by simp [ht]
  rw [Finset.sdiff_erase hr, cells, Finset.sum_insert hnew, ← cells, cells_update_notMem _ hnew,
    Function.update_self]
  rfl

theorem cells_read {bag : Slot → Option T} {i : Slot} {v : T} {t : Finset Slot} (ht : i ∈ t)
    (hv : bag i = some v) : {v}+cells (Function.update bag i none) (t.erase i) = cells bag t := by
  have hnew : i ∉ t.erase i := by simp
  have hcell : ({v} : Multiset T) = cell (bag i) := by rw [hv, cell_some]
  rw [cells_update_notMem _ hnew, hcell]
  exact Finset.add_sum_erase t (fun j => cell (bag j)) ht

theorem committed_fits (hi : PoolSlots.Inv (view h s)) {id : ℕ} {b : Bool} {x : Sender}
    {data : Container T} {reserved todo : Word}
    (hc : s.calls = .send id b x (.write data reserved todo) ::ₘ rest)
    (h0 : slots (N := 30) todo = ∅) :
    Disjoint (slots (N := 30) s.inner.recv) (slots reserved) ∧
    (cells s.inner.bag (slots reserved)).card = (slots (N := 30) reserved).card ∧
    (cells s.inner.bag (slots s.inner.recv)).card+
      (cells s.inner.bag (slots reserved)).card ≤ N := by
  have hdisj : Disjoint (slots (N := 30) s.inner.recv) (slots reserved) :=
    Finset.disjoint_right.mpr fun i hmem =>
      (owned_apart hi hc (by simpa [owned,footprint] using hmem)).1
  refine ⟨hdisj,card_cells fun i hmem => ?_,?_⟩
  · simp only [view, hc, Multiset.map_cons, footprint] at hi
    exact hi.written_some (by simpa [h0] using hmem)
  · rw [← Multiset.card_add, ← cells_union hdisj]
    refine (card_cells_le _ _).trans ((Finset.card_le_univ _).trans ?_)
    simp

theorem follows_sending {m : Inner T} {id : ℕ} {b : Bool} {x : Sender} {d : SendBuffer T}
    {pc' : SendPc T} (hv : content m' = content m) (hs : Sending m' b d pc') :
    Follows (bag T) (content m) (content m') (Match m' (.send id b x pc')) n
      (id,.asked (.send b d)) :=
  .inl ⟨hv,.sending hs⟩

theorem send_spin_follows {m : Inner T} {id spin : ℕ} {b : Bool} {x : Sender}
    {d data : SendBuffer T} {pc : SendPc T} {w : Word} (hb : x.bias < 30)
    (hs : Sending m b d (.spin data spin)) (hok : SendOk b d pc) (hv : content m' = content m)
    (hd : dead w = true → dead m.send = true)
    (hcase : slots (N := 30) w ≠ Finset.univ ∧ pc = try_send x data ∨
      slots (N := 30) w = Finset.univ ∧ dead w = true ∧ pc = .done (.send_error data) ∨
      slots (N := 30) w = Finset.univ ∧ dead w = false ∧ sleeping w = true ∧ pc = .sleep data w ∨
      0 < spin ∧ pc = .spin data (spin-1)) :
    Follows (bag T) (content m) (content m') (Match m' (.send id b x pc)) n
      (id,.asked (.send b d)) := by
  obtain ⟨⟨rfl,rfl,-⟩,hne⟩ := hs
  rcases hcase with ⟨-,rfl⟩ | ⟨-,hdead,rfl⟩ | ⟨-,-,-,rfl⟩ | ⟨-,rfl⟩
  · exact follows_sending hv (sending_try_send hb hne)
  · refine .inr ⟨id,_,.sent (.send_error data),rfl,?_,.sent (.inr rfl)⟩
    rw [hv]
    exact .refused (b := true) hne (hd hdead)
  · exact follows_sending hv ⟨hok,hne⟩
  · exact follows_sending hv ⟨hok,hne⟩

theorem send_follows (hi : PoolSlots.Inv (view h s)) (hk : Handles h s) {id : ℕ} {b : Bool}
    {x : Sender} {pc pc' : SendPc T} (hc : s.calls = .send id b x pc ::ₘ rest)
    (hn : n = 0 → ∀ q ∈ rest, footprint q = .idle) (hm : SendMove s.inner b x pc m' pc' e)
    (hy : Match s.inner (.send id b x pc) y) :
    Follows (bag T) (content s.inner) (content m') (Match m' (.send id b x pc')) n y := by
  have hp : Party.send id b x pc ∈ s.calls := by simp [hc]
  have hb : x.bias < 30 := hk.bias x (hk.sender _ hp x rfl)
  have hnext {d : SendBuffer T} (hok : SendOk b d pc) := send_move_ok hok hb hm
  cases hy with
  | sent hs => rcases hs with ⟨rfl,-⟩ | rfl <;> cases hm
  | @sending _ _ _ d _ hs =>
    cases hm with
    | @refuse items data d' mask w hr hd _ _ hd' _ =>
      obtain ⟨hok,hne⟩ := hs
      obtain rfl := hok.1.unique hr
      have hv : content { s.inner with send := w } = content s.inner :=
        content_of_send (hd'.trans hd.symm)
      refine .inr ⟨id,_,_,rfl,?_,.sent (.inr rfl)⟩
      rw [hv]
      exact .refused hne hd
    | @full items data d' mask hr hd hfull =>
      have hok' := hnext hs.1
      obtain ⟨hok,hne⟩ := hs
      obtain rfl := hok.1.unique hr
      cases b with
      | true => exact follows_sending rfl ⟨hok',hne⟩
      | false =>
        refine .inr ⟨id,_,_,rfl,.full hne hd (fun h0 => ?_),.sent (.inr rfl)⟩
        refine full_alone hi hd hfull (fun q hq => ?_)
        rcases Multiset.mem_cons.mp (hc ▸ hq) with rfl | hq
        · rfl
        · exact hn h0 q hq
    | @reserve items data mask reserved w hd _ hres _ hd' _ =>
      refine follows_sending (content_of_send (hd'.trans hd.symm)) ⟨subset_rfl,hres,[],?_,?_⟩
      · simp [hs.1.1.2]
      · simp
    | retry => exact follows_sending rfl ⟨hnext hs.1,hs.2⟩
    | @write data data' reserved todo todo' i v hmem ht htake =>
      obtain ⟨hsub,hres,stored,hd,hcell⟩ := hs
      have hown : i ∈ owned (.send id b x (.write data reserved todo)) := by
        simpa [owned,footprint] using hsub hmem
      refine follows_sending (content_of_bag (owned_apart hi hc hown).1) ⟨?_,hres,v::stored,?_,?_⟩
      · rw [ht]
        exact (Finset.erase_subset _ _).trans hsub
      · rw [hd, take_spec htake]
        simp
      · rw [ht, cells_write (hsub hmem) hmem, ← hcell]
        rfl
    | @commit data reserved todo w h0 hw hd' _ =>
      obtain ⟨-,hres,stored,hd,hcell⟩ := hs
      rw [h0, Finset.sdiff_empty] at hcell
      obtain ⟨hdisj,hcard,hroom⟩ := committed_fits hi hc h0
      rw [← hcell, Multiset.coe_card] at hcard hroom
      have hitems : cells s.inner.bag (slots (N := 30) w) =
          cells s.inner.bag (slots s.inner.recv)+stored := by
        rw [hw, cells_union hdisj, hcell]
      have halive := (hk.senders_tallied.down (hk.sender_pos hp rfl)).2
      refine .inr ⟨id,_,.sent .ok,rfl,?_,.sent ?_⟩
      · have hv : content { s.inner with recv := w } =
            { content s.inner with items := (content s.inner).items+stored } := by
          simp only [content, hitems, hd']
          rw [show dead (~~~s.inner.recv) = false from halive]
        rw [hv]
        refine .send halive hd (List.ne_nil_of_length_pos ?_) hroom
        rw [hcard]
        exact Finset.card_pos.mpr hres
      · split
        · exact .inl ⟨rfl,rfl⟩
        · exact .inr rfl
    | @spin data spin pc w hw hd hsl hcase =>
      exact send_spin_follows hb hs (hnext hs.1) (content_of_send hd)
        (fun h0 => hd.symm.trans h0) hcase
    | sleep => exact follows_sending rfl ⟨hnext hs.1,hs.2⟩
    | miss => exact follows_sending rfl ⟨hnext hs.1,hs.2⟩
    | @rearm data w hw hd hsl =>
      rw [hs.1.2.1]
      exact follows_sending (content_of_send hd) (sending_try_send hb hs.2)

theorem follows_receiving {m : Inner T} {id : ℕ} {b : Bool} {x : ℕ} {pc' : RecvPc T}
    (hv : content m' = content m) (hr : Receiving pc') :
    Follows (bag T) (content m) (content m') (Match m' (.recv id b x pc')) n
      (id,.asked (.recv b)) :=
  .inl ⟨hv,.receiving hr⟩

theorem follows_received {m : Inner T} {id : ℕ} {b : Bool} {x : ℕ} {pc' : RecvPc T}
    {r : Answer T} (hv : content m' = content m) (hr : Received m' pc' r) :
    Follows (bag T) (content m) (content m') (Match m' (.recv id b x pc')) n (id,.answered r) :=
  .inl ⟨hv,.received hr⟩

theorem follows_none {m : Inner T} {id : ℕ} {b : Bool} {x : ℕ} (hv : content m' = content m)
    (h0 : slots (N := 30) m.recv = ∅) (hd : dead (~~~m.recv) = true) {r : RecvResult T}
    (hr : answer r = if b then .recv_error else .disconnected) :
    Follows (bag T) (content m) (content m') (Match m' (.recv id b x (.done r))) n
      (id,.asked (.recv b)) := by
  refine .inr ⟨id,_,_,rfl,?_,.received (Eq.refl (answer r))⟩
  rw [hv, hr]
  refine .disconnected ?_ hd
  simp only [content, h0, cells_empty]

theorem recv_spin_follows {m : Inner T} {id x spin : ℕ} {b : Bool} {pc : RecvPc T} {w : Word}
    (hb : b = true) (hv : content m' = content m)
    (hd : dead (~~~w) = true → slots (N := 30) w = ∅ → Over m)
    (hcase : (slots (N := 30) w).Nonempty ∧ pc = .claim ∨
      slots (N := 30) w = ∅ ∧ dead (~~~w) = true ∧ pc = .done .recv_error ∨
      slots (N := 30) w = ∅ ∧ dead (~~~w) = false ∧ sleeping (~~~w) = true ∧ pc = .sleep w ∨
      0 < spin ∧ pc = .spin (spin-1)) :
    Follows (bag T) (content m) (content m') (Match m' (.recv id b x pc)) n
      (id,.asked (.recv b)) := by
  rcases hcase with ⟨-,rfl⟩ | ⟨h0,hdead,rfl⟩ | ⟨-,-,-,rfl⟩ | ⟨-,rfl⟩
  · exact follows_receiving hv trivial
  · obtain ⟨hflag,hempty⟩ := hd hdead h0
    exact follows_none hv hempty hflag (by rw [hb]; rfl)
  · exact follows_receiving hv trivial
  · exact follows_receiving hv trivial

theorem recv_follows (hi : PoolSlots.Inv (view h s)) (hk : Handles h s) {id x : ℕ} {b : Bool}
    {pc pc' : RecvPc T} (hc : s.calls = .recv id b x pc ::ₘ rest)
    (hm : RecvMove s.inner b pc m' pc' e) (hy : Match s.inner (.recv id b x pc) y) :
    Follows (bag T) (content s.inner) (content m') (Match m' (.recv id b x pc')) n y := by
  have hp : Party.recv id b x pc ∈ s.calls := by simp [hc]
  have hok := hk.ok _ hp
  cases hy with
  | receiving =>
    cases hm with
    | none h0 hcase =>
      rcases hcase with ⟨hd,rfl⟩ | ⟨hd,rfl⟩
      · exact follows_none rfl h0 hd (by cases b <;> rfl)
      · cases b with
        | true => exact follows_receiving rfl trivial
        | false =>
          refine .inr ⟨id,_,_,rfl,.empty ?_ hd,.received rfl⟩
          simp only [content, h0, cells_empty]
    | @claim claimed w hne hcl h0 hd hsl =>
      have hv : content { s.inner with recv := w } = { content s.inner with items := 0 } := by
        simp only [content, h0, hd, cells_empty]
      have hcard : (cells s.inner.bag (slots s.inner.recv)).card = (slots s.inner.recv).card :=
        card_cells (fun i hr => hi.ready_some hr)
      refine .inr ⟨id,_,_,rfl,?_,.received ⟨subset_rfl,rfl⟩⟩
      rw [hv, hcl, Multiset.coe_nil, zero_add]
      refine .recv (v := content s.inner) (Multiset.card_pos.mp ?_)
      exact hcard ▸ Finset.card_pos.mpr hne
    | spin hw hd hsl hcase =>
      exact recv_spin_follows hok (content_of_recv hw hd)
        (fun hdead h0 => ⟨hd.symm.trans hdead,hw.symm.trans h0⟩) hcase
    | sleep => exact follows_receiving rfl trivial
    | miss => exact follows_receiving rfl trivial
    | rearm hw hd => exact follows_receiving (content_of_recv hw hd) trivial
    | read => rename_i hr; exact hr.elim
    | release => rename_i hr; exact hr.elim
  | received hr =>
    cases hm with
    | @read claimed todo todo' values i v hmem ht hv =>
      obtain ⟨hsub,rfl⟩ := hr
      have hown : i ∈ owned (.recv id b x (.read claimed todo values)) := by
        simpa [owned,footprint] using hsub hmem
      refine follows_received (content_of_bag (owned_apart hi hc hown).1) ⟨?_,?_⟩
      · rw [ht]
        exact (Finset.erase_subset _ _).trans hsub
      · rw [ht, ← cells_read hmem hv, ← Multiset.coe_add, Multiset.coe_singleton, add_assoc]
    | @release claimed todo w values h0 hw hd hsl =>
      obtain ⟨-,rfl⟩ := hr
      have halive := (hk.receivers_tallied.down (hk.receiver_pos hp rfl)).2
      have hv : content { s.inner with send := w } = content s.inner :=
        content_of_send (hd.trans halive.symm)
      rw [h0, cells_empty, add_zero]
      split
      · exact follows_received hv rfl
      · exact follows_received hv rfl
    | none => exact hr.elim
    | claim => exact hr.elim
    | spin => exact hr.elim
    | sleep => exact hr.elim
    | miss => exact hr.elim
    | rearm => exact hr.elim

theorem drop_content (hm : DropMove s.inner p m' p' e) : calling p = false ∧ calling p' = false ∧
    (visible e = none ∧ content m' = content s.inner ∨
      ∃ g, visible e = some (.shift g) ∧ content m' = (content s.inner).shift g) := by
  cases hm with
  | sender_raise hs hd =>
    refine ⟨rfl,rfl,.inr ⟨.senders,rfl,?_⟩⟩
    simp only [content, Content.shift, hs, hd]
  | receiver_raise hs hd =>
    refine ⟨rfl,rfl,.inr ⟨.receivers,rfl,?_⟩⟩
    simp only [content, Content.shift, hd]
  | _ => exact ⟨rfl,rfl,.inl ⟨rfl,rfl⟩⟩

end Moves

end Lockness.BagObject
