import Lockness.BagMachine

/-!
# What one party of the bag can do

Each silent or shared-memory step of the source, read as a change of slot sets
and status bits. Every later invariant is derived from these cases; none of
them unfolds the code again. `Ok` collects what a party knows about its own
registers, which no other party can invalidate.
-/

set_option autoImplicit false

namespace Lockness.BagMoves
open Lockness.PoolFutex Lockness.PoolSlots Lockness.WordBits Lockness.BagMasks Lockness.BagRequest
open Lockness.BagMachine

variable {T : Type*}

def Whole (data : Container T) (d : SendBuffer T) : Prop :=
  data.remit = some d ∧ data.contents = d.contents

theorem available_items_spec (d : SendBuffer T) :
    d.available_items.1 = d.contents.length ∧ Whole d.available_items.2 d := by
  cases d <;> exact ⟨rfl,rfl,rfl⟩

theorem Whole.unique {data : Container T} {d d' : SendBuffer T} (h : Whole data d)
    (h' : data.remit = some d') : d' = d := by
  simpa using h'.symm.trans h.1

theorem pop_spec {items : List T} {v : T} {rest : List T} (h : pop items = some (v,rest)) :
    items = rest++[v] := by
  simp only [pop, Option.map_eq_some_iff, Prod.mk.injEq] at h
  obtain ⟨a,ha,rfl,rfl⟩ := h
  have hne : items ≠ [] := by
    rintro rfl
    simp at ha
  rw [List.getLast?_eq_getLast_of_ne_nil hne, Option.some.injEq] at ha
  rw [← ha, List.dropLast_concat_getLast]

theorem pop_none {items : List T} (h : pop items = none) : items = [] := by
  simpa [pop] using h

theorem take_spec {data data' : Container T} {v : T} (h : data.take = some (v,data')) :
    data.contents = data'.contents++[v] := by
  cases data with
  | option item =>
    simp only [Container.take, Option.map_eq_some_iff, Prod.mk.injEq] at h
    obtain ⟨a,rfl,rfl,rfl⟩ := h
    rfl
  | vec items =>
    simp only [Container.take, Option.map_eq_some_iff, Prod.mk.injEq] at h
    obtain ⟨⟨a,rest⟩,hp,rfl,rfl⟩ := h
    exact pop_spec hp
  | array_vec items =>
    simp only [Container.take, Option.map_eq_some_iff, Prod.mk.injEq] at h
    obtain ⟨⟨a,rest⟩,hp,rfl,rfl⟩ := h
    exact pop_spec hp

theorem take_none {data : Container T} (h : data.take = none) :
    data.contents = [] := by
  cases data with
  | option item => simpa [Container.take,Container.contents] using h
  | vec items => exact pop_none (Option.map_eq_none_iff.mp h)
  | array_vec items => exact pop_none (Option.map_eq_none_iff.mp h)

/-- What a sending party knows of its registers; `d` is the buffer it was given. -/
def SendOk (blocking : Bool) (d : SendBuffer T) : SendPc T → Prop
  | .reserve items data mask => Whole data d ∧ items = d.contents.length ∧
      0 < items ∧ Bare mask ∧ (slots (N := 30) mask).Nonempty ∧
      (slots (N := 30) mask).card ≤ items
  | .write data reserved todo => slots (N := 30) todo ⊆ slots reserved ∧
      (slots (N := 30) todo).card ≤ data.contents.length
  | .wake => True
  | .spin data _ => blocking = true ∧ data = d ∧ 0 < d.contents.length
  | .sleep data expected => blocking = true ∧ data = d ∧ 0 < d.contents.length ∧
      slots (N := 30) expected = Finset.univ ∧ dead expected = false ∧ sleeping expected = true
  | .asleep data => blocking = true ∧ data = d ∧ 0 < d.contents.length
  | .rearm data => blocking = true ∧ data = d ∧ 0 < d.contents.length
  | .done r => r = .ok ∨ 0 < d.contents.length ∧
      (blocking = false ∧ r = .full d ∨ r = if blocking then .send_error d else .disconnected d)

def RecvOk (blocking : Bool) : RecvPc T → Prop
  | .claim => True
  | .read claimed todo values => slots (N := 30) todo ⊆ slots claimed ∧
      values.length+(slots (N := 30) todo).card ≤ N
  | .wake _ => True
  | .spin _ => blocking = true
  | .sleep expected => blocking = true ∧ slots (N := 30) expected = ∅ ∧
      dead (~~~expected) = false ∧ sleeping (~~~expected) = true
  | .asleep => blocking = true
  | .rearm => blocking = true
  | .done (.ok _) => True
  | .done .empty => blocking = false
  | .done .disconnected => blocking = false
  | .done .recv_error => blocking = true

def Ok : Party T → Prop
  | .send _ blocking h pc => h.bias < 30 ∧ ∃ d, SendOk blocking d pc
  | .recv _ blocking _ pc => RecvOk blocking pc
  | .drop_sender _ => True
  | .drop_receiver _ => True

theorem try_send_spec (h : Sender) (d : SendBuffer T) :
    (d.contents = [] ∧ try_send h d = .done .ok) ∨
    (d.contents ≠ [] ∧ ∃ data, Whole data d ∧ try_send h d =
      .reserve d.contents.length data
        (compute_request_mask N d.contents.length h.bias)) := by
  obtain ⟨hi,hw⟩ := available_items_spec d
  simp only [try_send, hi, List.length_eq_zero_iff]
  split_ifs with h0
  · exact .inl ⟨h0,rfl⟩
  · exact .inr ⟨h0,_,hw,rfl⟩

theorem try_send_ok {h : Sender} (hb : h.bias < 30) (blocking : Bool) (d : SendBuffer T) :
    SendOk blocking d (try_send h d) := by
  rcases try_send_spec h d with ⟨_,ht⟩ | ⟨hne,data,hw,ht⟩ <;> rw [ht]
  · exact .inl rfl
  · have hp := List.length_pos_iff.mpr hne
    exact ⟨hw,rfl,hp,compute_request_mask_bare _ _ hb,
      Finset.nonempty_iff_ne_empty.mpr (compute_request_mask_nonempty _ _ hp hb),
      compute_request_mask_card _ _ hp hb⟩

/-- A step of a sending call. A word is known by its slots and its two bits. -/
inductive SendMove (m : Inner T) (blocking : Bool) (h : Sender) :
    SendPc T → Inner T → SendPc T → Event T → Prop
  | refuse {items : ℕ} {data : Container T} {d : SendBuffer T} {mask w : Word} :
      data.remit = some d → dead m.send = true → (slots (N := 30) mask).Nonempty →
      slots (N := 30) w = slots m.send ∪ slots mask → dead w = true →
      sleeping w = sleeping m.send → SendMove m blocking h (.reserve items data mask)
        { m with send := w } (.done (if blocking then .send_error d else .disconnected d)) .tau
  | full {items : ℕ} {data : Container T} {d : SendBuffer T} {mask : Word} :
      data.remit = some d → dead m.send = false → slots (N := 30) m.send = Finset.univ →
      SendMove m blocking h (.reserve items data mask) m
        (if blocking then .spin d 32 else .done (.full d)) .tau
  | reserve {items : ℕ} {data : Container T} {mask reserved w : Word} :
      dead m.send = false → slots (N := 30) reserved = slots mask \ slots m.send →
      (slots (N := 30) reserved).Nonempty → slots (N := 30) w = slots m.send ∪ slots reserved →
      dead w = false → sleeping w = sleeping m.send →
      SendMove m blocking h (.reserve items data mask) { m with send := w }
        (.write data reserved reserved) .tau
  | retry {items : ℕ} {data : Container T} {mask : Word} :
      dead m.send = false → slots (N := 30) mask ⊆ slots m.send →
      slots (N := 30) m.send ≠ Finset.univ →
      SendMove m blocking h (.reserve items data mask) m (.reserve items data
        (clear_extra_bits (~~~(m.send ||| Status.all)) items (h.bias%2 = 0))) .tau
  | write {data data' : Container T} {reserved todo todo' : Word} {i : Slot} {v : T} :
      i ∈ slots (N := 30) todo → slots (N := 30) todo' = (slots todo).erase i →
      data.take = some (v,data') → SendMove m blocking h (.write data reserved todo)
        { m with bag := Function.update m.bag i (some v) } (.write data' reserved todo') (.take v)
  | commit {data : Container T} {reserved todo w : Word} :
      slots (N := 30) todo = ∅ → slots (N := 30) w = slots m.recv ∪ slots reserved →
      dead (~~~w) = false → sleeping (~~~w) = false →
      SendMove m blocking h (.write data reserved todo) { m with recv := w }
        (if sleeping (~~~m.recv) then .wake else .done .ok)
        (.commit (cells m.bag (slots reserved)))
  | spin {data : SendBuffer T} {spin : ℕ} {pc : SendPc T} {w : Word} :
      slots (N := 30) w = slots m.send → dead w = dead m.send →
      (sleeping m.send = true → sleeping w = true) →
      (slots (N := 30) w ≠ Finset.univ ∧ pc = try_send h data ∨
        slots (N := 30) w = Finset.univ ∧ dead w = true ∧ pc = .done (.send_error data) ∨
        slots (N := 30) w = Finset.univ ∧ dead w = false ∧ sleeping w = true ∧
          pc = .sleep data w ∨ 0 < spin ∧ pc = .spin data (spin-1)) →
      SendMove m blocking h (.spin data spin) { m with send := w } pc .tau
  | sleep (data : SendBuffer T) : SendMove m blocking h (.sleep data m.send) m (.asleep data) .tau
  | miss (data : SendBuffer T) (expected : Word) :
      SendMove m blocking h (.sleep data expected) m (.rearm data) .tau
  | rearm {data : SendBuffer T} {w : Word} : slots (N := 30) w = slots m.send →
      dead w = dead m.send → sleeping w = true →
      SendMove m blocking h (.rearm data) { m with send := w } (try_send h data) .tau

inductive RecvMove (m : Inner T) (blocking : Bool) :
    RecvPc T → Inner T → RecvPc T → Event T → Prop
  | none {pc : RecvPc T} : slots (N := 30) m.recv = ∅ →
      (dead (~~~m.recv) = true ∧ pc = .done (if blocking then .recv_error else .disconnected) ∨
        dead (~~~m.recv) = false ∧ pc = if blocking then .spin 32 else .done .empty) →
      RecvMove m blocking .claim m pc .tau
  | claim {claimed w : Word} : (slots (N := 30) m.recv).Nonempty →
      slots (N := 30) claimed = slots m.recv → slots (N := 30) w = ∅ →
      dead (~~~w) = dead (~~~m.recv) → sleeping (~~~w) = sleeping (~~~m.recv) →
      RecvMove m blocking .claim { m with recv := w } (.read claimed claimed [])
        (.claim (cells m.bag (slots m.recv)))
  | read {claimed todo todo' : Word} {values : List T} {i : Slot} {v : T} :
      i ∈ slots (N := 30) todo → slots (N := 30) todo' = (slots todo).erase i →
      m.bag i = some v → RecvMove m blocking (.read claimed todo values)
        { m with bag := Function.update m.bag i none } (.read claimed todo' (values++[v])) .tau
  | release {claimed todo w : Word} {values : List T} : slots (N := 30) todo = ∅ →
      slots (N := 30) w = slots m.send \ slots claimed → dead w = false → sleeping w = false →
      RecvMove m blocking (.read claimed todo values) { m with send := w }
        (if sleeping m.send then .wake values else .done (.ok values)) .tau
  | spin {spin : ℕ} {pc : RecvPc T} {w : Word} : slots (N := 30) w = slots m.recv →
      dead (~~~w) = dead (~~~m.recv) →
      (sleeping (~~~m.recv) = true → sleeping (~~~w) = true) →
      ((slots (N := 30) w).Nonempty ∧ pc = .claim ∨
        slots (N := 30) w = ∅ ∧ dead (~~~w) = true ∧ pc = .done .recv_error ∨
        slots (N := 30) w = ∅ ∧ dead (~~~w) = false ∧ sleeping (~~~w) = true ∧ pc = .sleep w ∨
        0 < spin ∧ pc = .spin (spin-1)) →
      RecvMove m blocking (.spin spin) { m with recv := w } pc .tau
  | sleep : RecvMove m blocking (.sleep m.recv) m .asleep .tau
  | miss (expected : Word) : RecvMove m blocking (.sleep expected) m .rearm .tau
  | rearm {w : Word} : slots (N := 30) w = slots m.recv → dead (~~~w) = dead (~~~m.recv) →
      sleeping (~~~w) = true → RecvMove m blocking .rearm { m with recv := w } .claim .tau

/-- A step of a dropped handle; the two kinds differ in the counter and in the
word that tells the other side. -/
inductive DropMove (m : Inner T) : Party T → Inner T → Party T → Event T → Prop
  | sender_count : DropMove m (.drop_sender .count)
      { m with num_senders := wrapping_sub_one m.num_senders }
      (.drop_sender (if m.num_senders > 1 then .release else .raise)) .tau
  | sender_raise {w : Word} : slots (N := 30) w = slots m.recv → dead (~~~w) = true →
      sleeping (~~~w) = sleeping (~~~m.recv) → DropMove m (.drop_sender .raise)
        { m with recv := w } (.drop_sender (if sleeping (~~~m.recv) then .wake else .release))
        .sender_dead
  | receiver_count : DropMove m (.drop_receiver .count)
      { m with num_receivers := wrapping_sub_one m.num_receivers }
      (.drop_receiver (if m.num_receivers > 1 then .release else .raise)) .tau
  | receiver_raise {w : Word} : slots (N := 30) w = slots m.send → dead w = true →
      sleeping w = sleeping m.send → DropMove m (.drop_receiver .raise)
        { m with send := w } (.drop_receiver (if sleeping m.send then .wake else .release))
        .receiver_dead
  | last_sender : m.strong = 1 → DropMove m (.drop_sender .release) { m with strong := 0 }
      (.drop_sender .free) .tau
  | last_receiver : m.strong = 1 → DropMove m (.drop_receiver .release) { m with strong := 0 }
      (.drop_receiver .free) .tau

inductive PartyMove (m : Inner T) : Party T → Inner T → Party T → Event T → Prop
  | send {id : ℕ} {blocking : Bool} {h : Sender} {pc pc' : SendPc T} {m' : Inner T} {e : Event T} :
      SendMove m blocking h pc m' pc' e →
      PartyMove m (.send id blocking h pc) m' (.send id blocking h pc') e
  | recv {id : ℕ} {blocking : Bool} {h : ℕ} {pc pc' : RecvPc T} {m' : Inner T} {e : Event T} :
      RecvMove m blocking pc m' pc' e →
      PartyMove m (.recv id blocking h pc) m' (.recv id blocking h pc') e
  | drop {p p' : Party T} {m' : Inner T} {e : Event T} :
      DropMove m p m' p' e → PartyMove m p m' p' e

inductive Waking : Party T → Futex → ℕ → Party T → Prop
  | send (id : ℕ) (blocking : Bool) (h : Sender) :
      Waking (.send id blocking h .wake) .recv 1 (.send id blocking h (.done .ok))
  | recv (id : ℕ) (blocking : Bool) (h : ℕ) (values : List T) :
      Waking (.recv id blocking h (.wake values)) .send 1
        (.recv id blocking h (.done (.ok values)))
  | drop_sender : Waking (.drop_sender .wake) .recv u32_MAX.toNat (.drop_sender .release)
  | drop_receiver : Waking (.drop_receiver .wake) .send u32_MAX.toNat (.drop_receiver .release)

inductive Exit (c : Target T) (m : Inner T) : Party T → Inner T → Event T → Prop
  | send (id : ℕ) (blocking : Bool) (h : Sender) (r : SendResult T) :
      Exit c m (.send id blocking h (.done r)) m (.sent id r)
  | recv (id : ℕ) (blocking : Bool) (h : ℕ) (r : RecvResult T) :
      Exit c m (.recv id blocking h (.done r)) m (.received id r)
  | sender_release : m.strong ≠ 1 →
      Exit c m (.drop_sender .release) { m with strong := m.strong-1 } .tau
  | receiver_release : m.strong ≠ 1 →
      Exit c m (.drop_receiver .release) { m with strong := m.strong-1 } .tau
  | sender_free {m' : Inner T} {dropped : List T} : drop_inner c m = some (m',dropped) →
      Exit c m (.drop_sender .free) m' (.dropped dropped)
  | receiver_free {m' : Inner T} {dropped : List T} : drop_inner c m = some (m',dropped) →
      Exit c m (.drop_receiver .free) m' (.dropped dropped)

end Lockness.BagMoves
