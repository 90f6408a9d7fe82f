import Lockness.SlotMachine

/-!
# What one party of the slot can do

The code read once, as moves with their conditions, wake-ups and exits; every
later invariant is derived from these cases. A word is known by its count and
its flags. `Ok` is what a party knows about its own registers.
-/

set_option autoImplicit false

namespace Lockness.SlotMoves
open Lockness.PoolFutex Lockness.SlotWords Lockness.SlotWords.SendStatus Lockness.SlotMachine

variable {c : Target} {T : Type*}

def refused (blocking : Bool) (d : T) : SendResult T :=
  if blocking then .send_error d else .disconnected d

def ended (blocking : Bool) : RecvResult T := if blocking then .recv_error else .disconnected

/-- What a sending party knows of its registers; `d` is the value it was given. -/
def SendOk (blocking : Bool) (d : T) : SendPc c T → Prop
  | .attempt data => data = d
  | .check data _ => data = d
  | .abort => True
  | .write data => data = d
  | .commit => True
  | .wake => True
  | .spin data _ => blocking = true ∧ data = d
  | .sleep data expected => blocking = true ∧ data = d ∧ count expected ≠ 0 ∧
      dead expected = false ∧ sleeping expected = true
  | .asleep data => blocking = true ∧ data = d
  | .rearm data => blocking = true ∧ data = d
  | .done r => r = .ok ∨ blocking = false ∧ r = .full d ∨ r = refused blocking d

def RecvOk (blocking : Bool) : RecvPc T → Prop
  | .load i => i ≤ 32
  | .arm => blocking = true
  | .sleep => blocking = true
  | .asleep => blocking = true
  | .done r => r = .empty → blocking = false
  | _ => True

def Ok : Party c T → Prop
  | .send _ blocking _ pc => ∃ d, SendOk blocking d pc
  | .recv _ blocking pc => RecvOk blocking pc
  | _ => True

inductive SendMove (m : Inner c T) (blocking : Bool) :
    SendPc c T → Inner c T → SendPc c T → Event T → Prop
  | attempt (data : T) : SendMove m blocking (.attempt data)
      { m with send := SendStatus.attempt c m.send } (.check data m.send)
      (if won m.send then .reserve data else .tau)
  | abort {data : T} {prev : SendStatusU c} : aborts c prev = true →
      SendMove m blocking (.check data prev) m .abort .abort
  | refuse {data : T} {prev : SendStatusU c} : aborts c prev = false → dead prev = true →
      SendMove m blocking (.check data prev) m (.done (refused blocking data)) .tau
  | full {data : T} {prev : SendStatusU c} : aborts c prev = false → dead prev = false →
      count prev ≠ 0 → SendMove m blocking (.check data prev) m
        (if blocking then .spin data 32 else .done (.full data)) .tau
  | own {data : T} {prev : SendStatusU c} : dead prev = false → count prev = 0 →
      SendMove m blocking (.check data prev) m (.write data) .tau
  | write (data : T) : SendMove m blocking (.write data) { m with slot := some data } .commit
      (.write data)
  | commit : SendMove m blocking .commit { m with recv := RecvStatus.COMMIT }
      (if RecvStatus.sleeping m.recv then .wake else .done .ok) (.commit m.slot.toList)
  | spin {data : T} {spin : ℕ} {w : SendStatusU c} {pc : SendPc c T} : count w = count m.send →
      dead w = dead m.send → (sleeping m.send = true → sleeping w = true) →
      (count w = 0 ∧ pc = .attempt data ∨
        count w ≠ 0 ∧ dead w = true ∧ pc = .done (.send_error data) ∨
        count w ≠ 0 ∧ dead w = false ∧ sleeping w = true ∧ pc = .sleep data w ∨
        0 < spin ∧ sleeping w = false ∧ pc = .spin data (spin-1)) →
      SendMove m blocking (.spin data spin) { m with send := w } pc .tau
  | sleep {data : T} {expected : SendStatusU c} : futex c m.send = futex c expected →
      SendMove m blocking (.sleep data expected) m (.asleep data) .tau
  | miss {data : T} {expected : SendStatusU c} : futex c m.send ≠ futex c expected →
      SendMove m blocking (.sleep data expected) m (.rearm data) .tau
  | rearm (data : T) : SendMove m blocking (.rearm data)
      { m with send := m.send ||| SLEEPING c } (.attempt data) .tau

inductive RecvMove (m : Inner c T) (blocking : Bool) :
    RecvPc T → Inner c T → RecvPc T → Event T → Prop
  | found (i : ℕ) : RecvStatus.commit m.recv = true → RecvMove m blocking (.load i) m .clear .tau
  | ended (i : ℕ) : RecvStatus.commit m.recv = false → RecvStatus.dead m.recv = true →
      RecvMove m blocking (.load i) m (.done (ended blocking)) .tau
  | empty (i : ℕ) : RecvStatus.commit m.recv = false → RecvStatus.dead m.recv = false →
      RecvMove m blocking (.load i) m
        (if blocking then if i < 32 then .load (i+1) else .arm else .done .empty) .tau
  | clear : RecvMove m blocking .clear { m with recv := m.recv &&& RecvStatus.SENDER_DEAD } .read
      (.claim m.slot.toList)
  | read {value : T} : m.slot = some value →
      RecvMove m blocking .read { m with slot := none } (.release value) .tau
  | release (value : T) : RecvMove m blocking (.release value) { m with send := 0 }
      (if sleeping m.send then .wake value else .done (.ok value)) .tau
  | arm : RecvMove m blocking .arm { m with recv := m.recv ||| RecvStatus.SLEEPING }
      (if m.recv ≠ 0 then .load 0 else .sleep) .tau
  | sleep : m.recv = RecvStatus.SLEEPING → RecvMove m blocking .sleep m .asleep .tau
  | miss : m.recv ≠ RecvStatus.SLEEPING → RecvMove m blocking .sleep m (.load 0) .tau

inductive DropMove (m : Inner c T) : Party c T → Inner c T → Party c T → Event T → Prop
  | sender_count : DropMove m (.drop_sender .count)
      { m with num_senders := wrapping_sub_one m.num_senders }
      (.drop_sender (if m.num_senders > 1 then .release else .raise)) .tau
  | sender_raise : DropMove m (.drop_sender .raise)
      { m with recv := m.recv ||| RecvStatus.SENDER_DEAD }
      (.drop_sender (if RecvStatus.sleeping m.recv then .wake else .release)) .sender_dead
  | receiver_raise : DropMove m (.drop_receiver .raise)
      { m with send := RECEIVER_DEAD c }
      (.drop_receiver (if sleeping m.send then .wake else .release)) .receiver_dead
  | last_sender : m.strong = 1 → DropMove m (.drop_sender .release) { m with strong := 0 }
      (.drop_sender .free) .tau
  | last_receiver : m.strong = 1 → DropMove m (.drop_receiver .release) { m with strong := 0 }
      (.drop_receiver .free) .tau

inductive PartyMove (m : Inner c T) : Party c T → Inner c T → Party c T → Event T → Prop
  | send {id : ℕ} {blocking : Bool} {h : ℕ} {pc pc' : SendPc c T} {m' : Inner c T} {e : Event T} :
      SendMove m blocking pc m' pc' e →
      PartyMove m (.send id blocking h pc) m' (.send id blocking h pc') e
  | recv {id : ℕ} {blocking : Bool} {pc pc' : RecvPc T} {m' : Inner c T} {e : Event T} :
      RecvMove m blocking pc m' pc' e →
      PartyMove m (.recv id blocking pc) m' (.recv id blocking pc') e
  | drop {p p' : Party c T} {m' : Inner c T} {e : Event T} :
      DropMove m p m' p' e → PartyMove m p m' p' e

inductive Waking : Party c T → Futex → ℕ → Party c T → Prop
  | send (id : ℕ) (blocking : Bool) (h : ℕ) :
      Waking (.send id blocking h .wake) .recv 1 (.send id blocking h (.done .ok))
  | recv (id : ℕ) (blocking : Bool) (value : T) :
      Waking (.recv id blocking (.wake value)) .send 1 (.recv id blocking (.done (.ok value)))
  | drop_sender : Waking (.drop_sender .wake) .recv u32_MAX (.drop_sender .release)
  | drop_receiver : Waking (.drop_receiver .wake) .send u32_MAX (.drop_receiver .release)

inductive Exit (m : Inner c T) : Party c T → Inner c T → Event T → Prop
  | send (id : ℕ) (blocking : Bool) (h : ℕ) (r : SendResult T) :
      Exit m (.send id blocking h (.done r)) m (.sent id r)
  | recv (id : ℕ) (blocking : Bool) (r : RecvResult T) :
      Exit m (.recv id blocking (.done r)) m (.received id r)
  | sender_release : m.strong ≠ 1 →
      Exit m (.drop_sender .release) { m with strong := m.strong-1 } .tau
  | receiver_release : m.strong ≠ 1 →
      Exit m (.drop_receiver .release) { m with strong := m.strong-1 } .tau
  | sender_free {m' : Inner c T} {dropped : List T} : drop_inner m = some (m',dropped) →
      Exit m (.drop_sender .free) m' (.dropped dropped)
  | receiver_free {m' : Inner c T} {dropped : List T} : drop_inner m = some (m',dropped) →
      Exit m (.drop_receiver .free) m' (.dropped dropped)

section Inversion

variable {m m' : Inner c T} {blocking : Bool} {p p' : Party c T} {e : Event T}

theorem won_iff (prev : SendStatusU c) : won prev = true ↔ dead prev = false ∧ count prev = 0 := by
  rw [won, Bool.and_eq_true, Bool.not_eq_true', beq_iff_eq, reservations_eq_zero]

theorem aborts_count {prev : SendStatusU c} (ha : aborts c prev = true) : count prev ≠ 0 := by
  cases c with
  | x86_64 =>
    have := (aborts_iff prev).mp ha
    omega
  | portable => cases ha

theorem check_moves (data : T) (prev : SendStatusU c) : SendMove m blocking (.check data prev) m
    (try_send_check blocking data prev) (if aborts c prev then .abort else .tau) := by
  rw [try_send_check]
  by_cases ha : aborts c prev = true
  · rw [if_pos ha, if_pos ha]
    exact .abort ha
  rw [if_neg ha, if_neg ha]
  rw [Bool.not_eq_true] at ha
  by_cases hd : dead prev = true
  · rw [if_pos hd]
    exact .refuse ha hd
  rw [if_neg hd]
  rw [Bool.not_eq_true] at hd
  by_cases hr : 0 < reservations prev
  · rw [if_pos hr]
    exact .full ha hd ((reservations_pos prev).mp hr)
  · rw [if_neg hr]
    exact .own hd (by simpa using mt (reservations_pos prev).mpr hr)

theorem spin_moves (data : T) (spin : ℕ) : SendMove m blocking (.spin data spin)
    { m with send := if spin = 0 then m.send ||| SLEEPING c else m.send }
    (send_spin data spin (if spin = 0 then m.send ||| SLEEPING c else m.send)) .tau := by
  refine .spin ?_ ?_ ?_ ?_
  · split <;> simp
  · split <;> simp
  · split <;> simp +contextual
  generalize hw : (if spin = 0 then m.send ||| SLEEPING c else m.send) = w
  have hz : spin = 0 → sleeping w = true := by
    rintro rfl
    simp [← hw]
  unfold send_spin
  split_ifs with hr hd hsl
  · exact .inl ⟨(reservations_eq_zero w).mp hr,rfl⟩
  · exact .inr (.inl ⟨mt (reservations_eq_zero w).mpr hr,hd,rfl⟩)
  · exact .inr (.inr (.inl ⟨mt (reservations_eq_zero w).mpr hr,by simpa using hd,hsl,rfl⟩))
  · exact .inr (.inr (.inr ⟨Nat.pos_of_ne_zero (fun h0 => hsl (hz h0)),by simpa using hsl,rfl⟩))

theorem send_moves {id h : ℕ} {pc : SendPc c T} (hc : send_code m id blocking h pc = .go m' p' e) :
    ∃ pc', p' = .send id blocking h pc' ∧ SendMove m blocking pc m' pc' e := by
  cases pc with
  | attempt data =>
    cases hc
    exact ⟨_,rfl,.attempt data⟩
  | check data prev =>
    cases hc
    exact ⟨_,rfl,check_moves data prev⟩
  | write data =>
    cases hc
    exact ⟨_,rfl,.write data⟩
  | commit =>
    cases hc
    exact ⟨_,rfl,.commit⟩
  | spin data spin =>
    cases hc
    exact ⟨_,rfl,spin_moves data spin⟩
  | sleep data expected =>
    cases hc
    refine ⟨_,rfl,?_⟩
    split
    · rename_i heq
      exact .sleep heq
    · rename_i hne
      exact .miss hne
  | rearm data =>
    cases hc
    exact ⟨_,rfl,.rearm data⟩
  | abort => cases hc
  | wake => cases hc
  | asleep data => cases hc
  | done r => cases hc

theorem load_moves (i : ℕ) :
    RecvMove m blocking (.load i) m (try_recv_load blocking i m.recv) .tau := by
  unfold try_recv_load
  split
  · rename_i hcm
    exact .found i hcm
  rename_i hcm
  rw [Bool.not_eq_true] at hcm
  split
  · rename_i hd
    exact .ended i hcm hd
  · rename_i hd
    exact .empty i hcm (by simpa using hd)

theorem recv_moves {id : ℕ} {pc : RecvPc T} (hc : recv_code m id blocking pc = .go m' p' e) :
    ∃ pc', p' = .recv id blocking pc' ∧ RecvMove m blocking pc m' pc' e := by
  cases pc with
  | load i =>
    cases hc
    exact ⟨_,rfl,load_moves i⟩
  | clear =>
    cases hc
    exact ⟨_,rfl,.clear⟩
  | read =>
    rw [recv_code] at hc
    split at hc
    · cases hc
    · rename_i value hv
      cases hc
      exact ⟨_,rfl,.read hv⟩
  | release value =>
    cases hc
    exact ⟨_,rfl,.release value⟩
  | arm =>
    cases hc
    exact ⟨_,rfl,.arm⟩
  | sleep =>
    cases hc
    refine ⟨_,rfl,?_⟩
    split
    · rename_i heq
      exact .sleep heq
    · rename_i hne
      exact .miss hne
  | wake value => cases hc
  | asleep => cases hc
  | done r => cases hc

theorem release_moves {q : Party c T} (hc : release_code m q = .go m' p' e) :
    m.strong = 1 ∧ m' = { m with strong := 0 } ∧ p' = q ∧ e = .tau := by
  rw [release_code] at hc
  split at hc <;> cases hc
  rename_i h1
  rw [h1]
  exact ⟨rfl,rfl,rfl,rfl⟩

theorem drop_sender_moves {pc : DropSenderPc} (hc : drop_sender_code m pc = .go m' p' e) :
    DropMove m (.drop_sender pc) m' p' e := by
  cases pc with
  | count =>
    cases hc
    exact .sender_count
  | raise =>
    cases hc
    exact .sender_raise
  | wake => cases hc
  | release =>
    obtain ⟨h1,rfl,rfl,rfl⟩ := release_moves hc
    exact .last_sender h1
  | free =>
    rw [drop_sender_code, free_code] at hc
    split at hc <;> cases hc

theorem drop_receiver_moves {pc : DropReceiverPc} (hc : drop_receiver_code m pc = .go m' p' e) :
    DropMove m (.drop_receiver pc) m' p' e := by
  cases pc with
  | raise =>
    cases hc
    exact .receiver_raise
  | wake => cases hc
  | release =>
    obtain ⟨h1,rfl,rfl,rfl⟩ := release_moves hc
    exact .last_receiver h1
  | free =>
    rw [drop_receiver_code, free_code] at hc
    split at hc <;> cases hc

theorem code_moves (hc : code m p = .go m' p' e) : PartyMove m p m' p' e := by
  cases p with
  | send id blocking h pc =>
    obtain ⟨pc',rfl,hm⟩ := send_moves hc
    exact .send hm
  | recv id blocking pc =>
    obtain ⟨pc',rfl,hm⟩ := recv_moves hc
    exact .recv hm
  | drop_sender pc => exact .drop (drop_sender_moves hc)
  | drop_receiver pc => exact .drop (drop_receiver_moves hc)

theorem release_ne_wake {q : Party c T} {w : Futex} {n : ℕ} : release_code m q ≠ .wake w n p' := by
  rw [release_code]
  split <;> simp

theorem release_exits {q : Party c T} (hc : release_code m q = .exit m' e) :
    m.strong ≠ 1 ∧ m' = { m with strong := m.strong-1 } ∧ e = .tau := by
  rw [release_code] at hc
  split at hc <;> cases hc
  rename_i h1
  exact ⟨h1,rfl,rfl⟩

theorem free_ne_wake {w : Futex} {n : ℕ} : free_code m ≠ .wake w n p' := by
  rw [free_code]
  split <;> simp

theorem free_exits (hc : free_code m = .exit m' e) :
    ∃ dropped, drop_inner m = some (m',dropped) ∧ e = .dropped dropped := by
  rw [free_code] at hc
  split at hc <;> cases hc
  rename_i hd
  exact ⟨_,hd,rfl⟩

theorem code_wakes {w : Futex} {n : ℕ} (hc : code m p = .wake w n p') : Waking p w n p' := by
  cases p with
  | send id blocking h pc => cases pc <;> cases hc; exact .send id blocking h
  | recv id blocking pc =>
    cases pc with
    | wake value =>
      cases hc
      exact .recv id blocking value
    | read =>
      rw [code, recv_code] at hc
      split at hc <;> cases hc
    | _ => cases hc
  | drop_sender pc =>
    cases pc with
    | wake =>
      cases hc
      exact .drop_sender
    | release => exact absurd hc release_ne_wake
    | free => exact absurd hc free_ne_wake
    | _ => cases hc
  | drop_receiver pc =>
    cases pc with
    | wake =>
      cases hc
      exact .drop_receiver
    | release => exact absurd hc release_ne_wake
    | free => exact absurd hc free_ne_wake
    | _ => cases hc

theorem code_exits (hc : code m p = .exit m' e) : Exit m p m' e := by
  cases p with
  | send id blocking h pc => cases pc <;> cases hc; exact .send id blocking h _
  | recv id blocking pc =>
    cases pc with
    | done r =>
      cases hc
      exact .recv id blocking r
    | read =>
      rw [code, recv_code] at hc
      split at hc <;> cases hc
    | _ => cases hc
  | drop_sender pc =>
    cases pc with
    | release =>
      obtain ⟨h1,rfl,rfl⟩ := release_exits hc
      exact .sender_release h1
    | free =>
      obtain ⟨dropped,hd,rfl⟩ := free_exits hc
      exact .sender_free hd
    | _ => cases hc
  | drop_receiver pc =>
    cases pc with
    | release =>
      obtain ⟨h1,rfl,rfl⟩ := release_exits hc
      exact .receiver_release h1
    | free =>
      obtain ⟨dropped,hd,rfl⟩ := free_exits hc
      exact .receiver_free hd
    | _ => cases hc

theorem drop_inner_spec {dropped : List T} (h : drop_inner m = some (m',dropped)) :
    m' = { m with freed := true } ∧
      dropped = if RecvStatus.commit m.recv then m.slot.toList else [] := by
  rw [drop_inner] at h
  split at h
  · rename_i hc
    obtain ⟨v,hv,h⟩ := Option.map_eq_some_iff.mp h
    cases h
    rw [if_pos hc, hv]
    exact ⟨rfl,rfl⟩
  · rename_i hc
    cases h
    rw [if_neg hc]
    exact ⟨rfl,rfl⟩

theorem exit_frame (hx : Exit m p m' e) : m'.send = m.send ∧ m'.recv = m.recv ∧
    m'.num_senders = m.num_senders ∧ m'.slot = m.slot := by
  cases hx with
  | sender_free hd => exact (drop_inner_spec hd).1 ▸ ⟨rfl,rfl,rfl,rfl⟩
  | receiver_free hd => exact (drop_inner_spec hd).1 ▸ ⟨rfl,rfl,rfl,rfl⟩
  | _ => exact ⟨rfl,rfl,rfl,rfl⟩

theorem send_move_ok {d : T} {pc pc' : SendPc c T} (hok : SendOk blocking d pc)
    (hm : SendMove m blocking pc m' pc' e) : SendOk blocking d pc' := by
  cases hm with
  | attempt | own => exact hok
  | abort | write => trivial
  | refuse => exact .inr (.inr (by rw [show _ = d from hok]))
  | full =>
    rw [show _ = d from hok]
    cases blocking
    · exact .inr (.inl ⟨rfl,rfl⟩)
    · exact ⟨rfl,rfl⟩
  | commit =>
    split
    · trivial
    · exact .inl rfl
  | spin _ _ _ hcase =>
    obtain ⟨hb,rfl⟩ := hok
    rcases hcase with ⟨-,rfl⟩ | ⟨-,-,rfl⟩ | ⟨hw,hd,hsl,rfl⟩ | ⟨-,-,rfl⟩
    · exact rfl
    · exact .inr (.inr (by simp [refused,hb]))
    · exact ⟨hb,rfl,hw,hd,hsl⟩
    · exact ⟨hb,rfl⟩
  | sleep | miss => exact ⟨hok.1,hok.2.1⟩
  | rearm => exact hok.2

theorem recv_move_ok {pc pc' : RecvPc T} (hok : RecvOk blocking pc)
    (hm : RecvMove m blocking pc m' pc' e) : RecvOk blocking pc' := by
  cases hm with
  | found | clear | read => trivial
  | ended => cases blocking <;> simp [RecvOk,SlotMoves.ended]
  | empty i =>
    cases blocking
    · exact fun _ => rfl
    · rw [if_pos rfl]
      split
      · rename_i hi
        exact hi
      · exact rfl
  | release =>
    split
    · trivial
    · simp [RecvOk]
  | arm =>
    split
    · exact Nat.zero_le _
    · exact hok
  | sleep => exact hok
  | miss => exact Nat.zero_le _

theorem party_move_ok (hok : Ok p) (hm : PartyMove m p m' p' e) : Ok p' := by
  cases hm with
  | send hm =>
    obtain ⟨d,hd⟩ := hok
    exact ⟨d,send_move_ok hd hm⟩
  | recv hm => exact recv_move_ok hok hm
  | drop hm => cases hm <;> trivial

end Inversion

inductive Moves : State c T → Event T → State c T → Prop
  | move {m m' : Inner c T} {ss : Multiset ℕ} {r : Bool} {n : ℕ} {p p' : Party c T}
      {rest : Multiset (Party c T)} {e : Event T} : PartyMove m p m' p' e →
      Moves ⟨m,ss,r,p ::ₘ rest,n⟩ e ⟨m',ss,r,p' ::ₘ rest,n⟩
  | wake {m : Inner c T} {ss : Multiset ℕ} {r : Bool} {n k : ℕ} {w : Futex} {p p' : Party c T}
      {rest rest' : Multiset (Party c T)} : Waking p w k p' → Wake (woken w) k rest rest' →
      Moves ⟨m,ss,r,p ::ₘ rest,n⟩ .tau ⟨m,ss,r,p' ::ₘ rest',n⟩
  | spurious {m : Inner c T} {ss : Multiset ℕ} {r : Bool} {n : ℕ} {w : Futex} {p q : Party c T}
      {rest : Multiset (Party c T)} : woken w p = some q →
      Moves ⟨m,ss,r,p ::ₘ rest,n⟩ .tau ⟨m,ss,r,q ::ₘ rest,n⟩
  | exit {m m' : Inner c T} {ss : Multiset ℕ} {r : Bool} {n : ℕ} {p : Party c T}
      {rest : Multiset (Party c T)} {e : Event T} : Exit m p m' e →
      Moves ⟨m,ss,r,p ::ₘ rest,n⟩ e ⟨m',ss,r,rest,n⟩
  | call_send {m : Inner c T} {ss : Multiset ℕ} {r : Bool} {n h : ℕ}
      {calls : Multiset (Party c T)} (blocking : Bool) (data : T) : h ∈ ss →
      Moves ⟨m,ss,r,calls,n⟩ (.sending n blocking data)
        ⟨m,ss,r,.send n blocking h (.attempt data) ::ₘ calls,n+1⟩
  | call_recv {m : Inner c T} {ss : Multiset ℕ} {n : ℕ} {calls : Multiset (Party c T)}
      (blocking : Bool) : (∀ p ∈ calls, p.receives = false) →
      Moves ⟨m,ss,true,calls,n⟩ (.receiving n blocking)
        ⟨m,ss,true,.recv n blocking (.load 0) ::ₘ calls,n+1⟩
  | clone_sender {m : Inner c T} {ss : Multiset ℕ} {r : Bool} {n h : ℕ}
      {calls : Multiset (Party c T)} : h ∈ ss → m.num_senders < 2^31 →
      Moves ⟨m,ss,r,calls,n⟩ .tau
        ⟨{ m with num_senders := m.num_senders+1, strong := m.strong+1 },n ::ₘ ss,r,calls,n+1⟩
  | drop_sender {m : Inner c T} {ss : Multiset ℕ} {r : Bool} {n h : ℕ}
      {calls : Multiset (Party c T)} : (∀ p ∈ calls, p.sender ≠ some h) →
      Moves ⟨m,h ::ₘ ss,r,calls,n⟩ .tau ⟨m,ss,r,.drop_sender .count ::ₘ calls,n⟩
  | drop_receiver {m : Inner c T} {ss : Multiset ℕ} {n : ℕ} {calls : Multiset (Party c T)} :
      (∀ p ∈ calls, p.receives = false) →
      Moves ⟨m,ss,true,calls,n⟩ .tau ⟨m,ss,false,.drop_receiver .raise ::ₘ calls,n⟩

section Steps

variable {m m' : Inner c T} {p p' : Party c T} {rest rest' : Multiset (Party c T)} {e : Event T}

theorem clone_sender_ok (hc : clone_sender m = some m') : m.num_senders < 2^31 ∧
    m' = { m with num_senders := m.num_senders+1, strong := m.strong+1 } := by
  have hguard : u32_MAX/2 = 2^31-1 := by decide
  have hmax : u32_MAX = 2^32-1 := rfl
  rw [clone_sender, hguard] at hc
  split at hc <;> cases hc
  refine ⟨by omega,?_⟩
  rw [wrapping_add_one, if_neg (by omega)]

theorem step_moves {s s' : State c T} (hstep : Step s e s') : Moves s e s' := by
  obtain ⟨m,ss,r,calls,n⟩ := s
  cases hstep with
  | party hp =>
    simp only at hp ⊢
    cases hp with
    | go hc => exact .move (code_moves hc)
    | wake hc hw => exact .wake (code_wakes hc) hw
    | spurious hw => exact .spurious hw
    | exit hc => exact .exit (code_exits hc)
  | call_send blocking data hh => exact .call_send blocking data hh
  | call_recv blocking hr hfree =>
    obtain rfl : r = true := hr
    exact .call_recv blocking hfree
  | clone_sender hh hc =>
    obtain ⟨hlt,rfl⟩ := clone_sender_ok hc
    exact .clone_sender hh hlt
  | drop_sender hs hfree =>
    obtain rfl : ss = _ := hs
    exact .drop_sender hfree
  | drop_receiver hr hfree =>
    obtain rfl : r = true := hr
    exact .drop_receiver hfree

/-- A weight that neither waking nor being woken changes. -/
structure Quiet (f : Party c T → ℕ) : Prop where
  woken : ∀ w p q, woken w p = some q → f q = f p
  waking : ∀ w n p q, Waking p w n q → f q = f p

theorem Quiet.weigh_wake {f : Party c T → ℕ} (hf : Quiet f) {w : Futex} {k : ℕ}
    (hp : Waking p w k p') (hw : Wake (SlotMachine.woken w) k rest rest') :
    weigh f (p' ::ₘ rest') = weigh f (p ::ₘ rest) := by
  rw [weigh_cons, weigh_cons, hf.waking _ _ _ _ hp, hw.weigh_eq (fun p q => hf.woken w p q)]

theorem Quiet.weigh_spurious {f : Party c T → ℕ} (hf : Quiet f) {w : Futex}
    (hw : SlotMachine.woken w p = some p') : weigh f (p' ::ₘ rest) = weigh f (p ::ₘ rest) := by
  rw [weigh_cons, weigh_cons, hf.woken _ _ _ hw]

end Steps
end Lockness.SlotMoves
