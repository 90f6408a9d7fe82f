import Lockness.SlotPipeline
import Lockness.SlotSchedule

/-!
# What the slot delivers

The receiver gets the values in the order of their reservations, and is behind
by what the slot and its own call hold. Whatever a send hands back was never
reserved for. The last handle drops the committed value that was not received.
-/

set_option autoImplicit false

namespace Lockness.SlotDelivery
open Lockness.PoolRuns Lockness.PoolFutex Lockness.PoolSlots
open Lockness.SlotWords Lockness.SlotWords.SendStatus
open Lockness.SlotMachine Lockness.SlotMoves Lockness.SlotAttempts Lockness.SlotHandles
open Lockness.SlotBoard Lockness.SlotPipeline Lockness.SlotSchedule

variable {c : Target} {T : Type*}

def given : Event T → List T
  | .sending _ _ data => [data]
  | _ => []

def handed_back : Event T → List T
  | .sent _ (.full data) => [data]
  | .sent _ (.disconnected data) => [data]
  | .sent _ (.send_error data) => [data]
  | _ => []

/-- What a send still holds, to try again with or to hand back. -/
def waiting : Party c T → Multiset T
  | .send _ _ _ (.attempt data) => {data}
  | .send _ _ _ (.check data prev) => if won prev then 0 else {data}
  | .send _ _ _ (.spin data _) => {data}
  | .send _ _ _ (.sleep data _) => {data}
  | .send _ _ _ (.asleep data) => {data}
  | .send _ _ _ (.rearm data) => {data}
  | .send _ _ _ (.done (.full data)) => {data}
  | .send _ _ _ (.done (.disconnected data)) => {data}
  | .send _ _ _ (.done (.send_error data)) => {data}
  | _ => 0

section HandedBack

variable {h : List (Event T)} {s s' : SlotMachine.State c T} {e : Event T}

def Accounted (e : Event T) (w w' : Multiset T) : Prop :=
  e ≠ .abort → (given e : Multiset T)+w = SlotBoard.reserved e+handed_back e+w'

theorem send_move_accounted {m m' : Inner c T} {b : Bool} {pc pc' : SendPc c T}
    (hm : SendMove m b pc m' pc' e) (id x : ℕ) :
    Accounted e (waiting (.send id b x pc)) (waiting (.send id b x pc')) := by
  intro hne
  cases hm with
  | attempt data =>
    cases hw : won m.send <;> simp [waiting,given,SlotBoard.reserved,handed_back,hw]
  | abort => exact absurd rfl hne
  | refuse _ hd =>
    have hw := won_false (.inl hd)
    cases b <;> simp [waiting,given,SlotBoard.reserved,handed_back,hw,refused]
  | full _ _ h0 =>
    have hw := won_false (.inr h0)
    cases b <;> simp [waiting,given,SlotBoard.reserved,handed_back,hw]
  | own hd h0 =>
    have hw := (won_iff _).mpr ⟨hd,h0⟩
    simp [waiting,given,SlotBoard.reserved,handed_back,hw]
  | write | sleep | miss | rearm => simp [waiting,given,SlotBoard.reserved,handed_back]
  | commit =>
    cases RecvStatus.sleeping m.recv <;> simp [waiting,given,SlotBoard.reserved,handed_back]
  | spin _ _ _ hcase =>
    rcases hcase with ⟨-,rfl⟩ | ⟨-,-,rfl⟩ | ⟨-,-,-,rfl⟩ | ⟨-,-,rfl⟩ <;>
      simp [waiting,given,SlotBoard.reserved,handed_back]

theorem step_accounted (hstep : SlotMachine.Step s e s') :
    Accounted e (weigh waiting s.calls) (weigh waiting s'.calls) := by
  have hstill {w : Multiset T} (h1 : given e = []) (h2 : SlotBoard.reserved e = [])
      (h3 : handed_back e = []) : Accounted e w w := by
    intro _
    simp [h1,h2,h3]
  cases step_moves hstep with
  | @move _ _ _ _ _ p p' rest _ hm =>
    simp only [weigh_cons]
    have hone : Accounted e (waiting p) (waiting p') := by
      cases hm with
      | send hm => exact send_move_accounted hm _ _
      | recv hm => cases hm <;> exact fun _ => rfl
      | drop hm => cases hm <;> exact fun _ => rfl
    intro hne
    rw [← add_assoc, hone hne, add_assoc]
  | wake hw hws =>
    have h1 := hws.weigh_eq (f := waiting) (fun p q hq => by
      rcases woken_cases hq with ⟨_,_,_,_,_,rfl,rfl⟩ | ⟨_,_,_,rfl,rfl⟩ <;> rfl)
    simp only [weigh_cons, h1]
    cases hw <;> exact hstill rfl rfl rfl
  | spurious hw =>
    simp only [weigh_cons]
    rcases woken_cases hw with ⟨_,_,_,_,_,rfl,rfl⟩ | ⟨_,_,_,rfl,rfl⟩ <;> exact hstill rfl rfl rfl
  | exit hx =>
    simp only [weigh_cons]
    cases hx with
    | send id b x r => cases r <;> simp [Accounted,waiting,given,SlotBoard.reserved,handed_back]
    | _ => simp [Accounted,waiting,given,SlotBoard.reserved,handed_back]
  | call_send b data => simp [Accounted,waiting,given,SlotBoard.reserved,handed_back]
  | clone_sender => exact hstill rfl rfl rfl
  | _ => simp [Accounted,waiting,given,SlotBoard.reserved,handed_back]

theorem Accounted.append {w w' : Multiset T} (hone : Accounted e w w')
    (hacc : .abort ∉ h → (gather given h : Multiset T) =
      gather reserved h+gather handed_back h+w) (ha : .abort ∉ h++[e]) :
    (gather given (h++[e]) : Multiset T) =
      gather reserved (h++[e])+gather handed_back (h++[e])+w' := by
  simp only [List.mem_append, List.mem_singleton, not_or] at ha
  simp only [gather_append, ← Multiset.coe_add]
  calc (gather given h : Multiset T)+given e
      = gather reserved h+gather handed_back h+(given e+w) := by
        rw [hacc ha.1]
        abel
    _ = gather reserved h+SlotBoard.reserved e+(gather handed_back h+handed_back e)+w' := by
        rw [hone (Ne.symm ha.2)]
        abel

theorem accounted_run (hrun : Steps SlotMachine.Step mpsc h s) (ha : .abort ∉ h) :
    (gather given h : Multiset T) =
      gather reserved h+gather handed_back h+weigh waiting s.calls := by
  revert ha
  exact hrun.carries (fun (h : List (Event T)) (s : SlotMachine.State c T) => .abort ∉ h →
    (gather given h : Multiset T) =
      gather reserved h+gather handed_back h+weigh waiting s.calls) (fun _ => rfl)
    (fun _ _ _ _ _ ih hstep => (step_accounted hstep).append ih)

theorem handed_back_disjoint (hacc : (gather given h : Multiset T) =
      gather reserved h+gather handed_back h+weigh waiting s.calls)
    (hn : (gather given h).Nodup) : (gather handed_back h).Disjoint (gather reserved h) := by
  rw [← Multiset.coe_nodup, hacc, Multiset.nodup_add, Multiset.nodup_add] at hn
  intro v hv hv'
  exact Multiset.disjoint_left.mp hn.1.2.2 (Multiset.mem_coe.mpr hv') (Multiset.mem_coe.mpr hv)

end HandedBack

section Freed

variable {h : List (Event T)} {s s' : SlotMachine.State c T} {e : Event T}

theorem freed_empty (hk : Handles s) (hf : s.inner.freed = true) :
    s.senders = 0 ∧ s.receiver = false ∧ s.calls = 0 := by
  obtain ⟨-,hh,-,hl⟩ := hk.arc_tallied.raised hf
  simp only [arc_tally] at hh hl
  have hs : s.senders = 0 := Multiset.card_eq_zero.mp (by omega)
  have hr : s.receiver = false := by
    cases hr : s.receiver
    · rfl
    · rw [hr, Bool.toNat_true] at hh
      omega
  have hrecv := hk.receiver
  rw [hr, Bool.toNat_false] at hrecv
  refine ⟨hs,hr,Multiset.eq_zero_of_forall_notMem (fun p hp => ?_)⟩
  have hu := (weigh_eq_zero_iff unreleased s.calls).mp (by omega) p hp
  have hfr := (weigh_eq_zero_iff freeing s.calls).mp hl p hp
  cases p with
  | send id b x pc => simpa [hs] using hk.sender _ hp x rfl
  | recv id b pc =>
    have := le_weigh receiving hp
    simp only [show receiving (.recv id b pc : Party c T) = 1 from rfl] at this
    omega
  | drop_sender pc => cases pc <;> simp [unreleased,freeing] at hu hfr
  | drop_receiver pc => cases pc <;> simp [unreleased,freeing] at hu hfr

theorem freed_final (hk : Handles s) (hstep : SlotMachine.Step s e s') : s.inner.freed = false := by
  by_contra hf
  rw [Bool.not_eq_false] at hf
  obtain ⟨hs,hr,hc⟩ := freed_empty hk hf
  cases step_moves hstep with
  | move | wake | spurious | exit => exact absurd hc Multiset.cons_ne_zero
  | call_send _ _ hx =>
    simp only at hs
    simp [hs] at hx
  | call_recv => cases hr
  | clone_sender hx =>
    simp only at hs
    simp [hs] at hx
  | drop_sender => exact absurd hs Multiset.cons_ne_zero
  | drop_receiver => cases hr

theorem step_dropped (hstep : SlotMachine.Step s e s') :
    s'.inner.freed = s.inner.freed ∧ dropped e = [] ∨
    ∃ values, e = .dropped values ∧ drop_inner s.inner = some (s'.inner,values) := by
  cases step_moves hstep with
  | move hm =>
    left
    cases hm with
    | send hm =>
      refine ⟨(send_move_frame hm).2.2.1,?_⟩
      cases hm with
      | attempt => split <;> rfl
      | _ => rfl
    | recv hm => exact ⟨(recv_move_frame hm).2.2.1,by cases hm <;> rfl⟩
    | drop hm => cases hm <;> exact ⟨rfl,rfl⟩
  | exit hx =>
    cases hx with
    | sender_free hd => exact .inr ⟨_,rfl,hd⟩
    | receiver_free hd => exact .inr ⟨_,rfl,hd⟩
    | _ => exact .inl ⟨rfl,rfl⟩
  | _ => exact .inl ⟨rfl,rfl⟩

theorem dropped_step (hk : Handles s) (hd : gather dropped h =
      if s.inner.freed && RecvStatus.commit s.inner.recv then s.inner.slot.toList else [])
    (hstep : SlotMachine.Step s e s') : gather dropped (h++[e]) =
      if s'.inner.freed && RecvStatus.commit s'.inner.recv then s'.inner.slot.toList else [] := by
  have hf := freed_final hk hstep
  rw [hf, Bool.false_and, if_neg Bool.false_ne_true] at hd
  rw [gather_append, hd, List.nil_append]
  rcases step_dropped hstep with ⟨hf',hd'⟩ | ⟨values,rfl,hd'⟩
  · rw [hf', hf, hd']
    rfl
  · obtain ⟨hm,rfl⟩ := drop_inner_spec hd'
    rw [hm]
    rfl

theorem dropped_run (hrun : Steps SlotMachine.Step mpsc h s) : gather dropped h =
    if s.inner.freed && RecvStatus.commit s.inner.recv then s.inner.slot.toList else [] :=
  hrun.carries (fun h s => gather dropped h =
    if s.inner.freed && RecvStatus.commit s.inner.recv then s.inner.slot.toList else []) rfl
    (fun _ _ _ _ hr ih hstep => dropped_step (handles_run hr) ih hstep)

theorem empty_freed (hk : Handles s) (hs : s.senders = 0) (hr : s.receiver = false)
    (hc : s.calls = 0) : s.inner.freed = true := by
  have h1 := hk.arc_tallied.counted
  have h2 := hk.arc_tallied.once
  simp only [arc_tally, hs, hr, hc, weigh_zero, Multiset.card_zero, Bool.toNat_false] at h1 h2
  rw [if_pos (by omega)] at h2
  simpa using h2

/-- No party is about to read a slot that is not initialised. -/
theorem no_ub (hi : PoolSlots.Inv (view h s)) {p : Party c T} (hp : p ∈ s.calls) :
    code s.inner p ≠ .ub := by
  have hfree : free_code s.inner ≠ .ub := by
    rw [free_code, drop_inner]
    cases hc : RecvStatus.commit s.inner.recv
    · simp
    · have hready : (board s.inner).ready = .univ := by rw [board, hc, whole_true]
      have hsome := hi.ready_some (i := ()) (by simp only [view, hready]; exact Finset.mem_univ _)
      obtain ⟨v,hv⟩ := Option.isSome_iff_exists.mp hsome
      rw [show s.inner.slot = some v from hv]
      simp
  have hrelease (q : Party c T) : release_code s.inner q ≠ .ub := by
    rw [release_code]
    split <;> simp
  cases p with
  | send id b x pc => cases pc <;> simp [code,send_code]
  | recv id b pc =>
    cases pc with
    | read =>
      obtain ⟨rest,hrest⟩ := Multiset.exists_cons_of_mem hp
      have hview : view h s =
          ⟨board s.inner,⟨∅,∅,.univ,.univ,0⟩ ::ₘ rest.map footprint,ledger h⟩ := by
        simp [view,hrest,footprint]
      have hsome := ((hview ▸ hi).unread_some (Finset.mem_univ ())).1
      obtain ⟨v,hv⟩ := Option.isSome_iff_exists.mp hsome
      simp [code,recv_code,show s.inner.slot = some v from hv]
    | _ => simp [code,recv_code]
  | drop_sender pc =>
    cases pc with
    | free => exact hfree
    | release => exact hrelease _
    | _ => simp [code,drop_sender_code]
  | drop_receiver pc =>
    cases pc with
    | free => exact hfree
    | release => exact hrelease _
    | _ => simp [code,drop_receiver_code]

end Freed

/-- What holds of the values after a history `h` that ends in `s`. -/
structure Delivered (h : List (Event T)) (s : SlotMachine.State c T) : Prop where
  in_order : ∃ rest, gather reserved h = gather returned h++rest ∧
    rest.length ≤ 1+weigh returning s.calls
  one_returning : weigh returning s.calls ≤ 1
  given : (gather given h : Multiset T) =
    gather reserved h+gather handed_back h+weigh waiting s.calls
  handed_back : (gather SlotDelivery.given h).Nodup →
    (gather handed_back h).Disjoint (gather reserved h)
  one_owner : slot_owners s ≤ 1
  initialised : ∀ p ∈ s.calls, code s.inner p ≠ .ub
  owned : s.receiver = true → (reservations s.inner.send ≠ 0 ↔ slot_owners s = 1)
  freed : s.senders = 0 → s.receiver = false → s.calls = 0 → s.inner.freed = true
  kept : s.inner.freed = false → gather dropped h = []
  dropped : s.inner.freed = true → gather committed h = gather reserved h ∧
    gather committed h = gather returned h++gather dropped h

section Delivery

variable {h : List (Event T)} {s : SlotMachine.State c T}

theorem behind (hp : Pipeline h s) : ∃ rest, gather reserved h = gather returned h++rest ∧
    rest.length ≤ slot_owners s+weigh returning s.calls := by
  obtain ⟨u,hu,hcu⟩ := hp.reserved
  obtain ⟨a,ha,hca⟩ := hp.claimed
  refine ⟨a++((if RecvStatus.commit s.inner.recv then s.inner.slot.toList else [])++u),?_,?_⟩
  · rw [hu, hp.committed, ha, List.append_assoc, List.append_assoc]
  have h1 := weigh_le (fun p (_ : p ∈ s.calls) => uncommitted_card s.inner.slot p)
  have h2 := weigh_le (fun p (_ : p ∈ s.calls) => unreturned_card s.inner.slot p)
  rw [← weigh_card, ← hcu, Multiset.coe_card] at h1
  rw [← weigh_card, ← hca, Multiset.coe_card, weigh_add] at h2
  have h3 : (if RecvStatus.commit s.inner.recv then s.inner.slot.toList else []).length ≤
      (RecvStatus.commit s.inner.recv).toNat := by
    cases RecvStatus.commit s.inner.recv
    · exact le_rfl
    · cases s.inner.slot <;> simp
  simp only [List.length_append, slot_owners]
  omega

theorem dropped_rest (hp : Pipeline h s) (hc : s.calls = 0) :
    gather committed h = gather reserved h ∧ gather committed h = gather returned h++
      if RecvStatus.commit s.inner.recv then s.inner.slot.toList else [] := by
  obtain ⟨u,hu,hcu⟩ := hp.reserved
  obtain ⟨a,ha,hca⟩ := hp.claimed
  rw [hc, weigh_zero, Multiset.coe_eq_zero] at hcu hca
  rw [hcu, List.append_nil] at hu
  rw [hca, List.append_nil] at ha
  exact ⟨hu.symm,ha ▸ hp.committed⟩

/-- The slot delivers in the order of the reservations, everything that was
reserved for and nothing else. -/
theorem delivery (hrun : Steps SlotMachine.Step mpsc h s) (hn : s.calls.card ≤ 2^60)
    (ha : .abort ∉ h) : Delivered h s := by
  have hk := handles_run hrun
  have hcalm := (calm_run hrun ((aborting_le_card s).trans hn)).1
  have hi := slots_run hcalm
  have hp := pipeline_run hcalm
  have hacc := accounted_run hrun ha
  have hdrop := dropped_run hrun
  have hone : slot_owners s ≤ 1 := (owners_le hi).trans (Bool.toNat_le _)
  have hret := weigh_le (fun p (_ : p ∈ s.calls) =>
    (Nat.le_add_left (returning p) (reading p)).trans (reading_le p))
  obtain ⟨rest,hrest,hlen⟩ := behind hp
  refine ⟨⟨rest,hrest,by omega⟩,hret.trans (hk.receiver.trans (Bool.toNat_le _)),hacc,
    handed_back_disjoint hacc,hone,fun p => no_ub hi,fun hr => ?_,empty_freed hk,fun hf => ?_,
    fun hf => ?_⟩
  · have ho := open_run hcalm
    have hd : dead s.inner.send = false := by
      rw [OpenOrDead, hr, Bool.toNat_true] at ho
      cases hd : dead s.inner.send
      · rfl
      · rw [hd, Bool.toNat_true] at ho
        omega
    rw [Ne, reservations_eq_zero]
    exact owners_open hi hd
  · simpa [hf] using hdrop
  · have := dropped_rest hp (freed_empty hk hf).2.2
    rw [hf, Bool.true_and] at hdrop
    rwa [hdrop]

/-- The receiver has freed the slot and has yet to wake a sender when a third
sender takes it. -/
def two_behind : List (Command ℕ) :=
  [Command.clone_sender 0,Command.call_send 0 false 1]++List.replicate 5 (Command.act 0)++
    [Command.call_send 0 true 2]++List.replicate 36 (Command.act 0)++
    [Command.call_recv false]++List.replicate 4 (Command.act 1)++
    [Command.call_send 1 false 3,Command.act 2]

theorem delivery_two_behind : ∃ (h : List (Event ℕ)) (s : SlotMachine.State .x86_64 ℕ),
    Steps SlotMachine.Step mpsc h s ∧ Delivered h s ∧ gather reserved h = [1,3] := by
  obtain ⟨h,s,hr,hn,ha,hq⟩ := reaches .x86_64 two_behind
    (fun h s => s.calls.card ≤ 2^60 ∧ .abort ∉ h ∧ gather reserved h = [1,3]) (by decide +kernel)
  exact ⟨h,s,hr,delivery hr hn ha,hq⟩

theorem delivery_not_one_behind : ∃ (h : List (Event ℕ)) (s : SlotMachine.State .x86_64 ℕ),
    Steps SlotMachine.Step mpsc h s ∧ s.calls.card ≤ 2^60 ∧ .abort ∉ h ∧
      ¬ ∃ rest, gather reserved h = gather returned h++rest ∧ rest.length ≤ 1 := by
  obtain ⟨h,s,hr,hn,ha,h1,h2⟩ := reaches .x86_64 two_behind
    (fun h s => s.calls.card ≤ 2^60 ∧ .abort ∉ h ∧ gather reserved h = [1,3] ∧
      gather returned h = []) (by decide +kernel)
  refine ⟨h,s,hr,hn,ha,?_⟩
  rintro ⟨rest,hrest,hlen⟩
  rw [h1, h2, List.nil_append] at hrest
  rw [← hrest] at hlen
  exact absurd hlen (by decide)

end Delivery
end Lockness.SlotDelivery
