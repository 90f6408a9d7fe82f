import Lockness.BagHandles

/-!
# The bag as a board of slots

`send` says what is taken, `recv` what is ready, and the registers of a call
what it owns; the history is the ledger. Every step of the channel is a step of
that board, so its accounts of slots and values hold in every reachable state.
-/

set_option autoImplicit false

namespace Lockness.BagBoard
open Lockness.PoolRuns Lockness.PoolFutex Lockness.PoolSlots Lockness.BagMasks
open Lockness.BagMachine Lockness.BagMoves Lockness.BagInversion Lockness.BagHandles

variable {T : Type*}

def footprint : Party T → Footprint Slot T
  | .send _ _ _ (.write _ reserved todo) => ⟨slots reserved,slots todo,∅,∅,0⟩
  | .recv _ _ _ (.read claimed todo values) => ⟨∅,∅,slots claimed,slots todo,values⟩
  | .recv _ _ _ (.wake values) => ⟨∅,∅,∅,∅,values⟩
  | .recv _ _ _ (.done (.ok values)) => ⟨∅,∅,∅,∅,values⟩
  | _ => .idle

def board (m : Inner T) : Board Slot T := ⟨slots m.send,slots m.recv,m.bag,dead m.send⟩

def taken : Event T → Multiset T
  | .take v => {v}
  | _ => 0

def committed : Event T → Multiset T
  | .commit values => values
  | _ => 0

def claimed : Event T → Multiset T
  | .claim values => values
  | _ => 0

def returned : Event T → Multiset T
  | .received _ (.ok values) => values
  | _ => 0

def dropped : Event T → Multiset T
  | .dropped values => values
  | _ => 0

def total (f : Event T → Multiset T) (h : List (Event T)) : Multiset T := (h.map f).sum

theorem total_append (f : Event T → Multiset T) (h : List (Event T)) (e : Event T) :
    total f (h++[e]) = f e+total f h := by
  simp [total,add_comm]

def ledger (h : List (Event T)) : Ledger T :=
  ⟨total taken h,total committed h,total claimed h,total returned h⟩

def view (h : List (Event T)) (s : BagMachine.State T) : PoolSlots.State Slot T :=
  ⟨board s.inner,s.calls.map footprint,ledger h⟩

section Moves

variable {h : List (Event T)} {m m' : Inner T} {e : Event T}

theorem ledger_append (h : List (Event T)) (e : Event T) : ledger (h++[e]) =
    ⟨taken e+total taken h,committed e+total committed h,claimed e+total claimed h,
      returned e+total returned h⟩ := by
  simp only [ledger, total_append]

def Blank (e : Event T) : Prop :=
  taken e = 0 ∧ committed e = 0 ∧ claimed e = 0 ∧ returned e = 0

theorem ledger_blank (h : List (Event T)) {e : Event T} (he : Blank e) :
    ledger (h++[e]) = ledger h := by
  rw [ledger_append, he.1, he.2.1, he.2.2.1, he.2.2.2]
  simp [ledger]

theorem ledger_tau (h : List (Event T)) : ledger (h++[.tau]) = ledger h :=
  ledger_blank h ⟨rfl,rfl,rfl,rfl⟩

theorem footprint_try_send (id : ℕ) (blocking : Bool) (x : Sender) (d : SendBuffer T) :
    footprint (.send id blocking x (try_send x d)) = .idle := by
  rcases try_send_spec x d with ⟨-,ht⟩ | ⟨-,data,-,ht⟩ <;> rw [ht] <;> rfl

theorem send_move_slots {id : ℕ} {blocking : Bool} {x : Sender} {pc pc' : SendPc T}
    (hm : SendMove m blocking x pc m' pc' e) :
    Move (board m) (ledger h) (footprint (.send id blocking x pc)) (board m')
      (footprint (.send id blocking x pc')) (ledger (h++[e])) := by
  cases hm with
  | refuse _ hd _ hs hd' =>
    simp only [board, hs, hd, hd', ledger_tau, footprint]
    exact .overshoot _ rfl Finset.subset_union_left
  | full =>
    rw [ledger_tau]
    cases blocking <;> exact .rest _
  | @reserve _ _ mask reserved w hd hres _ hs hd' =>
    simp only [board, hs, hd, hd', ledger_tau, footprint]
    refine .reserve rfl ?_
    rw [hres]
    exact Finset.sdiff_disjoint
  | retry =>
    rw [ledger_tau]
    exact .rest _
  | @write data data' reserved todo todo' i v hi ht =>
    have hl : ledger (h++[.take v]) = { ledger h with put := {v}+(ledger h).put } := by
      rw [ledger_append]
      simp [ledger,taken,committed,claimed,returned]
    simp only [hl, footprint, ht]
    exact .write (f := ⟨slots reserved,slots todo,∅,∅,0⟩) v hi
  | @commit data reserved todo w ht hs =>
    have hl : ledger (h++[.commit (cells m.bag (slots reserved))]) =
        { ledger h with committed := cells m.bag (slots reserved)+(ledger h).committed } := by
      rw [ledger_append]
      simp [ledger,taken,committed,claimed,returned]
    have hf : footprint (.send id blocking x (if sleeping (~~~m.recv) then .wake else .done .ok)) =
        ({ footprint (.send id blocking x (.write data reserved todo)) with
          reserved := ∅ } : Footprint Slot T) := by
      cases sleeping (~~~m.recv) <;> simp [footprint,ht,Footprint.idle]
    rw [hl, hf]
    simp only [board, hs]
    exact .commit ht
  | @spin data spin pc' w hs hd _ hcase =>
    have hf : footprint (.send id blocking x pc') = .idle := by
      rcases hcase with ⟨-,rfl⟩ | ⟨-,-,rfl⟩ | ⟨-,-,-,rfl⟩ | ⟨-,rfl⟩
      · exact footprint_try_send id blocking x data
      all_goals rfl
    rw [ledger_tau, hf]
    simp only [board, hs, hd]
    exact .rest _
  | sleep =>
    rw [ledger_tau]
    exact .rest _
  | miss =>
    rw [ledger_tau]
    exact .rest _
  | rearm hs hd =>
    rw [ledger_tau, footprint_try_send]
    simp only [board, hs, hd]
    exact .rest _

theorem recv_move_slots {id x : ℕ} {blocking : Bool} {pc pc' : RecvPc T}
    (ho : dead m.send = false) (hm : RecvMove m blocking pc m' pc' e) :
    Move (board m) (ledger h) (footprint (.recv id blocking x pc)) (board m')
      (footprint (.recv id blocking x pc')) (ledger (h++[e])) := by
  cases hm with
  | none _ hcase =>
    rw [ledger_tau]
    rcases hcase with ⟨-,rfl⟩ | ⟨-,rfl⟩ <;> cases blocking <;> exact .rest _
  | @claim claimed' w _ hcl hs =>
    have hl : ledger (h++[.claim (cells m.bag (slots m.recv))]) =
        { ledger h with claimed := cells m.bag (slots m.recv)+(ledger h).claimed } := by
      rw [ledger_append]
      simp [ledger,taken,committed,claimed,returned]
    rw [hl]
    simp only [board, hs, footprint, hcl]
    exact .claim
  | @read claimed' todo todo' values i v hi ht hv =>
    have hheld : ((values++[v] : List T) : Multiset T) = {v}+(values : Multiset T) := by
      rw [← Multiset.coe_add, add_comm]
      rfl
    simp only [ledger_tau, footprint, ht, hheld]
    exact .read (b := board m) (f := ⟨∅,∅,slots claimed',slots todo,values⟩) hi hv
  | @release claimed' todo w values ht hs hd =>
    have hf : footprint (.recv id blocking x
        (if sleeping m.send then .wake values else .done (.ok values))) =
        ({ footprint (.recv id blocking x (.read claimed' todo values)) with
          claimed := ∅ } : Footprint Slot T) := by
      cases sleeping m.send <;> simp [footprint,ht]
    rw [ledger_tau, hf]
    simp only [board, hs, hd, ho]
    exact .release ht rfl
  | @spin spin pc' w hs _ _ hcase =>
    have hf : footprint (.recv id blocking x pc') = .idle := by
      rcases hcase with ⟨-,rfl⟩ | ⟨-,-,rfl⟩ | ⟨-,-,-,rfl⟩ | ⟨-,rfl⟩ <;> rfl
    rw [ledger_tau, hf]
    simp only [board, hs]
    exact .rest _
  | sleep =>
    rw [ledger_tau]
    exact .rest _
  | miss =>
    rw [ledger_tau]
    exact .rest _
  | rearm hs =>
    rw [ledger_tau]
    simp only [board, hs]
    exact .rest _

theorem drop_move_slots {p p' : Party T} (hm : DropMove m p m' p' e) :
    Move (board m) (ledger h) (footprint p) (board m') (footprint p') (ledger (h++[e])) := by
  cases hm with
  | sender_raise hs =>
    rw [ledger_blank h ⟨rfl,rfl,rfl,rfl⟩]
    simp only [board, hs]
    exact .rest _
  | receiver_raise hs hd =>
    rw [ledger_blank h ⟨rfl,rfl,rfl,rfl⟩]
    simp only [board, hs, hd]
    exact .close _
  | _ =>
    rw [ledger_tau]
    exact .rest _

theorem footprint_woken {w : Futex} {p q : Party T} (hw : woken w p = some q) :
    footprint q = footprint p := by
  rcases woken_cases hw with ⟨id,b,x,d,-,rfl,rfl⟩ | ⟨id,b,r,-,rfl,rfl⟩ <;> rfl

theorem footprint_waking {w : Futex} {n : ℕ} {p q : Party T} (hw : Waking p w n q) :
    footprint q = footprint p := by
  cases hw <;> rfl

theorem exit_slots {c : Target T} {p : Party T} (hx : Exit c m p m' e) :
    ∃ vs, footprint p = ⟨∅,∅,∅,∅,vs⟩ ∧ board m' = board m ∧
      ledger (h++[e]) = { ledger h with returned := vs+(ledger h).returned } := by
  have hblank (he : Blank e) (hf : footprint p = .idle) (hb : board m' = board m) :
      ∃ vs, footprint p = ⟨∅,∅,∅,∅,vs⟩ ∧ board m' = board m ∧
        ledger (h++[e]) = { ledger h with returned := vs+(ledger h).returned } := by
    refine ⟨0,hf,hb,?_⟩
    rw [ledger_blank h he, zero_add]
  cases hx with
  | send => exact hblank ⟨rfl,rfl,rfl,rfl⟩ rfl rfl
  | recv id blocking x r =>
    cases r with
    | ok values =>
      refine ⟨values,rfl,rfl,?_⟩
      rw [ledger_append]
      simp [ledger,taken,committed,claimed,returned]
    | _ => exact hblank ⟨rfl,rfl,rfl,rfl⟩ rfl rfl
  | sender_release => exact hblank ⟨rfl,rfl,rfl,rfl⟩ rfl rfl
  | receiver_release => exact hblank ⟨rfl,rfl,rfl,rfl⟩ rfl rfl
  | sender_free hd => exact hblank ⟨rfl,rfl,rfl,rfl⟩ rfl (by rw [(drop_inner_spec hd).1]; rfl)
  | receiver_free hd => exact hblank ⟨rfl,rfl,rfl,rfl⟩ rfl (by rw [(drop_inner_spec hd).1]; rfl)

end Moves

section Steps

variable {c : Target T} {h : List (Event T)} {s s' : BagMachine.State T} {e : Event T}

theorem party_slots {m' : Inner T} {calls : Multiset (Party T)} (hk : Handles h s)
    (hstep : PartyStep (program c) s.inner s.calls e m' calls) :
    PoolSlots.Step (view h s) (view (h++[e]) { s with inner := m', calls := calls }) := by
  generalize hcalls : s.calls = cs at hstep
  cases hstep with
  | go hc =>
    rename_i p p' rest
    have hp : p ∈ s.calls := by simp [hcalls]
    simp only [view, hcalls, Multiset.map_cons]
    apply PoolSlots.Step.move
    cases code_moves (hk.ok p hp) hc with
    | send hm => exact send_move_slots hm
    | recv hm =>
      have ho := (hk.receivers_tallied.down (hk.receiver_pos hp rfl)).2
      exact recv_move_slots ho hm
    | drop hm => exact drop_move_slots hm
  | wake hc hw =>
    simp only [view, hcalls, Multiset.map_cons, footprint_waking (code_wakes hc)]
    rw [hw.map_eq (fun p q hq => footprint_woken hq), ledger_blank h ⟨rfl,rfl,rfl,rfl⟩]
    exact .still _
  | spurious hp =>
    simp only [view, hcalls, Multiset.map_cons, footprint_woken hp]
    rw [ledger_blank h ⟨rfl,rfl,rfl,rfl⟩]
    exact .still _
  | exit hc =>
    obtain ⟨vs,hf,hb,hl⟩ := exit_slots (h := h) (code_exits hc)
    simp only [view, hcalls, Multiset.map_cons, hf, hb, hl]
    exact .leave _ vs _ _

theorem step_slots (hk : Handles h s) (hstep : BagMachine.Step c s e s') :
    PoolSlots.Step (view h s) (view (h++[e]) s') := by
  cases hstep with
  | party hp => exact party_slots hk hp
  | call_send blocking data =>
    simp only [view, Multiset.map_cons, footprint_try_send]
    rw [ledger_blank h ⟨rfl,rfl,rfl,rfl⟩]
    exact .enter _ _ _
  | call_recv blocking =>
    simp only [view, Multiset.map_cons]
    rw [ledger_blank h ⟨rfl,rfl,rfl,rfl⟩]
    exact .enter _ _ _
  | clone_sender _ hc =>
    obtain ⟨-,-,rfl⟩ := clone_sender_ok hc
    simp only [view]
    rw [ledger_blank h ⟨rfl,rfl,rfl,rfl⟩]
    exact .still _
  | clone_sender_panic _ hc =>
    obtain ⟨-,rfl⟩ := clone_sender_panics hc
    simp only [view]
    rw [ledger_blank h ⟨rfl,rfl,rfl,rfl⟩]
    exact .still _
  | clone_receiver _ hc =>
    obtain ⟨-,rfl⟩ := clone_receiver_ok hc
    simp only [view]
    rw [ledger_blank h ⟨rfl,rfl,rfl,rfl⟩]
    exact .still _
  | drop_sender =>
    simp only [view, Multiset.map_cons]
    rw [ledger_blank h ⟨rfl,rfl,rfl,rfl⟩]
    exact .enter _ _ _
  | drop_receiver =>
    simp only [view, Multiset.map_cons]
    rw [ledger_blank h ⟨rfl,rfl,rfl,rfl⟩]
    exact .enter _ _ _

/-- The slots are in order in every reachable state. -/
theorem slots_run (hrun : Steps (BagMachine.Step c) mpmc h s) : PoolSlots.Inv (view h s) := by
  refine hrun.carries (fun h s => PoolSlots.Inv (view h s)) ?_
    (fun _ _ _ _ hr hi hs => hi.step (step_slots (handles_run hr) hs))
  have hstart : view [] mpmc =
      (⟨⟨∅,∅,fun _ => none,false⟩,0,⟨0,0,0,0⟩⟩ : PoolSlots.State Slot T) := by
    simp [view,board,mpmc,ledger,total]
  exact hstart ▸ Inv.start

end Steps

end Lockness.BagBoard
