import Mathlib.Data.Fintype.Basic
import Lockness.PoolSlots
import Lockness.SlotHandles

/-!
# The slot as a board of one cell

The senders' word says whether the cell is taken, the receiver's whether it is
ready. Once `RECEIVER_DEAD` is up the cell counts as taken for good. Every calm
step of the channel keeps the account of the board.
-/

set_option autoImplicit false

namespace Lockness.SlotBoard
open Lockness.PoolRuns Lockness.PoolFutex Lockness.PoolSlots
open Lockness.SlotWords Lockness.SlotWords.SendStatus
open Lockness.SlotMachine Lockness.SlotMoves Lockness.SlotAttempts Lockness.SlotHandles

variable {c : Target} {T : Type*}

def whole (b : Bool) : Finset Unit := if b then Finset.univ else ∅

@[simp] theorem whole_true : whole true = Finset.univ := rfl

@[simp] theorem whole_false : whole false = ∅ := rfl

theorem whole_union (b : Bool) : whole b ∪ Finset.univ = Finset.univ :=
  Finset.union_eq_right.mpr (Finset.subset_univ _)

def footprint : Party c T → Footprint Unit T
  | .send _ _ _ (.check _ prev) => if won prev then ⟨.univ,.univ,∅,∅,0⟩ else .idle
  | .send _ _ _ (.write _) => ⟨.univ,.univ,∅,∅,0⟩
  | .send _ _ _ .commit => ⟨.univ,∅,∅,∅,0⟩
  | .recv _ _ .read => ⟨∅,∅,.univ,.univ,0⟩
  | .recv _ _ (.release value) => ⟨∅,∅,.univ,∅,{value}⟩
  | .recv _ _ (.wake value) => ⟨∅,∅,∅,∅,{value}⟩
  | .recv _ _ (.done (.ok value)) => ⟨∅,∅,∅,∅,{value}⟩
  | _ => .idle

def board (m : Inner c T) : Board Unit T where
  taken := whole (dead m.send || count m.send != 0)
  ready := whole (RecvStatus.commit m.recv)
  bag _ := m.slot
  closed := dead m.send

def written : Event T → List T
  | .write v => [v]
  | _ => []

def committed : Event T → List T
  | .commit values => values
  | _ => []

def claimed : Event T → List T
  | .claim values => values
  | _ => []

def returned : Event T → List T
  | .received _ (.ok value) => [value]
  | _ => []

def reserved : Event T → List T
  | .reserve v => [v]
  | _ => []

def dropped : Event T → List T
  | .dropped values => values
  | _ => []

def gather (f : Event T → List T) (h : List (Event T)) : List T := h.flatMap f

@[simp] theorem gather_nil (f : Event T → List T) : gather f [] = [] := rfl

@[simp] theorem gather_append (f : Event T → List T) (h : List (Event T)) (e : Event T) :
    gather f (h++[e]) = gather f h++f e := by
  simp [gather]

def ledger (h : List (Event T)) : Ledger T :=
  ⟨gather written h,gather committed h,gather claimed h,gather returned h⟩

def view (h : List (Event T)) (s : SlotMachine.State c T) : PoolSlots.State Unit T :=
  ⟨board s.inner,s.calls.map footprint,ledger h⟩

section Moves

variable {h : List (Event T)} {m m' : Inner c T} {e : Event T}

def Blank (e : Event T) : Prop :=
  written e = [] ∧ committed e = [] ∧ claimed e = [] ∧ returned e = []

theorem ledger_blank (h : List (Event T)) {e : Event T} (he : Blank e) :
    ledger (h++[e]) = ledger h := by
  obtain ⟨h1,h2,h3,h4⟩ := he
  simp [ledger,h1,h2,h3,h4]

theorem ledger_tau (h : List (Event T)) : ledger (h++[.tau]) = ledger h :=
  ledger_blank h ⟨rfl,rfl,rfl,rfl⟩

theorem cells_bag (m : Inner c T) : cells (board m).bag .univ = (m.slot.toList : Multiset T) := by
  rw [cells, board]
  cases hs : m.slot <;> simp

theorem board_frame (hc : count m'.send = count m.send) (hd : dead m'.send = dead m.send)
    (hr : RecvStatus.commit m'.recv = RecvStatus.commit m.recv) (hs : m'.slot = m.slot) :
    board m' = board m := by
  simp only [board, hc, hd, hr, hs]

theorem won_false {prev : SendStatusU c} (hp : dead prev = true ∨ count prev ≠ 0) :
    won prev = false := by
  rw [Bool.eq_false_iff]
  intro hw
  obtain ⟨hd,h0⟩ := (won_iff prev).mp hw
  rcases hp with hp | hp
  · exact absurd (hd.symm.trans hp) (by decide)
  · exact hp h0

theorem attempt_slots (hcalm : ¬ Carries m.send) (id x : ℕ) (b : Bool) (data : T) :
    Move (board m) (ledger h) (footprint (.send id b x (.attempt data) : Party c T))
      (board { m with send := attempt c m.send }) (footprint (.send id b x (.check data m.send)))
      (ledger (h++[if won m.send then .reserve data else .tau])) := by
  obtain ⟨h0,-,hd,-⟩ := attempt_spec hcalm
  have hl : ledger (h++[if won m.send then .reserve data else .tau]) = ledger h := by
    split <;> exact ledger_blank h ⟨rfl,rfl,rfl,rfl⟩
  rw [hl]
  by_cases hw : won m.send = true
  · obtain ⟨hd0,hc0⟩ := (won_iff _).mp hw
    have ht : (board m).taken = ∅ := by simp [board,hd0,hc0]
    have hb : board { m with send := attempt c m.send } =
        { board m with taken := (board m).taken ∪ .univ } := by
      rw [board, hd, bne_iff_ne.mpr h0, Bool.or_true, board, whole_union]
      rfl
    rw [hb]
    simp only [footprint, hw, if_true]
    exact .reserve hd0 (by rw [ht]; exact Finset.disjoint_empty_right _)
  · have hb : board { m with send := attempt c m.send } = board m := by
      simp only [board, hd]
      cases hd' : dead m.send
      · have hc0 : count m.send ≠ 0 := fun hc0 => hw ((won_iff _).mpr ⟨hd',hc0⟩)
        rw [bne_iff_ne.mpr h0, bne_iff_ne.mpr hc0]
      · rw [Bool.true_or, Bool.true_or]
    rw [hb]
    simp only [footprint, hw]
    exact .rest _

theorem send_move_slots {id x : ℕ} {b : Bool} {pc pc' : SendPc c T} (hcalm : ¬ Carries m.send)
    (hm : SendMove m b pc m' pc' e) :
    Move (board m) (ledger h) (footprint (.send id b x pc)) (board m')
      (footprint (.send id b x pc')) (ledger (h++[e])) := by
  cases hm with
  | attempt data => exact attempt_slots hcalm id x b data
  | abort ha =>
    rw [ledger_blank h ⟨rfl,rfl,rfl,rfl⟩]
    simp only [footprint, won_false (.inr (aborts_count ha))]
    exact .rest _
  | refuse _ hd =>
    rw [ledger_tau]
    simp only [footprint, won_false (.inl hd)]
    exact .rest _
  | full _ _ hc =>
    rw [ledger_tau]
    cases b <;> simp only [footprint, won_false (.inr hc)] <;> exact .rest _
  | own hd hc =>
    rw [ledger_tau]
    simp only [footprint, (won_iff _).mpr ⟨hd,hc⟩]
    exact .rest _
  | write data =>
    have hl : ledger (h++[.write data]) = { ledger h with put := {data}+(ledger h).put } := by
      simp [ledger,written,committed,claimed,returned]
    have hb : board { m with slot := some data } =
        { board m with bag := Function.update (board m).bag () (some data) } := by
      simp only [board]
      congr 1
    rw [hl, hb]
    exact .write (f := ⟨.univ,.univ,∅,∅,0⟩) data (Finset.mem_univ ())
  | commit =>
    have hl : ledger (h++[.commit m.slot.toList]) =
        { ledger h with committed := cells (board m).bag .univ+(ledger h).committed } := by
      rw [cells_bag, add_comm]
      simp [ledger,written,committed,claimed,returned]
    have hb : board { m with recv := RecvStatus.COMMIT } =
        { board m with ready := (board m).ready ∪ .univ } := by
      simp only [board, RecvStatus.commit_COMMIT, whole_true, whole_union]
    have hf : footprint (.send id b x (if RecvStatus.sleeping m.recv then .wake else .done .ok) :
        Party c T) = ⟨∅,∅,∅,∅,0⟩ := by
      split <;> rfl
    rw [hl, hb, hf]
    exact .commit (f := ⟨.univ,∅,∅,∅,0⟩) rfl
  | @spin data spin w pc hc hd _ hcase =>
    have hb : board { m with send := w } = board m := board_frame hc hd rfl rfl
    rw [ledger_tau, hb]
    rcases hcase with ⟨-,rfl⟩ | ⟨-,-,rfl⟩ | ⟨-,-,-,rfl⟩ | ⟨-,-,rfl⟩ <;> exact .rest _
  | sleep | miss =>
    rw [ledger_tau]
    exact .rest _
  | rearm =>
    have hb : board { m with send := m.send ||| SLEEPING c } = board m :=
      board_frame (count_or_SLEEPING _) (dead_or_SLEEPING _) rfl rfl
    rw [ledger_tau, hb]
    exact .rest _

theorem recv_move_slots {id : ℕ} {b : Bool} {pc pc' : RecvPc T} (ho : dead m.send = false)
    (hf : clearing (.recv id b pc : Party c T) ≤ (RecvStatus.commit m.recv).toNat)
    (hm : RecvMove m b pc m' pc' e) :
    Move (board m) (ledger h) (footprint (.recv id b pc : Party c T)) (board m')
      (footprint (.recv id b pc' : Party c T)) (ledger (h++[e])) := by
  cases hm with
  | found | sleep | miss =>
    rw [ledger_tau]
    exact .rest _
  | ended =>
    rw [ledger_tau]
    cases b <;> exact .rest _
  | empty i =>
    rw [ledger_tau]
    cases b
    · exact .rest _
    · by_cases hi : i < 32 <;> simp only [hi, if_true, if_false] <;> exact .rest _
  | clear =>
    have hc : RecvStatus.commit m.recv = true := by
      cases hc : RecvStatus.commit m.recv
      · simp [hc,clearing] at hf
      · rfl
    have hready : (board m).ready = .univ := by rw [board, hc, whole_true]
    have hl : ledger (h++[.claim m.slot.toList]) =
        { ledger h with claimed := cells (board m).bag (board m).ready+(ledger h).claimed } := by
      rw [hready, cells_bag, add_comm]
      simp [ledger,written,committed,claimed,returned]
    have hb : board { m with recv := m.recv &&& RecvStatus.SENDER_DEAD } =
        { board m with ready := ∅ } := by simp [board]
    have hfp : footprint (.recv id b .read : Party c T) =
        ⟨∅,∅,(board m).ready,(board m).ready,0⟩ := by rw [hready]; rfl
    rw [hl, hb, hfp]
    exact .claim
  | @read value hv =>
    have hb : board { m with slot := none } =
        { board m with bag := Function.update (board m).bag () none } := by
      simp only [board]
      congr 1
    rw [ledger_tau, hb]
    exact .read (f := ⟨∅,∅,.univ,.univ,0⟩) (Finset.mem_univ ()) hv
  | release value =>
    have hb : board { m with send := (0 : SendStatusU c) } =
        { board m with taken := (board m).taken \ .univ } := by
      rw [board, Finset.sdiff_eq_empty_iff_subset.mpr (Finset.subset_univ _)]
      simp [board,ho]
    have hfp : footprint (.recv id b (if sleeping m.send then .wake value else .done (.ok value))
        : Party c T) = ⟨∅,∅,∅,∅,{value}⟩ := by
      split <;> rfl
    rw [ledger_tau, hb, hfp]
    exact .release (f := ⟨∅,∅,.univ,∅,{value}⟩) rfl ho
  | arm =>
    have hb : board { m with recv := m.recv ||| RecvStatus.SLEEPING } = board m :=
      board_frame rfl rfl (by simp) rfl
    have hf : footprint (.recv id b (if m.recv ≠ 0 then .load 0 else .sleep) : Party c T) =
        .idle := by
      split <;> rfl
    rw [ledger_tau, hb, hf]
    exact .rest _

theorem drop_move_slots {p p' : Party c T} (hm : DropMove m p m' p' e) :
    ∃ b, Move (board m) (ledger h) (footprint p) b (footprint p) (ledger h) ∧
      Move b (ledger h) (footprint p) (board m') (footprint p') (ledger (h++[e])) := by
  cases hm with
  | sender_count =>
    rw [ledger_tau]
    exact ⟨_,.rest _,.rest _⟩
  | sender_raise =>
    have hb : board { m with recv := m.recv ||| RecvStatus.SENDER_DEAD } = board m :=
      board_frame rfl rfl (by simp) rfl
    rw [ledger_blank h ⟨rfl,rfl,rfl,rfl⟩, hb]
    exact ⟨_,.rest _,.rest _⟩
  | receiver_raise =>
    have hb : board { m with send := RECEIVER_DEAD c } =
        { board m with taken := .univ, closed := true } := by
      simp only [board, dead_RECEIVER_DEAD, Bool.true_or, whole_true]
    rw [ledger_blank h ⟨rfl,rfl,rfl,rfl⟩, hb]
    exact ⟨_,.close _,.overshoot _ rfl (Finset.subset_univ _)⟩
  | last_sender | last_receiver =>
    rw [ledger_tau]
    exact ⟨_,.rest _,.rest _⟩

theorem footprint_waking {p p' : Party c T} {w : Futex} {k : ℕ} (hp : Waking p w k p') :
    footprint p' = footprint p := by
  cases hp <;> rfl

theorem footprint_woken {p q : Party c T} {w : Futex} (hw : woken w p = some q) :
    footprint q = footprint p := by
  rcases woken_cases hw with ⟨_,_,_,_,_,rfl,rfl⟩ | ⟨_,_,_,rfl,rfl⟩ <;> rfl

theorem exit_slots {p : Party c T} (hx : Exit m p m' e) : ∃ vs, footprint p = ⟨∅,∅,∅,∅,vs⟩ ∧
    board m' = board m ∧
      ledger (h++[e]) = { ledger h with returned := vs+(ledger h).returned } := by
  obtain ⟨hsend,hrecv,-,hslot⟩ := exit_frame hx
  have hb : board m' = board m :=
    board_frame (by rw [hsend]) (by rw [hsend]) (by rw [hrecv]) hslot
  have hblank (he : Blank e) (hf : footprint p = .idle) :
      ∃ vs, footprint p = ⟨∅,∅,∅,∅,vs⟩ ∧ board m' = board m ∧
        ledger (h++[e]) = { ledger h with returned := vs+(ledger h).returned } := by
    refine ⟨0,hf,hb,?_⟩
    rw [ledger_blank h he, zero_add]
  cases hx with
  | recv id blocking r =>
    cases r with
    | ok value =>
      refine ⟨{value},rfl,hb,?_⟩
      rw [add_comm]
      simp only [ledger, gather_append, ← Multiset.coe_add]
      simp [written,committed,claimed,returned]
    | _ => exact hblank ⟨rfl,rfl,rfl,rfl⟩ rfl
  | _ => exact hblank ⟨rfl,rfl,rfl,rfl⟩ rfl

end Moves

section Steps

variable {h : List (Event T)} {s s' : SlotMachine.State c T} {e : Event T}

theorem move_slots {m m' : Inner c T} {ss : Multiset ℕ} {r : Bool} {n : ℕ} {p p' : Party c T}
    {rest : Multiset (Party c T)} (hk : Handles ⟨m,ss,r,p ::ₘ rest,n⟩)
    (ho : OpenOrDead ⟨m,ss,r,p ::ₘ rest,n⟩) (hcalm : ¬ Carries m.send)
    (hi : PoolSlots.Inv (view h ⟨m,ss,r,p ::ₘ rest,n⟩)) (hm : PartyMove m p m' p' e) :
    PoolSlots.Inv (view (h++[e]) ⟨m',ss,r,p' ::ₘ rest,n⟩) := by
  simp only [view, Multiset.map_cons] at hi ⊢
  cases hm with
  | send hm => exact hi.move (send_move_slots hcalm hm)
  | recv hm =>
    have hfound := hk.found
    rw [weigh_cons] at hfound
    have hf := (Nat.le_add_right _ _).trans hfound
    exact hi.move (recv_move_slots (receive_open hk ho rfl) hf hm)
  | drop hm =>
    obtain ⟨b,hm1,hm2⟩ := drop_move_slots hm
    exact (hi.move hm1).move hm2

theorem enter_slots {m : Inner c T} {ss ss' : Multiset ℕ} {r r' : Bool} {n n' : ℕ}
    {p : Party c T} {calls : Multiset (Party c T)} (hp : footprint p = .idle) (he : Blank e)
    (hi : PoolSlots.Inv (view h ⟨m,ss,r,calls,n⟩)) :
    PoolSlots.Inv (view (h++[e]) ⟨m,ss',r',p ::ₘ calls,n'⟩) := by
  simp only [view, Multiset.map_cons, hp, ledger_blank h he] at hi ⊢
  exact hi.step (.enter _ _ _)

theorem slots_step (hk : Handles s) (ho : OpenOrDead s) (hi : PoolSlots.Inv (view h s))
    (hstep : CalmStep s e s') : PoolSlots.Inv (view (h++[e]) s') := by
  obtain ⟨hstep,hcalm⟩ := hstep
  cases step_moves hstep with
  | move hm => exact move_slots hk ho hcalm hi hm
  | wake hp hw =>
    simp only [view, Multiset.map_cons, footprint_waking hp, ledger_tau] at hi ⊢
    rwa [hw.map_eq (fun p q hq => footprint_woken hq)]
  | spurious hw =>
    simpa only [view, Multiset.map_cons, footprint_woken hw, ledger_tau] using hi
  | exit hx =>
    obtain ⟨vs,hf,hb,hl⟩ := exit_slots (h := h) hx
    simp only [view, Multiset.map_cons, hf, hb, hl] at hi ⊢
    exact hi.step (.leave _ vs _ _)
  | clone_sender =>
    rw [view, ledger_tau]
    exact hi
  | _ => exact enter_slots rfl ⟨rfl,rfl,rfl,rfl⟩ hi

/-- The cell is in order in every state that a calm run reaches. -/
theorem slots_run (hrun : Steps CalmStep mpsc h s) : PoolSlots.Inv (view h s) := by
  refine hrun.carries (fun h s => PoolSlots.Inv (view h s)) ?_
    (fun _ _ _ _ hr hi hs => slots_step (handles_run hr.of_when) (open_run hr) hi hs)
  have hstart : view [] (mpsc : SlotMachine.State c T) =
      ⟨⟨∅,∅,fun _ => none,false⟩,0,⟨0,0,0,0⟩⟩ := by
    simp [view,board,mpsc,ledger]
  exact hstart ▸ Inv.start

end Steps
end Lockness.SlotBoard
