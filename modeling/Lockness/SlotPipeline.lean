import Lockness.SlotBoard

/-!
# The way of a value through the slot

A value is reserved for, committed, claimed and returned. Along this way the
values keep their order, because the cell has one owner at a time and the
receiver runs one call at a time.
-/

set_option autoImplicit false

namespace Lockness.SlotPipeline
open Lockness.PoolRuns Lockness.PoolFutex Lockness.PoolSlots
open Lockness.SlotWords Lockness.SlotWords.SendStatus
open Lockness.SlotMachine Lockness.SlotMoves Lockness.SlotAttempts Lockness.SlotHandles
open Lockness.SlotBoard

variable {c : Target} {T : Type*}

def writing : Party c T → ℕ
  | .send _ _ _ (.check _ prev) => if won prev then 1 else 0
  | .send _ _ _ (.write _) => 1
  | .send _ _ _ .commit => 1
  | _ => 0

def reading : Party c T → ℕ
  | .recv _ _ .read => 1
  | .recv _ _ (.release _) => 1
  | _ => 0

def returning : Party c T → ℕ
  | .recv _ _ (.wake _) => 1
  | .recv _ _ (.done (.ok _)) => 1
  | _ => 0

/-- How many parties own the slot; a committed value is its own owner. -/
def slot_owners (s : SlotMachine.State c T) : ℕ :=
  weigh writing s.calls+(RecvStatus.commit s.inner.recv).toNat+weigh reading s.calls

def uncommitted (slot : Option T) : Party c T → Multiset T
  | .send _ _ _ (.check data prev) => if won prev then {data} else 0
  | .send _ _ _ (.write data) => {data}
  | .send _ _ _ .commit => cell slot
  | _ => 0

def unreturned (slot : Option T) : Party c T → Multiset T
  | .recv _ _ .read => cell slot
  | .recv _ _ (.release value) => {value}
  | .recv _ _ (.wake value) => {value}
  | .recv _ _ (.done (.ok value)) => {value}
  | _ => 0

section Ownership

variable {h : List (Event T)} {s : SlotMachine.State c T}

theorem mark_whole (b : Bool) (i : Unit) : mark (whole b) i = b.toNat := by cases b <;> rfl

theorem footprint_owner (p : Party c T) : mark (footprint p).reserved () = writing p ∧
    mark (footprint p).claimed () = reading p := by
  rcases p with ⟨_,_,_,pc⟩ | ⟨_,_,pc⟩ | pc | pc
  · cases pc with
    | check _ prev =>
      cases hw : won prev
      · simp [footprint,writing,reading,hw,Footprint.idle]
      · simp [footprint,writing,reading,hw,mark]
    | _ => exact ⟨rfl,rfl⟩
  · cases pc with
    | done r => cases r <;> exact ⟨rfl,rfl⟩
    | _ => exact ⟨rfl,rfl⟩
  · exact ⟨rfl,rfl⟩
  · exact ⟨rfl,rfl⟩

theorem owners_view (h : List (Event T)) (s : SlotMachine.State c T) :
    PoolSlots.owners (view h s) () = slot_owners s := by
  have hw : reservers (view h s).pool () = weigh writing s.calls :=
    (weigh_map _ _ _).trans (weigh_congr _ (fun p _ => (footprint_owner p).1))
  have hr : claimers (view h s).pool () = weigh reading s.calls :=
    (weigh_map _ _ _).trans (weigh_congr _ (fun p _ => (footprint_owner p).2))
  rw [PoolSlots.owners, hw, hr, slot_owners, view, board, mark_whole]
  omega

theorem owners_le (hi : PoolSlots.Inv (view h s)) :
    slot_owners s ≤ (dead s.inner.send || count s.inner.send != 0).toNat := by
  rw [← owners_view h s, ← mark_whole _ ()]
  exact hi.owned ()

theorem owners_open (hi : PoolSlots.Inv (view h s)) (ho : dead s.inner.send = false) :
    count s.inner.send ≠ 0 ↔ slot_owners s = 1 := by
  have := hi.open_owned ho ()
  rw [owners_view h s] at this
  simp only [view, board, mark_whole, ho, Bool.false_or] at this
  rw [this]
  by_cases h0 : count s.inner.send = 0 <;> simp [h0]

theorem uncommitted_card (slot : Option T) (p : Party c T) :
    (uncommitted slot p).card ≤ writing p := by
  rcases p with ⟨_,_,_,pc⟩ | _ | _ | _
  · cases pc with
    | check _ prev => cases hw : won prev <;> simp [uncommitted,writing,hw]
    | commit => cases slot <;> simp [uncommitted,writing]
    | _ => simp [uncommitted,writing]
  all_goals exact Nat.zero_le _

theorem unreturned_card (slot : Option T) (p : Party c T) :
    (unreturned slot p).card ≤ reading p+returning p := by
  rcases p with _ | ⟨_,_,pc⟩ | _ | _
  · exact Nat.zero_le _
  · cases pc with
    | read => cases slot <;> simp [unreturned,reading]
    | done r => cases r <;> simp [unreturned,returning]
    | _ => simp [unreturned,reading,returning]
  all_goals exact Nat.zero_le _

theorem reading_le (p : Party c T) : reading p+returning p ≤ receiving p := by
  rcases p with _ | ⟨_,_,pc⟩ | _ | _
  · exact Nat.zero_le _
  · cases pc with
    | done r => cases r <;> simp [reading,returning,receiving]
    | _ => simp [reading,returning,receiving]
  all_goals exact Nat.zero_le _

theorem weigh_card (f : Party c T → Multiset T) (calls : Multiset (Party c T)) :
    (weigh f calls).card = weigh (fun p => (f p).card) calls := by
  induction calls using Multiset.induction_on with
  | empty => rfl
  | cons p calls ih => rw [weigh_cons, weigh_cons, Multiset.card_add, ih]

theorem weigh_eq_zero_of_card {f : Party c T → Multiset T} {g : Party c T → ℕ}
    {calls : Multiset (Party c T)} (hfg : ∀ p, (f p).card ≤ g p) (h0 : weigh g calls = 0) :
    weigh f calls = 0 := by
  have hle := weigh_le (fun p (_ : p ∈ calls) => hfg p)
  rw [← weigh_card] at hle
  exact Multiset.card_eq_zero.mp (by omega)

theorem unreturned_frame {calls : Multiset (Party c T)} (h0 : weigh reading calls = 0)
    (slot slot' : Option T) : weigh (unreturned slot) calls = weigh (unreturned slot') calls := by
  apply weigh_congr
  intro p hp
  have h0 := (weigh_eq_zero_iff reading calls).mp h0 p hp
  rcases p with _ | ⟨_,_,pc⟩ | _ | _
  · rfl
  · cases pc with
    | read => cases h0
    | done r => cases r <;> rfl
    | _ => rfl
  all_goals rfl

end Ownership

/-- The way of the values so far. Nothing overtakes, and what is between two
stages is with the parties in between. -/
structure Pipeline (h : List (Event T)) (s : SlotMachine.State c T) : Prop where
  reserved : ∃ u : List T, gather reserved h = gather committed h++u ∧
    (u : Multiset T) = weigh (uncommitted s.inner.slot) s.calls
  committed : gather committed h = gather claimed h++
    if RecvStatus.commit s.inner.recv then s.inner.slot.toList else []
  claimed : ∃ a : List T, gather claimed h = gather returned h++a ∧
    (a : Multiset T) = weigh (unreturned s.inner.slot) s.calls

section Pipeline

variable {h : List (Event T)} {m m' : Inner c T} {ss : Multiset ℕ} {r : Bool} {n : ℕ}
  {p p' : Party c T} {rest : Multiset (Party c T)} {e : Event T}

def Idle (e : Event T) : Prop :=
  SlotBoard.reserved e = [] ∧ SlotBoard.committed e = [] ∧ SlotBoard.claimed e = [] ∧
    returned e = []

theorem Pipeline.idle {s s' : SlotMachine.State c T} (hp : Pipeline h s) (he : Idle e)
    (hslot : s'.inner.slot = s.inner.slot)
    (hcommit : RecvStatus.commit s'.inner.recv = RecvStatus.commit s.inner.recv)
    (hu : weigh (uncommitted s.inner.slot) s'.calls = weigh (uncommitted s.inner.slot) s.calls)
    (ha : weigh (unreturned s.inner.slot) s'.calls = weigh (unreturned s.inner.slot) s.calls) :
    Pipeline (h++[e]) s' := by
  obtain ⟨h1,h2,h3,h4⟩ := he
  refine ⟨?_,?_,?_⟩
  · simpa only [gather_append, h1, h2, List.append_nil, hslot, hu] using hp.reserved
  · simpa only [gather_append, h2, h3, List.append_nil, hslot, hcommit] using hp.committed
  · simpa only [gather_append, h3, h4, List.append_nil, hslot, ha] using hp.claimed

theorem Pipeline.reserve {data : T} {w : SendStatusU c} {id x : ℕ} {b : Bool}
    (hp : Pipeline h ⟨m,ss,r,.send id b x (.attempt data) ::ₘ rest,n⟩)
    (hw : won m.send = true)
    (h0 : slot_owners ⟨m,ss,r,.send id b x (.attempt data) ::ₘ rest,n⟩ = 0) :
    Pipeline (h++[.reserve data])
      ⟨{ m with send := w },ss,r,.send id b x (.check data m.send) ::ₘ rest,n⟩ := by
  obtain ⟨u,hu,hcu⟩ := hp.reserved
  simp only [slot_owners, weigh_cons] at h0
  simp only [weigh_cons] at hcu
  have hrest : weigh (uncommitted m.slot) rest = 0 :=
    weigh_eq_zero_of_card (uncommitted_card m.slot) (by omega)
  rw [hrest, show uncommitted m.slot (.send id b x (.attempt data) : Party c T) = 0 from rfl,
    zero_add, Multiset.coe_eq_zero] at hcu
  subst hcu
  refine ⟨⟨[data],?_,?_⟩,?_,?_⟩
  · simpa [SlotBoard.reserved,SlotBoard.committed] using hu
  · simp [hrest,uncommitted,hw]
  · simpa [SlotBoard.committed,SlotBoard.claimed] using hp.committed
  · simpa [SlotBoard.claimed,returned,unreturned] using hp.claimed

theorem Pipeline.write {data : T} {id x : ℕ} {b : Bool}
    (hp : Pipeline h ⟨m,ss,r,.send id b x (.write data) ::ₘ rest,n⟩)
    (h1 : slot_owners ⟨m,ss,r,.send id b x (.write data) ::ₘ rest,n⟩ ≤ 1) :
    Pipeline (h++[.write data])
      ⟨{ m with slot := some data },ss,r,.send id b x .commit ::ₘ rest,n⟩ := by
  obtain ⟨u,hu,hcu⟩ := hp.reserved
  obtain ⟨a,ha,hca⟩ := hp.claimed
  have hc := hp.committed
  simp only [slot_owners, weigh_cons,
    show writing (.send id b x (.write data) : Party c T) = 1 from rfl]
    at h1
  have hrest (slot : Option T) : weigh (uncommitted slot) rest = 0 :=
    weigh_eq_zero_of_card (uncommitted_card slot) (by omega)
  have hcommit : RecvStatus.commit m.recv = false := by
    cases hc : RecvStatus.commit m.recv
    · rfl
    · rw [hc, Bool.toNat_true] at h1
      omega
  simp only [weigh_cons, hrest, add_zero] at hcu
  simp only [weigh_cons] at hca
  simp only [hcommit] at hc
  refine ⟨⟨u,?_,?_⟩,?_,⟨a,?_,?_⟩⟩
  · simpa [SlotBoard.reserved,SlotBoard.committed] using hu
  · simp only [weigh_cons, hrest, add_zero]
    exact hcu
  · simpa [SlotBoard.committed,SlotBoard.claimed,hcommit] using hc
  · simpa [SlotBoard.claimed,returned] using ha
  · simp only [weigh_cons]
    rw [unreturned_frame (by omega) (some data) m.slot]
    exact hca

theorem Pipeline.commit {id x : ℕ} {b : Bool} {q : SendPc c T}
    (hp : Pipeline h ⟨m,ss,r,.send id b x .commit ::ₘ rest,n⟩)
    (h1 : slot_owners ⟨m,ss,r,.send id b x .commit ::ₘ rest,n⟩ ≤ 1)
    (hq : q = .wake ∨ q = .done .ok) :
    Pipeline (h++[.commit m.slot.toList])
      ⟨{ m with recv := RecvStatus.COMMIT },ss,r,.send id b x q ::ₘ rest,n⟩ := by
  obtain ⟨u,hu,hcu⟩ := hp.reserved
  have hc := hp.committed
  simp only [slot_owners, weigh_cons,
    show writing (.send id b x .commit : Party c T) = 1 from rfl] at h1
  have hrest : weigh (uncommitted m.slot) rest = 0 :=
    weigh_eq_zero_of_card (uncommitted_card m.slot) (by omega)
  have hcommit : RecvStatus.commit m.recv = false := by
    cases hc : RecvStatus.commit m.recv
    · rfl
    · rw [hc, Bool.toNat_true] at h1
      omega
  simp only [weigh_cons, hrest, add_zero] at hcu
  have hul : u = m.slot.toList := by
    cases hs : m.slot with
    | none => simpa [uncommitted,hs] using hcu
    | some v => simpa [uncommitted,hs] using hcu
  have hq0 : uncommitted m.slot (.send id b x q) = 0 := by rcases hq with rfl | rfl <;> rfl
  have hq1 : unreturned m.slot (.send id b x q) = 0 := rfl
  simp only [hcommit, Bool.false_eq_true, if_false, List.append_nil] at hc
  refine ⟨⟨[],?_,?_⟩,?_,?_⟩
  · simpa [SlotBoard.reserved,SlotBoard.committed,hul] using hu
  · simp [hrest,hq0]
  · simpa [SlotBoard.committed,SlotBoard.claimed] using hc
  · simpa [SlotBoard.claimed,returned,unreturned] using hp.claimed

theorem Pipeline.clear {id : ℕ} {b : Bool}
    (hp : Pipeline h ⟨m,ss,r,.recv id b .clear ::ₘ rest,n⟩)
    (hf : RecvStatus.commit m.recv = true) (h0 : weigh receiving rest = 0) :
    Pipeline (h++[.claim m.slot.toList])
      ⟨{ m with recv := m.recv &&& RecvStatus.SENDER_DEAD },ss,r,.recv id b .read ::ₘ rest,n⟩ := by
  obtain ⟨a,ha,hca⟩ := hp.claimed
  have hc := hp.committed
  have hrest : weigh (unreturned m.slot) rest = 0 :=
    weigh_eq_zero_of_card
      (fun p => (unreturned_card m.slot p).trans (reading_le p)) h0
  simp only [weigh_cons, hrest, add_zero] at hca
  rw [show unreturned m.slot (.recv id b .clear : Party c T) = 0 from rfl,
    Multiset.coe_eq_zero] at hca
  subst hca
  simp only [hf, if_true] at hc
  refine ⟨?_,?_,⟨m.slot.toList,?_,?_⟩⟩
  · simpa [SlotBoard.reserved,SlotBoard.committed,uncommitted] using hp.reserved
  · simpa [SlotBoard.committed,SlotBoard.claimed] using hc
  · simpa [SlotBoard.claimed,returned] using ha
  · simp only [weigh_cons, hrest, add_zero]
    cases hs : m.slot <;> simp [unreturned]

theorem Pipeline.read {id : ℕ} {b : Bool} {value : T}
    (hp : Pipeline h ⟨m,ss,r,.recv id b .read ::ₘ rest,n⟩) (hv : m.slot = some value)
    (h1 : slot_owners ⟨m,ss,r,.recv id b .read ::ₘ rest,n⟩ ≤ 1) :
    Pipeline (h++[.tau])
      ⟨{ m with slot := none },ss,r,.recv id b (.release value) ::ₘ rest,n⟩ := by
  obtain ⟨u,hu,hcu⟩ := hp.reserved
  obtain ⟨a,ha,hca⟩ := hp.claimed
  have hc := hp.committed
  simp only [slot_owners, weigh_cons,
    show reading (.recv id b .read : Party c T) = 1 from rfl] at h1
  have hrest (slot : Option T) : weigh (uncommitted slot) rest = 0 :=
    weigh_eq_zero_of_card (uncommitted_card slot) (by omega)
  have hcommit : RecvStatus.commit m.recv = false := by
    cases hc : RecvStatus.commit m.recv
    · rfl
    · rw [hc, Bool.toNat_true] at h1
      omega
  simp only [weigh_cons, hrest, add_zero] at hcu
  simp only [weigh_cons, hv] at hca
  simp only [hcommit] at hc
  refine ⟨⟨u,?_,?_⟩,?_,⟨a,?_,?_⟩⟩
  · simpa [SlotBoard.reserved,SlotBoard.committed] using hu
  · simp only [weigh_cons, hrest, add_zero]
    exact hcu
  · simpa [SlotBoard.committed,SlotBoard.claimed,hcommit] using hc
  · simpa [SlotBoard.claimed,returned] using ha
  · simp only [weigh_cons]
    rw [unreturned_frame (by omega) none (some value)]
    exact hca

theorem Pipeline.received {id : ℕ} {b : Bool} {value : T}
    (hp : Pipeline h ⟨m,ss,r,.recv id b (.done (.ok value)) ::ₘ rest,n⟩)
    (h0 : weigh receiving rest = 0) : Pipeline (h++[.received id (.ok value)]) ⟨m,ss,r,rest,n⟩ := by
  obtain ⟨a,ha,hca⟩ := hp.claimed
  have hrest : weigh (unreturned m.slot) rest = 0 :=
    weigh_eq_zero_of_card
      (fun p => (unreturned_card m.slot p).trans (reading_le p)) h0
  simp only [weigh_cons, hrest, add_zero] at hca
  rw [show unreturned m.slot (.recv id b (.done (.ok value)) : Party c T) = {value} from rfl,
    Multiset.coe_eq_singleton] at hca
  subst hca
  refine ⟨?_,?_,⟨[],?_,?_⟩⟩
  · simpa [SlotBoard.reserved,SlotBoard.committed,uncommitted] using hp.reserved
  · simpa [SlotBoard.committed,SlotBoard.claimed] using hp.committed
  · simpa [SlotBoard.claimed,returned] using ha
  · exact hrest.symm

end Pipeline

section Steps

variable {h : List (Event T)} {s s' : SlotMachine.State c T} {e : Event T}

theorem send_pipeline {m m' : Inner c T} {ss : Multiset ℕ} {r : Bool} {n id x : ℕ} {b : Bool}
    {pc pc' : SendPc c T} {rest : Multiset (Party c T)}
    (hi : PoolSlots.Inv (view h ⟨m,ss,r,.send id b x pc ::ₘ rest,n⟩))
    (hp : Pipeline h ⟨m,ss,r,.send id b x pc ::ₘ rest,n⟩) (hm : SendMove m b pc m' pc' e) :
    Pipeline (h++[e]) ⟨m',ss,r,.send id b x pc' ::ₘ rest,n⟩ := by
  have hle := owners_le hi
  have h1 : slot_owners ⟨m,ss,r,.send id b x pc ::ₘ rest,n⟩ ≤ 1 := hle.trans (Bool.toNat_le _)
  have hidle (he : Idle e) (hslot : m'.slot = m.slot)
      (hcommit : RecvStatus.commit m'.recv = RecvStatus.commit m.recv)
      (hu : uncommitted m.slot (.send id b x pc') = uncommitted m.slot (.send id b x pc)) :
      Pipeline (h++[e]) ⟨m',ss,r,.send id b x pc' ::ₘ rest,n⟩ :=
    hp.idle he hslot hcommit (by simp only [weigh_cons, hu]) (by simp only [weigh_cons]; rfl)
  cases hm with
  | attempt data =>
    by_cases hw : won m.send = true
    · obtain ⟨hd,h0⟩ := (won_iff _).mp hw
      rw [if_pos hw]
      exact hp.reserve hw (by simpa [hd,h0] using hle)
    · rw [if_neg hw]
      exact hp.idle ⟨rfl,rfl,rfl,rfl⟩ rfl rfl (by simp [uncommitted,hw]) (by simp [unreturned])
  | abort ha => exact hidle ⟨rfl,rfl,rfl,rfl⟩ rfl rfl (by
      simp [uncommitted,won_false (.inr (aborts_count ha))])
  | refuse _ hd => exact hidle ⟨rfl,rfl,rfl,rfl⟩ rfl rfl (by
      simp [uncommitted,won_false (.inl hd)])
  | full _ _ h0 => exact hidle ⟨rfl,rfl,rfl,rfl⟩ rfl rfl (by
      cases b <;> simp [uncommitted,won_false (.inr h0)])
  | own hd h0 => exact hidle ⟨rfl,rfl,rfl,rfl⟩ rfl rfl (by
      simp [uncommitted,(won_iff _).mpr ⟨hd,h0⟩])
  | write data => exact hp.write h1
  | commit =>
    refine hp.commit h1 ?_
    split
    · exact .inl rfl
    · exact .inr rfl
  | spin _ _ _ hcase => exact hidle ⟨rfl,rfl,rfl,rfl⟩ rfl rfl (by
      rcases hcase with ⟨-,rfl⟩ | ⟨-,-,rfl⟩ | ⟨-,-,-,rfl⟩ | ⟨-,-,rfl⟩ <;> rfl)
  | sleep | miss | rearm => exact hidle ⟨rfl,rfl,rfl,rfl⟩ rfl rfl rfl

theorem recv_pipeline {m m' : Inner c T} {ss : Multiset ℕ} {r : Bool} {n id : ℕ} {b : Bool}
    {pc pc' : RecvPc T} {rest : Multiset (Party c T)}
    (hk : Handles ⟨m,ss,r,.recv id b pc ::ₘ rest,n⟩)
    (hi : PoolSlots.Inv (view h ⟨m,ss,r,.recv id b pc ::ₘ rest,n⟩))
    (hp : Pipeline h ⟨m,ss,r,.recv id b pc ::ₘ rest,n⟩) (hm : RecvMove m b pc m' pc' e) :
    Pipeline (h++[e]) ⟨m',ss,r,.recv id b pc' ::ₘ rest,n⟩ := by
  have h1 : slot_owners ⟨m,ss,r,.recv id b pc ::ₘ rest,n⟩ ≤ 1 :=
    (owners_le hi).trans (Bool.toNat_le _)
  have hidle (he : Idle e) (hslot : m'.slot = m.slot)
      (hcommit : RecvStatus.commit m'.recv = RecvStatus.commit m.recv)
      (ha : unreturned m.slot (.recv id b pc' : Party c T) = unreturned m.slot (.recv id b pc)) :
      Pipeline (h++[e]) ⟨m',ss,r,.recv id b pc' ::ₘ rest,n⟩ :=
    hp.idle he hslot hcommit (by simp only [weigh_cons]; rfl) (by
      rw [weigh_cons, weigh_cons]
      exact congrArg (·+_) ha)
  cases hm with
  | found | sleep | miss => exact hidle ⟨rfl,rfl,rfl,rfl⟩ rfl rfl rfl
  | ended => exact hidle ⟨rfl,rfl,rfl,rfl⟩ rfl rfl (by cases b <;> rfl)
  | empty i => exact hidle ⟨rfl,rfl,rfl,rfl⟩ rfl rfl (by
      cases b
      · rfl
      · by_cases hi : i < 32 <;> simp [hi,unreturned])
  | clear =>
    have hf := hk.found
    simp only [weigh_cons, show clearing (.recv id b .clear : Party c T) = 1 from rfl] at hf
    refine hp.clear ?_ (receiver_held hk rfl).2
    cases hc : RecvStatus.commit m.recv
    · rw [hc, Bool.toNat_false] at hf
      omega
    · rfl
  | read hv => exact hp.read hv h1
  | release value => exact hidle ⟨rfl,rfl,rfl,rfl⟩ rfl rfl (by split <;> rfl)
  | arm => exact hidle ⟨rfl,rfl,rfl,rfl⟩ rfl (by simp) (by split <;> rfl)

theorem quiet_uncommitted {slot : Option T} {p q : Party c T} {w : Futex}
    (hw : woken w p = some q) : uncommitted slot q = uncommitted slot p ∧
      unreturned slot q = unreturned slot p := by
  rcases woken_cases hw with ⟨_,_,_,_,_,rfl,rfl⟩ | ⟨_,_,_,rfl,rfl⟩ <;> exact ⟨rfl,rfl⟩

theorem waking_uncommitted {slot : Option T} {p q : Party c T} {w : Futex} {k : ℕ}
    (hw : Waking p w k q) : uncommitted slot q = uncommitted slot p ∧
      unreturned slot q = unreturned slot p := by
  cases hw <;> exact ⟨rfl,rfl⟩

theorem pipeline_step (hk : Handles s) (hi : PoolSlots.Inv (view h s)) (hp : Pipeline h s)
    (hstep : SlotMachine.Step s e s') : Pipeline (h++[e]) s' := by
  cases step_moves hstep with
  | move hm =>
    cases hm with
    | send hm => exact send_pipeline hi hp hm
    | recv hm => exact recv_pipeline hk hi hp hm
    | drop hm =>
      cases hm with
      | sender_raise =>
        exact hp.idle ⟨rfl,rfl,rfl,rfl⟩ rfl (by simp) (by simp [uncommitted]) (by simp [unreturned])
      | _ =>
        exact hp.idle ⟨rfl,rfl,rfl,rfl⟩ rfl rfl (by simp [uncommitted]) (by simp [unreturned])
  | wake hw hws =>
    refine hp.idle ⟨rfl,rfl,rfl,rfl⟩ rfl rfl ?_ ?_
    · rw [weigh_cons, weigh_cons, (waking_uncommitted hw).1,
        hws.weigh_eq (fun p q hq => (quiet_uncommitted hq).1)]
    · rw [weigh_cons, weigh_cons, (waking_uncommitted hw).2,
        hws.weigh_eq (fun p q hq => (quiet_uncommitted hq).2)]
  | spurious hw =>
    refine hp.idle ⟨rfl,rfl,rfl,rfl⟩ rfl rfl ?_ ?_
    · rw [weigh_cons, weigh_cons, (quiet_uncommitted hw).1]
    · rw [weigh_cons, weigh_cons, (quiet_uncommitted hw).2]
  | exit hx =>
    obtain ⟨-,hrecv,-,hslot⟩ := exit_frame hx
    cases hx with
    | recv id b r =>
      cases r with
      | ok value => exact hp.received (receiver_held hk rfl).2
      | _ => exact hp.idle ⟨rfl,rfl,rfl,rfl⟩ rfl rfl (by simp [uncommitted]) (by simp [unreturned])
    | _ =>
      exact hp.idle ⟨rfl,rfl,rfl,rfl⟩ hslot (by rw [hrecv]) (by simp [uncommitted])
        (by simp [unreturned])
  | clone_sender => exact hp.idle ⟨rfl,rfl,rfl,rfl⟩ rfl rfl rfl rfl
  | _ => exact hp.idle ⟨rfl,rfl,rfl,rfl⟩ rfl rfl (by simp [uncommitted]) (by simp [unreturned])

theorem pipeline_run (hrun : Steps CalmStep mpsc h s) : Pipeline h s := by
  refine hrun.carries Pipeline ⟨⟨[],rfl,rfl⟩,?_,⟨[],rfl,rfl⟩⟩
    (fun _ _ _ _ hr hp hs => pipeline_step (handles_run hr.of_when) (slots_run hr) hp hs.1)
  simp [mpsc]

end Steps

end Lockness.SlotPipeline
