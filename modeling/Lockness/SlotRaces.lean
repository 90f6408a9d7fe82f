import Lockness.PoolShared
import Lockness.SlotDelivery
import Lockness.SlotThreads
import Lockness.SlotTorch

/-!
# The cell of the slot is handed over without races

A sender that has won the slot owes the fence that lets it know the cell, and parks
what it has written at `recv` by a release. A receive knows the cell once it has
loaded `COMMIT`, and parks it at `send` by a release fence and a relaxed update.
-/

set_option autoImplicit false

namespace Lockness.SlotRaces
open Lockness.PoolFutex Lockness.PoolOrder Lockness.PoolRaces Lockness.PoolArc
open Lockness.PoolThreads Lockness.PoolShared Lockness.SlotWords Lockness.SlotWords.SendStatus
open Lockness.SlotMachine Lockness.SlotMoves Lockness.SlotAttempts Lockness.SlotHandles
open Lockness.SlotBoard Lockness.SlotPipeline Lockness.SlotTorch Lockness.SlotThreads

variable {c : Target} {T : Type*} {m m' : Inner c T} {p p' : Party c T} {e : Event T}

section Deeds

inductive Fits : Thread Handle → Party c T → Prop
  | send (id : ℕ) (blocking : Bool) (h : ℕ) (pc : SendPc c T) :
      Fits (.call (.sender h) id) (.send id blocking h pc)
  | recv (id : ℕ) (blocking : Bool) (pc : RecvPc T) :
      Fits (.call .receiver id) (.recv id blocking pc)
  | drop_sender (id : ℕ) (pc : DropSenderPc) : Fits (.drop (.sender id)) (.drop_sender pc)
  | drop_receiver (pc : DropReceiverPc) : Fits (.drop .receiver) (.drop_receiver pc)

theorem Fits.move {t : Thread Handle} (hf : Fits t p) (hm : PartyMove m p m' p' e) : Fits t p' := by
  cases hm with
  | send => cases hf; exact .send _ _ _ _
  | recv => cases hf; exact .recv _ _ _
  | drop hd => cases hd <;> cases hf <;> constructor

theorem Fits.dropping {t : Thread Handle} (hf : Fits t p) (hu : unreleased p = 1) :
    ∃ x, t = .drop x := by
  cases hf with
  | drop_sender | drop_receiver => exact ⟨_,rfl⟩
  | _ => cases hu

def cell_if (b : Prop) : Set Unit := {_k | b}

def holding : Party c T → Holding Unit
  | .send _ _ _ (.check _ prev) => ⟨∅,cell_if (won prev = true)⟩
  | .send _ _ _ (.write _) => ⟨Set.univ,∅⟩
  | .send _ _ _ .commit => ⟨Set.univ,∅⟩
  | .recv _ _ .clear => ⟨Set.univ,∅⟩
  | .recv _ _ .read => ⟨Set.univ,∅⟩
  | .recv _ _ (.release _) => ⟨Set.univ,∅⟩
  | _ => .none

/-- A committed cell is parked at `recv`, and a free one at `send` while the receiver is there. -/
inductive Parks (m : Inner c T) : Atomic → Prop
  | committed : RecvStatus.commit m.recv = true → Parks m .recv
  | vacant : free m.send = true → Parks m .send

def shared (c : Target) (T : Type*) :
    Shared (Inner c T) (Party c T) Handle Atomic Unit (Value c) where
  toMarking := marking c T
  holding := holding
  parked m _ := {x | Parks m x}
  fits := Fits
  freeing p := freeing p ≠ 0
  strong := .strong
  count := Inner.strong
  freed := Inner.freed

abbrev Does (m m' : Inner c T) (p p' : Party c T) (l : List (Access c)) : Prop :=
  Deed (shared c T) m m' (holding p) (holding p') l

theorem parks_mono (hr : RecvStatus.commit m'.recv = true → RecvStatus.commit m.recv = true)
    (hs : free m'.send = true → free m.send = true) (k : Unit) :
    (shared c T).parked m' k ⊆ (shared c T).parked m k := by
  intro x hx
  cases hx with
  | committed h => exact .committed (hr h)
  | vacant h => exact .vacant (hs h)

theorem free_eq {w : SendStatusU c} :
    free w = true ↔ count w = 0 ∧ dead w = false := by
  simp [free]

theorem free_won {w : SendStatusU c} (hw : won w = true) : free w = true := by
  rw [free_eq]
  exact ((won_iff w).mp hw).symm

theorem does_nothing {l : List (Access c)} (hl : Plain l) (hp' : holding p' = .none)
    (hr : RecvStatus.commit m'.recv = true → RecvStatus.commit m.recv = true)
    (hs : free m'.send = true → free m.send = true) : Does m m' p p' l :=
  .quiet hl (hp' ▸ Holding.none_within _) (parks_mono hr hs)

theorem send_deed {n x : ℕ} {blocking : Bool} {pc pc' : SendPc c T} (hcalm : ¬ Carries m.send)
    (hm : SendMove m blocking pc m' pc' e) :
    Does m m' (.send n blocking x pc) (.send n blocking x pc')
      (send_actions m' pc (some (.send n blocking x pc'))) := by
  cases hm with
  | attempt data =>
    have hfree : free (attempt c m.send) = true → free m.send = true := by
      intro h0
      exact absurd (free_eq.mp h0).1 (attempt_spec hcalm).1
    refine .await _ (Set.empty_subset _) (fun k hk => .inr ?_) (parks_mono id hfree)
    exact .vacant (free_won hk)
  | own hd h0 =>
    refine .fence (fun k _ => .inr ?_) (Set.empty_subset _) (parks_mono id id)
    exact (won_iff _).mpr ⟨hd,h0⟩
  | write data => exact .access (Set.mem_univ ()) ⟨subset_rfl,subset_rfl⟩ (parks_mono id id)
  | commit =>
    refine .give (.update _) ?_ (fun k y hy => ?_)
    · cases RecvStatus.sleeping m.recv <;> exact Holding.none_within _
    · cases hy with
      | committed => exact .inr ⟨rfl,Set.mem_univ k⟩
      | vacant h0 => exact .inl (.vacant h0)
  | @spin data spin w pc hc hd _ hcase =>
    refine does_nothing ?_ ?_ id (fun h0 => ?_)
    · simp only [send_actions]
      split_ifs
      exacts [plain_update _ _ _,plain_nil]
    · rcases hcase with ⟨-,rfl⟩ | ⟨-,-,rfl⟩ | ⟨-,-,-,rfl⟩ | ⟨-,-,rfl⟩ <;> rfl
    · rwa [free, hc, hd] at h0
  | rearm => exact does_nothing (plain_update _ _ _) rfl id (by simp [free])
  | full => cases blocking <;> exact does_nothing plain_nil rfl id id
  | _ => exact does_nothing plain_nil rfl id id

theorem recv_deed {n : ℕ} {blocking : Bool} {pc pc' : RecvPc T} (hl : ∀ i, pc ≠ .load i)
    (hm : RecvMove m blocking pc m' pc' e) :
    Does m m' (.recv n blocking pc) (.recv n blocking pc') (recv_actions m' pc) := by
  cases hm with
  | found i | ended i | empty i => exact absurd rfl (hl i)
  | clear => exact .quiet (plain_update _ _ _) (.refl _) (parks_mono (by simp) id)
  | read => exact .access (Set.mem_univ ()) (.refl _) (parks_mono id id)
  | release value =>
    refine .give (.fence _) ?_ (fun k y hy => ?_)
    · cases sleeping m.send <;> exact Holding.none_within _
    · cases hy with
      | committed h0 => exact .inl (.committed h0)
      | vacant => exact .inr ⟨rfl,Set.mem_univ k⟩
  | arm =>
    refine does_nothing (plain_update _ _ _) ?_ (by simp) id
    split <;> rfl
  | sleep | miss => exact does_nothing plain_nil rfl id id

theorem plain_release (m : Inner c T) (next : Option (Party c T)) :
    Plain (release_actions m next) := by
  cases next <;> simp [Plain,release_actions]

theorem drop_deed (hm : DropMove m p m' p' e) : Does m m' p p' (actions m m' p (some p')) := by
  cases hm with
  | sender_count => exact does_nothing (plain_update _ _ _) rfl id id
  | sender_raise => exact does_nothing (plain_update _ _ _) rfl (by simp) id
  | receiver_raise => exact does_nothing (plain_update _ _ _) rfl id (by simp [free])
  | last_sender => exact does_nothing (plain_release _ (some (.drop_sender .free))) rfl id id
  | last_receiver => exact does_nothing (plain_release _ (some (.drop_receiver .free))) rfl id id

theorem move_deed (hcalm : ¬ Carries m.send) (hl : loads p = none) (hm : PartyMove m p m' p' e) :
    Does m m' p p' (actions m m' p (some p')) := by
  cases hm with
  | send hm => exact send_deed hcalm hm
  | recv hm =>
    refine recv_deed (fun i hi => ?_) hm
    subst hi
    cases hl
  | drop hm => exact drop_deed hm

end Deeds

section Alone

variable {h : List (Event T)} {rest : Multiset (Thread Handle × Party c T)}

theorem holding_owner (q : Party c T)
    (hq : () ∈ (holding q).knows ∨ () ∈ (holding q).awaits) :
    writing q+reading q+clearing q ≠ 0 := by
  rcases q with ⟨_,_,_,pc⟩ | ⟨_,_,pc⟩ | _ | _
  · cases pc with
    | check _ prev =>
      have hw : won prev = true := by simpa [holding,cell_if] using hq
      simp [writing,hw]
    | write | commit => simp [writing]
    | _ => simp [holding,Holding.none] at hq
  · cases pc with
    | clear | read | release => simp [reading,clearing]
    | _ => simp [holding,Holding.none] at hq
  all_goals simp [holding,Holding.none] at hq

theorem access_owner {next : Option (Party c T)} (hl : loads p = none)
    (ha : .access () ∈ actions m m' p next) : writing p+reading p = 1 := by
  rcases p with ⟨_,_,_,pc⟩ | ⟨_,_,pc⟩ | pc | pc
  · cases pc with
    | write => rfl
    | check =>
      simp only [actions, send_actions] at ha
      split at ha <;> simp_all
    | spin _ spin =>
      obtain rfl : spin = 0 := by simpa [loads] using hl
      simp [actions,send_actions] at ha
    | _ => simp [actions,send_actions] at ha
  · cases pc with
    | read => rfl
    | load => cases hl
    | _ => simp [actions,recv_actions] at ha
  · cases pc with
    | free => cases hl
    | release => cases next <;> simp [actions,drop_sender_actions,release_actions] at ha
    | _ => simp [actions,drop_sender_actions] at ha
  · cases pc with
    | free => cases hl
    | release => cases next <;> simp [actions,drop_receiver_actions,release_actions] at ha
    | _ => simp [actions,drop_receiver_actions] at ha

theorem alone_of_slots {s : State c T} (hi : PoolSlots.Inv (view h s)) (hk : Handles s)
    (hc : s.calls = p ::ₘ rest.map Prod.snd) (hp : writing p+reading p = 1) :
    RecvStatus.commit s.inner.recv = false ∧ Alone (shared c T) s.inner rest () := by
  have hle := owners_le hi
  have hfound := hk.found
  have hone := Bool.toNat_le (dead s.inner.send || count s.inner.send != 0)
  simp only [slot_owners, hc, weigh_cons] at hle hfound
  have hcommit : RecvStatus.commit s.inner.recv = false := by
    cases h0 : RecvStatus.commit s.inner.recv
    · rfl
    · rw [h0, Bool.toNat_true] at hle
      omega
  rw [hcommit, Bool.toNat_false] at hle hfound
  refine ⟨hcommit,Set.eq_empty_of_forall_notMem (fun x hx => ?_),fun q hq => ?_⟩
  · cases hx with
    | committed h0 => exact absurd (h0.symm.trans hcommit) (by decide)
    | vacant h0 =>
      obtain ⟨h1,h2⟩ := free_eq.mp h0
      simp only [h1, h2, bne_self_eq_false, Bool.or_false, Bool.toNat_false] at hle
      omega
  · rw [← not_or]
    intro hq'
    have hmem := Multiset.mem_map_of_mem Prod.snd hq
    have h1 := le_weigh writing hmem
    have h2 := le_weigh reading hmem
    have h3 := le_weigh clearing hmem
    exact holding_owner q.2 hq' (by omega)

end Alone

section Loads

variable {x : Atomic} {o : MemOrder} {v : Value c}

inductive Polls (m : Inner c T) : Party c T → Atomic → MemOrder → Party c T → Prop
  | send (id : ℕ) (blocking : Bool) (h : ℕ) (data : T) {spin : ℕ} : spin ≠ 0 →
      Polls m (.send id blocking h (.spin data spin)) .send .relaxed
        (.send id blocking h (send_spin data spin m.send))
  | recv (id : ℕ) (blocking : Bool) (i : ℕ) :
      Polls m (.recv id blocking (.load i)) .recv .acquire
        (.recv id blocking (try_recv_load blocking i m.recv))

/-- Where a call may go on to from an old word. It finds no value, no end and no other
result but `Empty`. -/
inductive Idles : Party c T → Party c T → Prop
  | attempt (id : ℕ) (blocking : Bool) (h : ℕ) (data : T) (spin : ℕ) :
      Idles (.send id blocking h (.spin data spin)) (.send id blocking h (.attempt data))
  | sleep (id : ℕ) (blocking : Bool) (h : ℕ) (data : T) (spin : ℕ) {w : SendStatusU c} :
      count w ≠ 0 → dead w = false → sleeping w = true →
      Idles (.send id blocking h (.spin data spin)) (.send id blocking h (.sleep data w))
  | spin (id : ℕ) (blocking : Bool) (h : ℕ) (data : T) (spin : ℕ) :
      Idles (.send id blocking h (.spin data spin)) (.send id blocking h (.spin data (spin-1)))
  | load (id : ℕ) {i : ℕ} : i < 32 → Idles (.recv id true (.load i)) (.recv id true (.load (i+1)))
  | arm (id i : ℕ) : Idles (.recv id true (.load i)) (.recv id true .arm)
  | empty (id i : ℕ) : Idles (.recv id false (.load i)) (.recv id false (.done .empty))

/-- What an old word tells of the latest ones: a value is still there, and an end is one. -/
def Vouched (m : Inner c T) : Value c → Prop
  | .send w => dead w = true → count w ≠ 0 → dead m.send = true ∧ count m.send ≠ 0
  | .recv w => (RecvStatus.commit w = true → RecvStatus.commit m.recv = true) ∧
      (RecvStatus.dead w = true → RecvStatus.dead m.recv = true ∧
        (RecvStatus.commit m.recv = true → RecvStatus.commit w = true))
  | .count _ => True

theorem put_word (m : Inner c T) (x : Atomic) (v : Value c) : put (put m x v) x (word m x) = m := by
  cases x <;> cases v <;> rfl

theorem put_self (m : Inner c T) (y : Atomic) : put m y (word m y) = m := by
  cases y <;> rfl

theorem load_go (hl : loads p = some (x,o)) (hc : code (put m x v) p = .go m' p' e) :
    Polls (put m x v) p x o p' ∧ m' = put m x v ∧ e = .tau := by
  cases p with
  | send id blocking h pc =>
    cases pc with
    | spin data spin =>
      by_cases h0 : spin = 0
      · simp [loads,h0] at hl
      · simp only [loads, h0, if_false, Option.some.injEq, Prod.mk.injEq] at hl
        obtain ⟨rfl,rfl⟩ := hl
        simp only [code, send_code, h0, if_false, Outcome.go.injEq] at hc
        obtain ⟨rfl,rfl,rfl⟩ := hc
        exact ⟨.send id blocking h data h0,rfl,rfl⟩
    | _ => cases hl
  | recv id blocking pc =>
    cases pc with
    | load i =>
      cases hl
      cases hc
      exact ⟨.recv id blocking i,rfl,rfl⟩
    | _ => cases hl
  | drop_sender pc =>
    cases pc with
    | free =>
      simp only [code, drop_sender_code, free_code] at hc
      split at hc <;> cases hc
    | _ => cases hl
  | drop_receiver pc =>
    cases pc with
    | free =>
      simp only [code, drop_receiver_code, free_code] at hc
      split at hc <;> cases hc
    | _ => cases hl

theorem load_exit (hl : loads p = some (x,o)) (hc : code m p = .exit m' e) :
    (p = .drop_sender .free ∨ p = .drop_receiver .free) ∧ x = .recv ∧ o = .acquire := by
  cases code_exits hc with
  | sender_free => exact ⟨.inl rfl,by simpa [loads,eq_comm] using hl⟩
  | receiver_free => exact ⟨.inr rfl,by simpa [loads,eq_comm] using hl⟩
  | _ => cases hl

theorem Polls.silent {n : Inner c T} (hp : Polls n p x o p') : actions m m' p (some p') = [] := by
  cases hp with
  | send id b h d h0 => simp [actions,send_actions,h0]
  | recv => rfl

theorem send_shown (id h : ℕ) (blocking : Bool) (data : T) {spin : ℕ} (h0 : spin ≠ 0)
    {w : SendStatusU c} (hw : Vouched m (.send w)) :
    code m (.send id blocking h (.spin data spin)) =
        .go m (.send id blocking h (send_spin data spin w)) .tau ∨
      Idles (.send id blocking h (.spin data spin))
        (.send id blocking h (send_spin data spin w)) := by
  by_cases hr : reservations w = 0
  · rw [send_spin, if_pos hr]
    exact .inr (.attempt id blocking h data spin)
  have hcount := mt (reservations_eq_zero w).mpr hr
  by_cases hd : dead w = true
  · obtain ⟨hd',hr'⟩ := hw hd hcount
    have hr'' : reservations m.send ≠ 0 := mt (reservations_eq_zero m.send).mp hr'
    left
    simp only [code, send_code, h0, if_false, send_spin, hr, hr'', hd, hd', if_true]
  · rw [Bool.not_eq_true] at hd
    simp only [send_spin, hr, hd, if_false, Bool.false_eq_true]
    split_ifs with hsl
    · exact .inr (.sleep id blocking h data spin hcount hd hsl)
    · exact .inr (.spin id blocking h data spin)

theorem recv_shown (id i : ℕ) (blocking : Bool) {w : BitVec 32} (hw : Vouched m (.recv w)) :
    code m (.recv id blocking (.load i)) =
        .go m (.recv id blocking (try_recv_load blocking i w) : Party c T) .tau ∨
      Idles (.recv id blocking (.load i) : Party c T)
        (.recv id blocking (try_recv_load blocking i w)) := by
  obtain ⟨hcommit,hdead⟩ := hw
  by_cases hc : RecvStatus.commit w = true
  · left
    simp only [code, recv_code, try_recv_load, hc, hcommit hc, if_true]
  by_cases hd : RecvStatus.dead w = true
  · obtain ⟨hd',hc'⟩ := hdead hd
    left
    simp only [code, recv_code, try_recv_load, hc, hd, hd', mt hc' hc, if_true]
  · right
    simp only [try_recv_load, hc, hd]
    cases blocking
    · exact .empty id i
    · by_cases hi : i < 32
      · simpa [hi] using .load id hi
      · simpa [hi] using .arm id i

theorem Polls.shown (hp : Polls (put m x v) p x o p') (hv : Vouched m v) :
    code m p = .go m p' .tau ∨ Idles p p' := by
  cases hp with
  | send id blocking h data h0 =>
    cases v with
    | send w => exact send_shown id h blocking data h0 hv
    | _ => exact .inl (by simp [code,send_code,h0,put])
  | recv id blocking i =>
    cases v with
    | recv w => exact recv_shown id i blocking hv
    | _ => exact .inl rfl

end Loads

section Stale

variable {h : List (Event T)} {s u : State c T}

inductive Stale (s : State c T) : State c T → Prop
  | intro {p p' : Party c T} {rest : Multiset (Party c T)} : s.calls = p ::ₘ rest → Idles p p' →
      Ok p' → Stale s { s with calls := p' ::ₘ rest }

theorem Stale.weigh {M : Type*} [AddCommMonoid M] (hs : Stale s u) {f : Party c T → M}
    (hf : ∀ p p', Idles p p' → f p' = f p) : weigh f u.calls = weigh f s.calls := by
  cases hs with
  | intro hc hi => rw [hc, weigh_cons, weigh_cons, hf _ _ hi]

theorem Stale.inner (hs : Stale s u) : u.inner = s.inner := by
  cases hs with
  | intro => rfl

theorem handles_stale (hk : Handles s) (hs : Stale s u) : Handles u := by
  have hw {f : Party c T → ℕ} (hf : ∀ p p', Idles p p' → f p' = f p) :
      weigh f u.calls = weigh f s.calls := hs.weigh hf
  cases hs with
  | @intro p p' rest hc hi hok =>
    have hsender : p'.sender = p.sender := by cases hi <;> rfl
    refine Handles.with_calls hk (fun q hq => ?_) (fun q hq x hx => ?_)
      ((hw (fun p p' hi => by cases hi <;> rfl)).trans_le hk.receiver)
      (hw (fun p p' hi => by cases hi <;> rfl)).le (hw (fun p p' hi => by cases hi <;> rfl))
      (hw (fun p p' hi => by cases hi <;> rfl)) (hw (fun p p' hi => by cases hi <;> rfl))
      (hw (fun p p' hi => by cases hi <;> rfl))
    · rcases Multiset.mem_cons.mp hq with rfl | hq
      · exact hok
      · exact hk.ok q (by simp [hc,hq])
    · rcases Multiset.mem_cons.mp hq with rfl | hq
      · exact hk.sender p (by simp [hc]) x (hsender ▸ hx)
      · exact hk.sender q (by simp [hc,hq]) x hx

theorem open_stale (ho : OpenOrDead s) (hs : Stale s u) : OpenOrDead u := by
  have hw := hs.weigh (f := closing) (fun p p' hi => by cases hi <;> rfl)
  cases hs with
  | intro => rwa [OpenOrDead, hw]

theorem counted_stale (hn : Counted s) (hs : Stale s u) : Counted u := by
  have hw := hs.weigh (f := over_limit) (fun p p' hi => by cases hi <;> rfl)
  intro hx
  rw [aborting, hw, hs.inner]
  exact hn hx

theorem slots_stale (hi : PoolSlots.Inv (view h s)) (hs : Stale s u) :
    PoolSlots.Inv (view (h++[.tau]) u) := by
  cases hs with
  | @intro p p' rest hc hidle hok =>
    have hprint : footprint p' = footprint p := by cases hidle <;> rfl
    simpa only [view, hc, Multiset.map_cons, ledger_tau, hprint] using hi

theorem pipeline_stale (hp : Pipeline h s) (hs : Stale s u) : Pipeline (h++[.tau]) u :=
  hp.idle ⟨rfl,rfl,rfl,rfl⟩ (by rw [hs.inner]) (by rw [hs.inner])
    (hs.weigh (fun p p' hi => by cases hi <;> rfl)) (hs.weigh (fun p p' hi => by cases hi <;> rfl))

theorem trying_stale (hs : Stale s u) : weigh trying s.calls ≤ weigh trying u.calls := by
  cases hs with
  | intro hc hi =>
    rw [hc, weigh_cons, weigh_cons]
    refine Nat.add_le_add_right ?_ _
    cases hi <;> exact Nat.zero_le _

theorem torch_stale (hs : Stale s u) :
    PoolTorch.Move (torch s.inner s.calls) (torch u.inner u.calls) := by
  have h1 := hs.weigh (f := sleeps (woken .send)) (fun p p' hi => by cases hi <;> rfl)
  have h2 := hs.weigh (f := wakes) (fun p p' hi => by cases hi <;> rfl)
  have h3 := hs.weigh (f := rearming) (fun p p' hi => by cases hi <;> rfl)
  have h4 : weigh trying s.calls ≤ weigh trying u.calls := trying_stale hs
  apply PoolTorch.Move.idle <;> simp only [torch, h1, h2, h3, hs.inner] <;>
    first | exact h4 | exact id

end Stale

end Lockness.SlotRaces
