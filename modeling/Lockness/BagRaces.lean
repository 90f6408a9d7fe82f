import Lockness.BagOwnership
import Lockness.BagThreads
import Lockness.BagTorch
import Lockness.PoolShared

/-!
# The slots of the bag are handed over without races

A sender takes free slots from `send` by a relaxed update and an acquire fence,
and parks what it has written at `recv` by a release. A receiver acquires ready
slots from `recv` and parks the empty cells at `send` by a release fence and a
relaxed update. So whoever owns a slot knows all accesses to it, although loads
may be stale. The last handle knows every mark before it frees the allocation.
-/

set_option autoImplicit false

namespace Lockness.BagRaces
open Lockness.PoolRuns Lockness.PoolFutex Lockness.PoolSlots Lockness.PoolOrder Lockness.PoolRaces
open Lockness.PoolArc Lockness.PoolThreads Lockness.PoolShared Lockness.BagMasks
open Lockness.BagMachine Lockness.BagMoves Lockness.BagInversion Lockness.BagHandles
open Lockness.BagBoard Lockness.BagOwnership Lockness.BagTorch Lockness.BagThreads

variable {T : Type*} {c : Target T} {m m' : Inner T} {p p' : Party T} {e : Event T}

section Stale

variable {h : List (Event T)} {s t : State T}

structure Alike (p p' : Party T) : Prop where
  idle : footprint p = .idle ∧ footprint p' = .idle
  ok : Ok p'
  sender : p'.sender = p.sender
  receiver : p'.receiver = p.receiver
  quiet : ∀ f : Party T → ℕ, Quiet f → f p' = f p
  torch : ∀ w, sleeps (woken w) p' = sleeps (woken w) p ∧ wakes w p' = wakes w p ∧
    rearming w p' = rearming w p ∧ trying w p ≤ trying w p'

/-- A call that was shown an old word goes on from there, and changes nothing. -/
inductive Stale (s : State T) : State T → Prop
  | intro {p p' : Party T} {rest : Multiset (Party T)} : s.calls = p ::ₘ rest → Alike p p' →
      Stale s { s with calls := p' ::ₘ rest }

theorem handles_stale (hk : Handles h s) (hs : Stale s t) : Handles (h++[.tau]) t := by
  cases hs with
  | @intro p p' rest hc ha =>
    have hall {Q : Party T → Prop} (hq : ∀ q ∈ s.calls, Q q) (hp : Q p → Q p') :
        ∀ q ∈ p' ::ₘ rest, Q q := by
      rw [hc] at hq
      simp only [Multiset.mem_cons, forall_eq_or_imp] at hq ⊢
      exact ⟨hp hq.1,hq.2⟩
    refine hk.with_calls rfl ⟨hall hk.ok (fun _ => ha.ok),hk.bias,
      hall hk.sender (fun hp => ha.sender ▸ hp),hall hk.receiver (fun hp => ha.receiver ▸ hp)⟩ ?_
    intro f hq
    rw [hc, weigh_cons, weigh_cons, ha.quiet f hq]

theorem slots_stale (hi : PoolSlots.Inv (view h s)) (hs : Stale s t) :
    PoolSlots.Inv (view (h++[.tau]) t) := by
  cases hs with
  | intro hc ha =>
    have hview := hi
    simp only [view, hc, Multiset.map_cons, ha.idle.1] at hview
    simpa only [view, ledger_tau, Multiset.map_cons, ha.idle.2] using hview

theorem stale_inner (hs : Stale s t) : t.inner = s.inner := by
  cases hs with
  | intro => rfl

theorem torch_stale (hs : Stale s t) (w : Futex) :
    PoolTorch.Move (torch w s.inner s.calls) (torch w t.inner t.calls) := by
  cases hs with
  | intro hc ha =>
    obtain ⟨h1,h2,h3,h4⟩ := ha.torch w
    rw [hc]
    apply PoolTorch.Move.idle <;> simp only [torch, weigh_cons] <;> first | omega | exact id

end Stale

section Loads

variable {x : Atomic} {o : MemOrder} {v : Value}

theorem footprint_send_spin (id : ℕ) (blocking : Bool) (h : Sender) (data : SendBuffer T)
    (spin : ℕ) (w : Word) :
    footprint (.send id blocking h (send_spin h data spin w)) = .idle := by
  rw [send_spin]
  split_ifs
  · exact footprint_try_send id blocking h data
  all_goals rfl

theorem footprint_recv_spin (id : ℕ) (blocking : Bool) (h spin : ℕ) (w : Word) :
    footprint (.recv id blocking h (recv_spin spin w) : Party T) = .idle := by
  rw [recv_spin]
  split_ifs <;> rfl

inductive Spins (m : Inner T) : Party T → Atomic → Party T → Prop
  | send (id : ℕ) (blocking : Bool) (h : Sender) (data : SendBuffer T) {spin : ℕ} :
      spin ≠ 0 → Spins m (.send id blocking h (.spin data spin)) .send
        (.send id blocking h (send_spin h data spin m.send))
  | recv (id : ℕ) (blocking : Bool) (h : ℕ) {spin : ℕ} :
      spin ≠ 0 → Spins m (.recv id blocking h (.spin spin)) .recv
        (.recv id blocking h (recv_spin spin m.recv))

theorem put_word (m : Inner T) (x : Atomic) (v : Value) : put (put m x v) x (word m x) = m := by
  cases x <;> cases v <;> rfl

theorem load_go (hl : loads p = some (x,o)) (hc : code c (put m x v) p = .go m' p' e) :
    Spins (put m x v) p x p' ∧ m' = put m x v ∧ e = .tau := by
  cases p with
  | send id blocking h pc =>
    cases pc with
    | spin data spin =>
      by_cases h0 : spin = 0
      · simp [loads,h0] at hl
      · simp only [loads, h0, if_false, Option.some.injEq, Prod.mk.injEq] at hl
        obtain ⟨rfl,-⟩ := hl
        simp only [code, send_code, h0, if_false, Outcome.go.injEq] at hc
        obtain ⟨rfl,rfl,rfl⟩ := hc
        exact ⟨.send id blocking h data h0,rfl,rfl⟩
    | _ => cases hl
  | recv id blocking h pc =>
    cases pc with
    | spin spin =>
      by_cases h0 : spin = 0
      · simp [loads,h0] at hl
      · simp only [loads, h0, if_false, Option.some.injEq, Prod.mk.injEq] at hl
        obtain ⟨rfl,-⟩ := hl
        simp only [code, recv_code, h0, if_false, Outcome.go.injEq] at hc
        obtain ⟨rfl,rfl,rfl⟩ := hc
        exact ⟨.recv id blocking h h0,rfl,rfl⟩
    | _ => cases hl
  | drop_sender pc =>
    cases pc with
    | free =>
      simp only [code, drop_sender_code, free_code] at hc
      split at hc <;> cases hc
    | _ => cases hl
  | drop_receiver pc =>
    cases pc with
    | free =>
      simp only [code, drop_receiver_code, free_code] at hc
      split at hc <;> cases hc
    | _ => cases hl

theorem load_exit (hl : loads p = some (x,o)) (hc : code c m p = .exit m' e) :
    (p = .drop_sender .free ∨ p = .drop_receiver .free) ∧ x = .recv ∧ o = .acquire := by
  cases code_exits hc with
  | sender_free => exact ⟨.inl rfl,by simpa [loads,eq_comm] using hl⟩
  | receiver_free => exact ⟨.inr rfl,by simpa [loads,eq_comm] using hl⟩
  | _ => cases hl

theorem Spins.silent {n : Inner T} (hs : Spins n p x p') : actions c m m' p (some p') = [] := by
  cases hs with
  | send id b h d h0 => simp [actions,send_actions,h0]
  | recv id b h h0 => simp [actions,recv_actions,h0]

theorem Spins.alike (hs : Spins m p x p') (hp : Ok p') : Alike p p' := by
  cases hs with
  | send id blocking h data =>
    refine ⟨⟨rfl,footprint_send_spin id blocking h data _ _⟩,hp,rfl,rfl,
      fun f hf => by rw [hf.send, hf.send],fun v => ?_⟩
    rcases try_send_spec h data with ⟨-,ht⟩ | ⟨-,_,-,ht⟩ <;> rw [send_spin, ht] <;>
      split_ifs <;> cases v <;> simp [sleeps,woken,wakes,rearming,trying]
  | recv id blocking h =>
    refine ⟨⟨rfl,footprint_recv_spin id blocking h _ _⟩,hp,rfl,rfl,
      fun f hf => by rw [hf.recv, hf.recv],fun v => ?_⟩
    rw [recv_spin]
    split_ifs <;> cases v <;> simp [sleeps,woken,wakes,rearming,trying]

end Loads

section Deeds

inductive Fits : Thread Handle → Party T → Prop
  | send (id : ℕ) (blocking : Bool) (h : Sender) (pc : SendPc T) :
      Fits (.call (.sender h.id) id) (.send id blocking h pc)
  | recv (id : ℕ) (blocking : Bool) (h : ℕ) (pc : RecvPc T) :
      Fits (.call (.receiver h) id) (.recv id blocking h pc)
  | drop_sender (id : ℕ) (pc : DropPc) : Fits (.drop (.sender id)) (.drop_sender pc)
  | drop_receiver (id : ℕ) (pc : DropPc) : Fits (.drop (.receiver id)) (.drop_receiver pc)

theorem Fits.move {t : Thread Handle} (hf : Fits t p) (hm : PartyMove m p m' p' e) : Fits t p' := by
  cases hm with
  | send => cases hf; exact .send _ _ _ _
  | recv => cases hf; exact .recv _ _ _ _
  | drop hd => cases hd <;> cases hf <;> constructor

theorem Fits.dropping {t : Thread Handle} (hf : Fits t p) (hu : unreleased p = 1) :
    ∃ x, t = .drop x := by
  cases hf with
  | drop_sender | drop_receiver => exact ⟨_,rfl⟩
  | _ => cases hu

/-- A ready slot is parked at `recv`, and a free one at `send` while there are receivers. -/
inductive Parks (m : Inner T) (k : Slot) : Atomic → Prop
  | ready : k ∈ slots (N := 30) m.recv → Parks m k .recv
  | vacant : dead m.send = false → k ∉ slots (N := 30) m.send → Parks m k .send

def holding (own : Finset Slot) : Holding Slot := ⟨{k | k ∈ own},∅⟩

def shared (c : Target T) : Shared (Inner T) (Party T) Handle Atomic Slot Value where
  toMarking := marking c
  holding p := holding (owned p)
  parked m k := {x | Parks m k x}
  fits := Fits
  freeing p := freeing p ≠ 0
  strong := .strong
  count := Inner.strong
  freed := Inner.freed

abbrev Does (c : Target T) (m m' : Inner T) (own own' : Finset Slot) (l : List Access) : Prop :=
  Deed (shared c) m m' (holding own) (holding own') l

theorem parks_mono (hready : slots (N := 30) m'.recv ⊆ slots m.recv)
    (hvacant : dead m'.send = false → dead m.send = false ∧ slots (N := 30) m.send ⊆ slots m'.send)
    (k : Slot) : (shared c).parked m' k ⊆ (shared c).parked m k := by
  intro x hx
  cases hx with
  | ready hk => exact .ready (hready hk)
  | vacant h0 hk =>
    obtain ⟨hd,hsub⟩ := hvacant h0
    exact .vacant hd (fun h => hk (hsub h))

section Rules

variable {own own' : Finset Slot}

theorem holding_within (h : own' ⊆ own) : (holding own').Within (holding own) :=
  ⟨fun _ hk => h hk,subset_rfl⟩

theorem does_quiet {l : List Access} (hl : Plain l) (hsub : own' ⊆ own)
    (hready : slots (N := 30) m'.recv ⊆ slots m.recv)
    (hvacant : dead m'.send = false →
      dead m.send = false ∧ slots (N := 30) m.send ⊆ slots m'.send) :
    Does c m m' own own' l :=
  .quiet hl (holding_within hsub) (parks_mono hready hvacant)

theorem does_access {k : Slot} (hk : k ∈ own) (hsub : own' ⊆ own) (hr : m'.recv = m.recv)
    (hs : m'.send = m.send) : Does c m m' own own' [.access k] :=
  .access hk (holding_within hsub) (parks_mono (by rw [hr]) (fun h0 => ⟨hs ▸ h0,by rw [hs]⟩))

theorem does_reserve (v : Value) (hd : dead m.send = false)
    (hnew : ∀ k ∈ own', k ∉ slots (N := 30) m.send)
    (hsub : slots (N := 30) m.send ⊆ slots m'.send) (hr : m'.recv = m.recv) :
    Does c m m' own own' [.update .send .relaxed v,.fence .acquire] :=
  .take (.fence v) (fun k hk => .inr (.vacant hd (hnew k hk))) subset_rfl
    (parks_mono (by rw [hr]) (fun _ => ⟨hd,hsub⟩))

theorem does_commit (v : Value) (hnone : own' = ∅)
    (hready : slots (N := 30) m'.recv ⊆ slots m.recv ∪ own) (hs : m'.send = m.send) :
    Does c m m' own own' [.update .recv .release v] := by
  refine .give (.update v) (holding_within (by simp [hnone])) (fun k x hx => ?_)
  cases hx with
  | ready hk => exact (Finset.mem_union.mp (hready hk)).imp .ready (fun hk => ⟨rfl,hk⟩)
  | vacant h0 hk => exact .inl (.vacant (hs ▸ h0) (hs ▸ hk))

theorem does_claim (v : Value) (hnew : own' ⊆ slots m.recv)
    (hempty : slots (N := 30) m'.recv = ∅) (hs : m'.send = m.send) :
    Does c m m' own own' [.update .recv .acquire v] :=
  .take (.update v) (fun _ hk => .inr (.ready (hnew hk))) subset_rfl
    (parks_mono (by simp [hempty]) (fun h0 => ⟨hs ▸ h0,by rw [hs]⟩))

theorem does_release (v : Value) (hnone : own' = ∅) (hd : dead m.send = false)
    (hsub : slots (N := 30) m.send \ own ⊆ slots m'.send) (hr : m'.recv = m.recv) :
    Does c m m' own own' [.fence .release,.update .send .relaxed v] := by
  refine .give (.fence v) (holding_within (by simp [hnone])) (fun k x hx => ?_)
  cases hx with
  | ready hk => exact .inl (.ready (hr ▸ hk))
  | vacant h0 hk =>
    by_cases ht : k ∈ slots (N := 30) m.send
    · have hown : k ∈ own := by
        by_contra hn
        exact hk (hsub (Finset.mem_sdiff.mpr ⟨ht,hn⟩))
      exact .inr ⟨rfl,hown⟩
    · exact .inl (.vacant hd ht)

end Rules

theorem plain_release (m : Inner T) (next : Option (Party T)) : Plain (release_actions m next) := by
  cases next <;> simp [Plain,release_actions]

theorem send_deed {id : ℕ} {blocking : Bool} {x : Sender} {d : SendBuffer T} {pc pc' : SendPc T}
    (hok : SendOk blocking d pc) (hm : SendMove m blocking x pc m' pc' e) :
    Does c m m' (owned (.send id blocking x pc)) (owned (.send id blocking x pc'))
      (send_actions m' pc (some (.send id blocking x pc'))) := by
  cases hm with
  | refuse hr hd hne hs hd' =>
    refine does_quiet (plain_update _ _ _) (by simp [owned,footprint]) subset_rfl (fun h0 => ?_)
    rw [hd'] at h0
    cases h0
  | full =>
    cases blocking <;>
      exact does_quiet (plain_update _ _ _) (by simp [owned,footprint]) subset_rfl
        (fun h0 => ⟨h0,subset_rfl⟩)
  | reserve hd hres hne hs =>
    refine does_reserve _ hd ?_ (by simp [hs]) rfl
    simp [owned,footprint,hres]
  | retry =>
    exact does_quiet (plain_update _ _ _) subset_rfl subset_rfl (fun h0 => ⟨h0,subset_rfl⟩)
  | @write data data' reserved todo todo' i v hi ht htake =>
    simp only [send_actions]
    cases hdr : drain_next N todo with
    | none => simp [drain_next_none hdr] at hi
    | some r =>
      have hr := hok.1 (drain_next_mem (by decide) hdr)
      exact does_access (by simpa [owned,footprint] using hr) (by simp [owned,footprint]) rfl rfl
  | @commit data reserved todo w ht hs =>
    simp only [send_actions]
    cases hdr : drain_next N todo with
    | none =>
      refine does_commit _ ?_ (by simp [hs,owned,footprint]) rfl
      cases sleeping (~~~m.recv) <;> simp [owned,footprint,Footprint.idle]
    | some r =>
      have := drain_next_mem (by decide) hdr
      simp [ht] at this
  | @spin data spin pc w hs hd hsl hcase =>
    have hf : footprint (.send id blocking x pc') = .idle := by
      rcases hcase with ⟨-,rfl⟩ | ⟨-,-,rfl⟩ | ⟨-,-,-,rfl⟩ | ⟨-,rfl⟩
      · exact footprint_try_send id blocking x data
      all_goals rfl
    refine does_quiet ?_ (by simp [owned_idle hf]) subset_rfl (fun h0 => ?_)
    · simp only [send_actions]
      split_ifs
      exacts [plain_update _ _ _,plain_nil]
    · rw [hs, ← hd]
      exact ⟨h0,subset_rfl⟩
  | sleep | miss =>
    exact does_quiet plain_nil subset_rfl subset_rfl (fun h0 => ⟨h0,subset_rfl⟩)
  | rearm hs hd =>
    refine does_quiet (plain_update _ _ _) ?_ subset_rfl (fun h0 => ?_)
    · simp [owned_idle (footprint_try_send id blocking x _)]
    · rw [hs, ← hd]
      exact ⟨h0,subset_rfl⟩

theorem recv_deed {id x : ℕ} {blocking : Bool} {pc pc' : RecvPc T} (hok : RecvOk blocking pc)
    (ho : dead m.send = false) (hm : RecvMove m blocking pc m' pc' e) :
    Does c m m' (owned (.recv id blocking x pc)) (owned (.recv id blocking x pc'))
      (recv_actions m' pc) := by
  have hsame : slots (N := 30) m.recv ⊆ slots m.recv := subset_rfl
  cases hm with
  | none hs hcase =>
    refine does_quiet (plain_update _ _ _) ?_ hsame (fun h0 => ⟨h0,subset_rfl⟩)
    rcases hcase with ⟨-,rfl⟩ | ⟨-,rfl⟩ <;> cases blocking <;> simp [owned,footprint,Footprint.idle]
  | claim hne hcl hs => exact does_claim _ (by simp [owned,footprint,hcl]) hs rfl
  | @read claimed' todo todo' values i v hi ht =>
    simp only [recv_actions]
    cases hdr : drain_next N todo with
    | none => simp [drain_next_none hdr] at hi
    | some r =>
      have hr := hok.1 (drain_next_mem (by decide) hdr)
      exact does_access (by simpa [owned,footprint] using hr) (by simp [owned,footprint]) rfl rfl
  | @release claimed' todo w values ht hs =>
    simp only [recv_actions]
    cases hdr : drain_next N todo with
    | none =>
      refine does_release _ ?_ ho (by simp [hs,owned,footprint]) rfl
      cases sleeping m.send <;> simp [owned,footprint]
    | some r =>
      have := drain_next_mem (by decide) hdr
      simp [ht] at this
  | @spin spin pc' w hs _ _ hcase =>
    refine does_quiet ?_ ?_ (by simp [hs]) (fun h0 => ⟨h0,subset_rfl⟩)
    · simp only [recv_actions]
      split_ifs
      exacts [plain_update _ _ _,plain_nil]
    · rcases hcase with ⟨-,rfl⟩ | ⟨-,-,rfl⟩ | ⟨-,-,-,rfl⟩ | ⟨-,rfl⟩ <;>
        simp [owned,footprint,Footprint.idle]
  | sleep | miss =>
    exact does_quiet plain_nil subset_rfl hsame (fun h0 => ⟨h0,subset_rfl⟩)
  | rearm hs =>
    exact does_quiet (plain_update _ _ _) subset_rfl (by simp [hs]) (fun h0 => ⟨h0,subset_rfl⟩)

theorem drop_deed (hm : DropMove m p m' p' e) :
    Does c m m' (owned p) (owned p') (actions c m m' p (some p')) := by
  have hsame : slots (N := 30) m.recv ⊆ slots m.recv := subset_rfl
  cases hm with
  | sender_count =>
    exact does_quiet (plain_update _ _ _) subset_rfl hsame (fun h0 => ⟨h0,subset_rfl⟩)
  | receiver_count =>
    exact does_quiet (plain_update _ _ _) subset_rfl hsame (fun h0 => ⟨h0,subset_rfl⟩)
  | sender_raise hs =>
    exact does_quiet (plain_update _ _ _) subset_rfl (by simp [hs]) (fun h0 => ⟨h0,subset_rfl⟩)
  | receiver_raise _ hd =>
    refine does_quiet (plain_update _ _ _) subset_rfl hsame (fun h0 => ?_)
    rw [hd] at h0
    cases h0
  | last_sender =>
    exact does_quiet (plain_release _ (some (.drop_sender .free))) subset_rfl hsame
      (fun h0 => ⟨h0,subset_rfl⟩)
  | last_receiver =>
    exact does_quiet (plain_release _ (some (.drop_receiver .free))) subset_rfl hsame
      (fun h0 => ⟨h0,subset_rfl⟩)

theorem move_deed (hok : Ok p) (ho : ∀ x, p.receiver = some x → dead m.send = false)
    (hm : PartyMove m p m' p' e) :
    Does c m m' (owned p) (owned p') (actions c m m' p (some p')) := by
  cases hm with
  | send hm =>
    obtain ⟨-,d,hok⟩ := hok
    exact send_deed hok hm
  | recv hm => exact recv_deed hok (ho _ rfl) hm
  | drop hm => exact drop_deed hm

end Deeds

section Alone

variable {rest : Multiset (Thread Handle × Party T)}

theorem alone_of_slots {h : List (Event T)} {s : State T} (hi : PoolSlots.Inv (view h s))
    (hc : s.calls = p ::ₘ rest.map Prod.snd) {k : Slot} (hk : k ∈ owned p) :
    Alone (shared c) s.inner rest k := by
  obtain ⟨hunready,htaken,hothers⟩ := owned_apart hi hc hk
  refine ⟨Set.eq_empty_of_forall_notMem (fun x hx => ?_),fun q hq => ⟨?_,Set.notMem_empty k⟩⟩
  · cases hx with
    | ready hk => exact hunready hk
    | vacant h0 hk => exact hk htaken
  · exact hothers q.2 (Multiset.mem_map_of_mem _ hq)

end Alone

end Lockness.BagRaces
