import Lockness.BagMoves

/-!
# The code of the bag does nothing else

Every step of the code is one of the listed moves, wake-ups and exits, and a
move leaves its party with registers that it still knows. The four functions
of the source are unfolded here and nowhere after.
-/

set_option autoImplicit false

namespace Lockness.BagInversion
open Lockness.PoolFutex Lockness.PoolSlots Lockness.WordBits Lockness.BagMasks Lockness.BagRequest
open Lockness.BagMachine Lockness.BagMoves

variable {T : Type*}

section Inversion

variable {c : Target T} {m m' : Inner T} {blocking : Bool} {h : Sender} {p' : Party T} {e : Event T}

theorem try_send_reserve_moves {items : ℕ} {data : Container T} {d : SendBuffer T} {mask : Word}
    {goto : SendPc T → Party T} (hok : SendOk blocking d (.reserve items data mask))
    (hc : try_send_reserve blocking h items data mask m goto = .go m' p' e) :
    ∃ pc, p' = goto pc ∧ SendMove m blocking h (.reserve items data mask) m' pc e := by
  obtain ⟨⟨hr,-⟩,-,-,hb,hne,-⟩ := hok
  have hself : slots (N := 30) mask ⊆ slots m.send → m.send ||| mask = m.send := by
    intro hsub
    apply word_ext
    · rw [slots_or, Finset.union_eq_left.mpr hsub]
    · simp [hb.dead]
    · simp [hb.sleeping]
  have hbare : Bare (~~~(m.send ||| Status.all) &&& mask) := hb.and_left _
  have hs : slots (N := 30) (~~~(m.send ||| Status.all) &&& mask) = slots mask \ slots m.send := by
    ext i
    simp [and_comm]
  rw [try_send_reserve] at hc
  simp only [hr] at hc
  split at hc
  · rename_i hd
    cases hc
    exact ⟨_,rfl,.refuse hr hd hne (by simp) (by simp [hd]) (by simp [hb.sleeping])⟩
  rename_i hd
  rw [Bool.not_eq_true] at hd
  split at hc
  · rename_i hf
    cases hc
    have hfull := (full_iff _).mp hf
    rw [hself (by simp [hfull])]
    exact ⟨_,rfl,.full hr hd hfull⟩
  rename_i hf
  split at hc
  · rename_i hres
    cases hc
    refine ⟨_,rfl,.reserve hd hs (hbare.pos_iff.mp hres) ?_ (by simp [hb.dead,hd])
      (by simp [hb.sleeping])⟩
    rw [hs, slots_or, Finset.union_sdiff_self_eq_union]
  · rename_i hres
    cases hc
    rw [hbare.pos_iff, hs, Finset.not_nonempty_iff_eq_empty,
      Finset.sdiff_eq_empty_iff_subset] at hres
    rw [hself hres]
    exact ⟨_,rfl,.retry hd hres (mt (full_iff _).mpr hf)⟩

theorem try_send_write_moves {data : Container T} {reserved todo : Word}
    {goto : SendPc T → Party T} (hc : try_send_write c data reserved todo m goto = .go m' p' e) :
    ∃ pc, p' = goto pc ∧ SendMove m blocking h (.write data reserved todo) m' pc e := by
  rw [try_send_write] at hc
  split at hc
  · rename_i i todo' hdr
    split at hc
    · cases hc
    · rename_i v data' ht
      cases hc
      exact ⟨_,rfl,.write (drain_next_mem (by decide) hdr) (drain_next_slots (by decide) hdr) ht⟩
  · rename_i hdr
    cases hc
    refine ⟨_,rfl,.commit (drain_next_none hdr) ?_ ?_ ?_⟩
    all_goals split
    · rename_i hx
      have hres : slots (N := 30) reserved = Finset.univ := (full_iff _).mp hx.2
      simp [hres]
    all_goals simp

theorem send_spin_moves (data : SendBuffer T) (spin : ℕ) :
    SendMove m blocking h (.spin data spin)
      { m with send := if spin = 0 then m.send ||| Status.SLEEPING else m.send }
      (send_spin h data spin (if spin = 0 then m.send ||| Status.SLEEPING else m.send)) .tau := by
  refine .spin ?_ ?_ ?_ ?_
  · split <;> simp
  · split <;> simp
  · split <;> simp +contextual
  generalize hw : (if spin = 0 then m.send ||| Status.SLEEPING else m.send) = w
  have hz : spin = 0 → sleeping w = true := by
    rintro rfl
    simp [← hw]
  have hlt : w ||| Status.all < u32_MAX ↔ slots (N := 30) w ≠ Finset.univ := by
    rw [Ne, ← full_iff, u32_MAX, BitVec.lt_allOnes_iff]
  unfold send_spin
  split_ifs with hf hd hsl
  · exact .inl ⟨hlt.mp hf,rfl⟩
  · exact .inr (.inl ⟨by simpa [hlt] using hf,hd,rfl⟩)
  · exact .inr (.inr (.inl ⟨by simpa [hlt] using hf,by simpa using hd,hsl,rfl⟩))
  · exact .inr (.inr (.inr ⟨Nat.pos_of_ne_zero (fun h0 => hsl (hz h0)),rfl⟩))

theorem send_moves {id : ℕ} {d : SendBuffer T} {pc : SendPc T} (hok : SendOk blocking d pc)
    (hc : send_code c m id blocking h pc = .go m' p' e) :
    ∃ pc', p' = .send id blocking h pc' ∧ SendMove m blocking h pc m' pc' e := by
  cases pc with
  | reserve items data mask => exact try_send_reserve_moves hok hc
  | write data reserved todo => exact try_send_write_moves hc
  | wake => cases hc
  | spin data spin =>
    cases hc
    exact ⟨_,rfl,send_spin_moves data spin⟩
  | sleep data expected =>
    cases hc
    refine ⟨_,rfl,?_⟩
    split
    · rename_i heq
      rw [← heq]
      exact .sleep data
    · exact .miss data expected
  | asleep data => cases hc
  | rearm data =>
    cases hc
    exact ⟨_,rfl,.rearm (by simp) (by simp) (by simp)⟩
  | done r => cases hc

theorem send_defined {id : ℕ} {d : SendBuffer T} {pc : SendPc T} (hok : SendOk blocking d pc) :
    code c m (.send id blocking h pc) ≠ .ub := by
  cases pc with
  | reserve items data mask =>
    simp only [code, send_code, try_send_reserve, hok.1.1]
    repeat' split
    all_goals simp
  | write data reserved todo =>
    simp only [code, send_code, try_send_write]
    split
    · rename_i i todo' hdr
      have hcard := Finset.card_pos.mpr ⟨i,drain_next_mem (by decide) hdr⟩
      split
      · rename_i ht
        have := hok.2
        rw [take_none ht, List.length_nil] at this
        omega
      · simp
    · simp
  | _ => simp [code,send_code]

theorem send_move_ok {d : SendBuffer T} {pc pc' : SendPc T} (hok : SendOk blocking d pc)
    (hb : h.bias < 30) (hm : SendMove m blocking h pc m' pc' e) : SendOk blocking d pc' := by
  cases hm with
  | refuse hr =>
    obtain ⟨hw,rfl,hp,-⟩ := hok
    rw [hw.unique hr]
    exact .inr ⟨hp,.inr rfl⟩
  | full hr =>
    obtain ⟨hw,rfl,hp,-⟩ := hok
    rw [hw.unique hr]
    cases blocking
    · exact .inr ⟨hp,.inl ⟨rfl,rfl⟩⟩
    · exact ⟨rfl,rfl,hp⟩
  | reserve _ hs _ _ _ _ =>
    obtain ⟨hw,rfl,-,-,-,hcard⟩ := hok
    refine ⟨subset_rfl,?_⟩
    rw [hw.2, hs]
    exact (Finset.card_le_card Finset.sdiff_subset).trans hcard
  | @retry items _ _ _ _ hne =>
    obtain ⟨hw,rfl,hp,-⟩ := hok
    refine ⟨hw,rfl,hp,clear_extra_bits_bare _ _ _ (bare_not_all _),?_,clear_extra_bits_card _ _ _⟩
    rw [Finset.nonempty_iff_ne_empty]
    apply clear_extra_bits_nonempty _ _ _ (bare_not_all _) hp
    rw [slots30_not, slots_or, slots30_all, Finset.union_empty]
    simpa using hne
  | write hi ht htake =>
    obtain ⟨hsub,hcard⟩ := hok
    refine ⟨?_,?_⟩
    · rw [ht]
      exact (Finset.erase_subset _ _).trans hsub
    · rw [ht, Finset.card_erase_of_mem hi]
      rw [take_spec htake, List.length_append, List.length_singleton] at hcard
      omega
  | commit =>
    split
    · trivial
    · exact .inl rfl
  | spin _ _ _ hcase =>
    obtain ⟨hbl,rfl,hp⟩ := hok
    rcases hcase with ⟨-,rfl⟩ | ⟨-,-,rfl⟩ | ⟨hs,hd,hsl,rfl⟩ | ⟨-,rfl⟩
    · exact try_send_ok hb blocking _
    · exact .inr ⟨hp,.inr (by simp [hbl])⟩
    · exact ⟨hbl,rfl,hp,hs,hd,hsl⟩
    · exact ⟨hbl,rfl,hp⟩
  | sleep =>
    obtain ⟨hbl,rfl,hp,-⟩ := hok
    exact ⟨hbl,rfl,hp⟩
  | miss =>
    obtain ⟨hbl,rfl,hp,-⟩ := hok
    exact ⟨hbl,rfl,hp⟩
  | rearm =>
    obtain ⟨hbl,rfl,hp⟩ := hok
    exact try_send_ok hb blocking _

theorem try_recv_claim_moves {goto : RecvPc T → Party T}
    (hc : try_recv_claim blocking m goto = .go m' p' e) :
    ∃ pc, p' = goto pc ∧ RecvMove m blocking .claim m' pc e := by
  have hbare := bare_and_not_all m.recv
  have hs : slots (N := 30) (m.recv &&& ~~~Status.all) = slots m.recv := by simp
  rw [try_recv_claim] at hc
  split at hc
  · rename_i h0
    have hnone : slots (N := 30) m.recv = ∅ := by rw [← hs, ← hbare.eq_zero_iff, h0]
    have hself : m.recv &&& Status.all = m.recv := by
      apply word_ext <;> simp [hnone]
    rw [hself] at hc
    split at hc
    · rename_i hd
      cases hc
      exact ⟨_,rfl,.none hnone (.inl ⟨hd,rfl⟩)⟩
    · rename_i hd
      cases hc
      exact ⟨_,rfl,.none hnone (.inr ⟨by simpa using hd,rfl⟩)⟩
  · rename_i h0
    cases hc
    rw [hs]
    refine ⟨_,rfl,.claim ?_ hs ?_ ?_ ?_⟩
    · rw [Finset.nonempty_iff_ne_empty, Ne, ← hs, ← hbare.eq_zero_iff]
      exact h0
    all_goals simp

theorem try_recv_read_moves {claimed todo : Word} {values : List T} {goto : RecvPc T → Party T}
    (hc : try_recv_read c claimed todo values m goto = .go m' p' e) :
    ∃ pc, p' = goto pc ∧ RecvMove m blocking (.read claimed todo values) m' pc e := by
  rw [try_recv_read] at hc
  split at hc
  · rename_i i todo' hdr
    split at hc
    · cases hc
    · rename_i v hv
      split at hc
      · cases hc
        exact ⟨_,rfl,.read (drain_next_mem (by decide) hdr) (drain_next_slots (by decide) hdr) hv⟩
      · cases hc
  · rename_i hdr
    cases hc
    refine ⟨_,rfl,.release (drain_next_none hdr) ?_ ?_ ?_⟩
    all_goals split
    · rename_i hx
      have hcl : slots (N := 30) (~~~claimed &&& ~~~Status.all) = ∅ := by
        rw [hx.2]
        exact slots_zero
      simp only [slots_and, slots30_not, slots30_all, Finset.compl_empty, Finset.inter_univ,
        Finset.compl_eq_empty_iff] at hcl
      rw [hx.2, hcl, Finset.sdiff_eq_empty_iff_subset.mpr (Finset.subset_univ _)]
      exact slots_zero
    · ext i
      simp
    · rename_i hx
      rw [hx.2]
      rfl
    · simp
    · rename_i hx
      rw [hx.2]
      rfl
    · simp

theorem recv_spin_moves (spin : ℕ) :
    RecvMove m blocking (.spin spin)
      { m with recv := if spin = 0 then m.recv &&& ~~~Status.SLEEPING else m.recv }
      (recv_spin spin (if spin = 0 then m.recv &&& ~~~Status.SLEEPING else m.recv)) .tau := by
  refine .spin ?_ ?_ ?_ ?_
  · split <;> simp
  · split <;> simp
  · split <;> simp +contextual
  generalize hw : (if spin = 0 then m.recv &&& ~~~Status.SLEEPING else m.recv) = w
  have hz : spin = 0 → sleeping (~~~w) = true := by
    rintro rfl
    simp [← hw]
  have hpos : 0 < w &&& ~~~Status.all ↔ (slots (N := 30) w).Nonempty := by
    rw [(bare_and_not_all w).pos_iff]
    simp
  unfold recv_spin
  split_ifs with hf hd hsl
  · exact .inl ⟨hpos.mp hf,rfl⟩
  all_goals rw [hpos, Finset.not_nonempty_iff_eq_empty] at hf
  · exact .inr (.inl ⟨hf,hd,rfl⟩)
  · exact .inr (.inr (.inl ⟨hf,by simpa using hd,hsl,rfl⟩))
  · exact .inr (.inr (.inr ⟨Nat.pos_of_ne_zero (fun h0 => hsl (hz h0)),rfl⟩))

theorem recv_moves {id r : ℕ} {pc : RecvPc T}
    (hc : recv_code c m id blocking r pc = .go m' p' e) :
    ∃ pc', p' = .recv id blocking r pc' ∧ RecvMove m blocking pc m' pc' e := by
  cases pc with
  | claim => exact try_recv_claim_moves hc
  | read claimed todo values => exact try_recv_read_moves hc
  | wake values => cases hc
  | spin spin =>
    cases hc
    exact ⟨_,rfl,recv_spin_moves spin⟩
  | sleep expected =>
    cases hc
    refine ⟨_,rfl,?_⟩
    split
    · rename_i heq
      rw [← heq]
      exact .sleep
    · exact .miss expected
  | asleep => cases hc
  | rearm =>
    cases hc
    exact ⟨_,rfl,.rearm (by simp) (by simp) (by simp)⟩
  | done r => cases hc

theorem recv_move_ok {pc pc' : RecvPc T} (hok : RecvOk blocking pc)
    (hm : RecvMove m blocking pc m' pc' e) : RecvOk blocking pc' := by
  cases hm with
  | none _ hcase =>
    rcases hcase with ⟨-,rfl⟩ | ⟨-,rfl⟩ <;> cases blocking <;> rfl
  | claim =>
    refine ⟨subset_rfl,?_⟩
    rw [List.length_nil, Nat.zero_add]
    exact (Finset.card_le_univ _).trans_eq (Fintype.card_fin 30)
  | read hi ht _ =>
    obtain ⟨hsub,hcard⟩ := hok
    refine ⟨?_,?_⟩
    · rw [ht]
      exact (Finset.erase_subset _ _).trans hsub
    · have := Finset.card_erase_add_one hi
      rw [ht, List.length_append, List.length_singleton]
      omega
  | release => split <;> trivial
  | spin _ _ _ hcase =>
    rcases hcase with ⟨-,rfl⟩ | ⟨-,-,rfl⟩ | ⟨hs,hd,hsl,rfl⟩ | ⟨-,rfl⟩
    · trivial
    · exact hok
    · exact ⟨hok,hs,hd,hsl⟩
    · exact hok
  | sleep => exact hok.1
  | miss => exact hok.1
  | rearm => trivial

theorem drop_sender_moves {pc : DropPc} (hc : drop_sender_code c m pc = .go m' p' e) :
    DropMove m (.drop_sender pc) m' p' e := by
  cases pc with
  | count =>
    cases hc
    exact .sender_count
  | raise =>
    cases hc
    exact .sender_raise (by simp) (by simp) (by simp)
  | wake => cases hc
  | release =>
    simp only [drop_sender_code, release_code] at hc
    split at hc
    · rename_i h1
      cases hc
      simpa [h1] using DropMove.last_sender h1
    · cases hc
  | free =>
    simp only [drop_sender_code, free_code] at hc
    split at hc <;> cases hc

theorem drop_receiver_moves {pc : DropPc} (hc : drop_receiver_code c m pc = .go m' p' e) :
    DropMove m (.drop_receiver pc) m' p' e := by
  cases pc with
  | count =>
    cases hc
    exact .receiver_count
  | raise =>
    cases hc
    exact .receiver_raise (by simp) (by simp) (by simp)
  | wake => cases hc
  | release =>
    simp only [drop_receiver_code, release_code] at hc
    split at hc
    · rename_i h1
      cases hc
      simpa [h1] using DropMove.last_receiver h1
    · cases hc
  | free =>
    simp only [drop_receiver_code, free_code] at hc
    split at hc <;> cases hc

theorem code_moves {p : Party T} (hok : Ok p) (hc : code c m p = .go m' p' e) :
    PartyMove m p m' p' e := by
  cases p with
  | send id blocking h pc =>
    obtain ⟨-,d,hd⟩ := hok
    obtain ⟨pc',rfl,hm⟩ := send_moves hd hc
    exact .send hm
  | recv id blocking h pc =>
    obtain ⟨pc',rfl,hm⟩ := recv_moves hc
    exact .recv hm
  | drop_sender pc => exact .drop (drop_sender_moves hc)
  | drop_receiver pc => exact .drop (drop_receiver_moves hc)

theorem party_move_ok {p : Party T} (hok : Ok p) (hm : PartyMove m p m' p' e) : Ok p' := by
  cases hm with
  | send hs =>
    obtain ⟨hb,d,hd⟩ := hok
    exact ⟨hb,d,send_move_ok hd hb hs⟩
  | recv hr => exact recv_move_ok hok hr
  | drop hd => cases hd <;> trivial

section Outward

variable {goto : SendPc T → Party T} {goto' : RecvPc T → Party T}

theorem try_send_reserve_inward (items : ℕ) (data : Container T) (mask : Word) :
    (try_send_reserve blocking h items data mask m goto).Inward := by
  simp only [try_send_reserve]
  repeat' split
  all_goals trivial

theorem try_send_write_inward (data : Container T) (reserved todo : Word) :
    (try_send_write c data reserved todo m goto).Inward := by
  simp only [try_send_write]
  repeat' split
  all_goals trivial

theorem try_recv_claim_inward : (try_recv_claim blocking m goto').Inward := by
  simp only [try_recv_claim]
  repeat' split
  all_goals trivial

theorem try_recv_read_inward (claimed todo : Word) (values : List T) :
    (try_recv_read c claimed todo values m goto').Inward := by
  simp only [try_recv_read]
  repeat' split
  all_goals trivial

end Outward

theorem code_wakes {p : Party T} {w : Futex} {n : ℕ} (hc : code c m p = .wake w n p') :
    Waking p w n p' := by
  cases p with
  | send id blocking h pc =>
    cases pc with
    | reserve items data mask =>
      exact absurd hc ((try_send_reserve_inward items data mask).ne_wake)
    | write data reserved todo =>
      exact absurd hc ((try_send_write_inward data reserved todo).ne_wake)
    | wake =>
      cases hc
      exact .send id blocking h
    | _ => cases hc
  | recv id blocking h pc =>
    cases pc with
    | claim => exact absurd hc (try_recv_claim_inward.ne_wake)
    | read claimed todo values =>
      exact absurd hc ((try_recv_read_inward claimed todo values).ne_wake)
    | wake values =>
      cases hc
      exact .recv id blocking h values
    | _ => cases hc
  | drop_sender pc =>
    cases pc with
    | wake =>
      cases hc
      exact .drop_sender
    | release =>
      simp only [code, drop_sender_code, release_code] at hc
      split at hc <;> cases hc
    | free =>
      simp only [code, drop_sender_code, free_code] at hc
      split at hc <;> cases hc
    | _ => cases hc
  | drop_receiver pc =>
    cases pc with
    | wake =>
      cases hc
      exact .drop_receiver
    | release =>
      simp only [code, drop_receiver_code, release_code] at hc
      split at hc <;> cases hc
    | free =>
      simp only [code, drop_receiver_code, free_code] at hc
      split at hc <;> cases hc
    | _ => cases hc

theorem code_exits {p : Party T} (hc : code c m p = .exit m' e) : Exit c m p m' e := by
  cases p with
  | send id blocking h pc =>
    cases pc with
    | reserve items data mask =>
      exact absurd hc ((try_send_reserve_inward items data mask).ne_exit)
    | write data reserved todo =>
      exact absurd hc ((try_send_write_inward data reserved todo).ne_exit)
    | done r =>
      cases hc
      exact .send id blocking h r
    | _ => cases hc
  | recv id blocking h pc =>
    cases pc with
    | claim => exact absurd hc (try_recv_claim_inward.ne_exit)
    | read claimed todo values =>
      exact absurd hc ((try_recv_read_inward claimed todo values).ne_exit)
    | done r =>
      cases hc
      exact .recv id blocking h r
    | _ => cases hc
  | drop_sender pc =>
    cases pc with
    | release =>
      simp only [code, drop_sender_code, release_code] at hc
      split at hc
      · cases hc
      · cases hc
        exact .sender_release (by assumption)
    | free =>
      simp only [code, drop_sender_code, free_code] at hc
      split at hc
      · cases hc
      · cases hc
        exact .sender_free (by assumption)
    | _ => cases hc
  | drop_receiver pc =>
    cases pc with
    | release =>
      simp only [code, drop_receiver_code, release_code] at hc
      split at hc
      · cases hc
      · cases hc
        exact .receiver_release (by assumption)
    | free =>
      simp only [code, drop_receiver_code, free_code] at hc
      split at hc
      · cases hc
      · cases hc
        exact .receiver_free (by assumption)
    | _ => cases hc

end Inversion
end Lockness.BagInversion
