import Lockness.BagAttempt

/-!
# Which slots a send reserves

Left alone, a send takes the free slots of its cyclic window. When the window
is taken it asks once more, for as many free slots as it has items: those of
highest index when its bias is even, those of lowest index when it is odd.
Slot `i` is bit `31-i`, so the direction in which bits are cleared is the
opposite one.
-/

set_option autoImplicit false

namespace Lockness.BagChoice
open Lockness.PoolRuns Lockness.PoolFutex Lockness.WordBits Lockness.BagMasks Lockness.BagRequest
open Lockness.BagMachine Lockness.BagMoves Lockness.BagInversion

variable {T : Type*}

/-- The slots `b, b+1, ..` modulo thirty, one for each of `n` items. -/
def window (n b : ℕ) : Finset Slot :=
  (Finset.range (min n 30)).image (fun j => Fin.ofNat 30 (b+j))

/-- As many of the free slots as there are items, from one end of the bag. -/
structure Outermost (highest : Bool) (n : ℕ) (free chosen : Finset Slot) : Prop where
  within : chosen ⊆ free
  number : chosen.card = min n free.card
  outer : ∀ i ∈ chosen, ∀ j ∈ free, j ∉ chosen → if highest then j < i else i < j

theorem slots_compute_request_mask {n b : ℕ} (hn : 0 < n) (hb : b < 30) :
    slots (compute_request_mask N n b) = window n b := by
  ext i
  rw [mem_compute_request_mask n b hn hb, window, Finset.mem_image]
  have hi : i.val < 30 := i.isLt
  constructor
  · intro h
    refine ⟨(i.val+30-b)%30,Finset.mem_range.mpr h,Fin.ext ?_⟩
    simp only [Fin.ofNat]
    omega
  · rintro ⟨j,hj,rfl⟩
    rw [Finset.mem_range] at hj
    simp only [Fin.ofNat]
    omega

theorem clear_loop_top (max k : ℕ) (mask : Word) (hk : count_ones mask = k) :
    ∀ i ∈ bits (clear_loop max k mask), ∀ j ∈ bits mask, j ∉ bits (clear_loop max k mask) →
      j < i := by
  induction k generalizing mask with
  | zero => exact fun i _ j hj hn => absurd hj hn
  | succ k ih =>
    rw [clear_loop]
    split_ifs with hm
    · have hx : mask ≠ 0 := (count_ones_pos mask).mp (by omega)
      have hc := count_ones_and_sub_one mask hx
      obtain ⟨l,-,hleast,hl⟩ := and_sub_one_least mask hx
      intro i hi j hj hn
      have hin := (clear_loop_spec max (mask &&& (mask-1)) k (by omega)).1 hi
      by_cases hjl : j = l
      · rw [hl, Finset.mem_erase] at hin
        have := hleast i hin.2
        omega
      · refine ih (mask &&& (mask-1)) (by omega) i hi j ?_ hn
        rw [hl]
        exact Finset.mem_erase.mpr ⟨hjl,hj⟩
    · exact fun i _ j hj hn => absurd hj hn

theorem mem_bits_of_slot (w : Word) (i : Slot) : 31-i.val ∈ bits w ↔ i ∈ slots w := by
  have hi : i.val < 30 := i.isLt
  rw [mem_bits, mem_slots, getMsbD_of_bit w _ (by omega), show 31-(31-i.val) = i.val by omega]

theorem mem_slots_reverse (w : Word) (i : Slot) : i ∈ slots w.reverse ↔ i.val ∈ bits w := by
  rw [mem_slots, BitVec.getMsbD_reverse, mem_bits]

theorem clear_extra_bits_outermost {mask : Word} (h : Bare mask) (max : ℕ) (d : Bool) :
    Outermost d max (slots mask) (slots (clear_extra_bits mask max d)) := by
  refine ⟨clear_extra_bits_subset mask max d,?_,?_⟩
  · rw [← count_ones_of_bare (clear_extra_bits_bare mask max d h), count_ones_clear_extra_bits,
      count_ones_of_bare h]
  · intro i hi j hj hn
    cases d with
    | false =>
      have := clear_loop_top max _ mask rfl _ ((mem_bits_of_slot _ i).mpr hi) _
        ((mem_bits_of_slot _ j).mpr hj) (mt (mem_bits_of_slot _ j).mp hn)
      rw [if_neg (by decide), Fin.lt_def]
      have : i.val < 30 := i.isLt
      omega
    | true =>
      rw [if_pos rfl, Fin.lt_def]
      refine clear_loop_top max _ mask.reverse (count_ones_reverse mask) _
        ((mem_slots_reverse _ i).mp hi) _ ?_ (mt (mem_slots_reverse _ j).mpr hn)
      rw [← mem_slots_reverse, BitVec.reverse_reverse_eq]
      exact hj

section Reserve

variable {c : Target T} {id : ℕ} {b : Bool} {h : Sender} {d : SendBuffer T} {m : Inner T}

/-- One `fetch_or` of the reservation loop, with the mask it asks for. -/
inductive FetchOr (c : Target T) (id : ℕ) (b : Bool) (h : Sender) :
    Inner T × SendPc T → Word → Inner T × SendPc T → Prop
  | fetch_or {m m' : Inner T} {items : ℕ} {data : Container T} {mask : Word} {pc : SendPc T}
      {e : Event T} : code c m (.send id b h (.reserve items data mask)) =
        .go m' (.send id b h pc) e →
      FetchOr c id b h (m,.reserve items data mask) mask (m',pc)

def free (m : Inner T) : Finset Slot := (slots m.send)ᶜ

def asked (h : Sender) (d : SendBuffer T) (m : Inner T) : Finset Slot :=
  window d.contents.length h.bias ∩ free m

/-- The loop has ended with the slots `won`, which it has set and no others. -/
def Won (d : SendBuffer T) (m m' : Inner T) (pc : SendPc T) (won : Finset Slot) : Prop :=
  slots (N := 30) m'.send = slots m.send ∪ won ∧ ∃ data reserved, Whole data d ∧
    slots (N := 30) reserved = won ∧ pc = .write data reserved reserved

variable (c id) in
theorem reserve_goes {items : ℕ} {data : Container T} {mask : Word} (hb : h.bias < 30)
    (hok : SendOk b d (.reserve items data mask)) : ∃ m' pc,
      FetchOr c id b h (m,.reserve items data mask) mask (m',pc) ∧
        SendMove m b h (.reserve items data mask) m' pc .tau := by
  have hgo : ∃ m' pc, code c m (.send id b h (.reserve items data mask)) =
      .go m' (.send id b h pc) .tau := by
    simp only [code, send_code, try_send_reserve, hok.1.1]
    repeat' split
    all_goals exact ⟨_,_,rfl⟩
  obtain ⟨m',pc,hc⟩ := hgo
  refine ⟨m',pc,.fetch_or hc,?_⟩
  cases code_moves (p := .send id b h (.reserve items data mask)) ⟨hb,d,hok⟩ hc with
  | send hm => exact hm
  | drop hm => cases hm

variable (c id) in
theorem reserve_wins {items : ℕ} {data : Container T} {mask : Word} (hb : h.bias < 30)
    (hok : SendOk b d (.reserve items data mask)) (ho : dead m.send = false)
    (hne : (slots (N := 30) mask \ slots m.send).Nonempty) : ∃ w pc,
      FetchOr c id b h (m,.reserve items data mask) mask ({ m with send := w },pc) ∧
        dead w = false ∧ sleeping w = sleeping m.send ∧
        Won d m { m with send := w } pc (slots (N := 30) mask \ slots m.send) := by
  obtain ⟨m',pc,hf,hm⟩ := reserve_goes c id (m := m) hb hok
  cases hm with
  | refuse _ hd => exact absurd (ho.symm.trans hd) (by decide)
  | full _ _ hu =>
    rw [hu, Finset.sdiff_eq_empty_iff_subset.mpr (Finset.subset_univ _)] at hne
    exact absurd hne (by simp)
  | reserve _ hs _ hw hd hsl => exact ⟨_,_,hf,hd,hsl,by rw [← hs]; exact hw,_,_,hok.1,hs,rfl⟩
  | retry _ hsub =>
    rw [Finset.sdiff_eq_empty_iff_subset.mpr hsub] at hne
    exact absurd hne (by simp)

variable (c id) in
theorem reserve_loses {items : ℕ} {data : Container T} {mask : Word} (hb : h.bias < 30)
    (hok : SendOk b d (.reserve items data mask)) (ho : dead m.send = false)
    (hsub : slots (N := 30) mask ⊆ slots m.send) : ∃ pc,
      FetchOr c id b h (m,.reserve items data mask) mask (m,pc) ∧
        (slots (N := 30) m.send = Finset.univ ∧ pc = (if b then .spin d 32 else .done (.full d)) ∨
          slots (N := 30) m.send ≠ Finset.univ ∧ pc = .reserve items data
            (clear_extra_bits (~~~(m.send ||| Status.all)) items (h.bias%2 = 0))) := by
  obtain ⟨m',pc,hf,hm⟩ := reserve_goes c id (m := m) hb hok
  cases hm with
  | refuse _ hd => exact absurd (ho.symm.trans hd) (by decide)
  | full hr _ hu =>
    rw [hok.1.unique hr] at hf
    exact ⟨_,hf,.inl ⟨hu,rfl⟩⟩
  | reserve _ hs hne =>
    rw [hs, Finset.sdiff_eq_empty_iff_subset.mpr hsub] at hne
    exact absurd hne (by simp)
  | retry _ _ hu => exact ⟨_,hf,.inr ⟨hu,rfl⟩⟩

variable (c id) in
theorem retry_wins {items : ℕ} {data : Container T} {mask : Word} (hb : h.bias < 30)
    (hok : SendOk b d (.reserve items data mask)) (ho : dead m.send = false)
    (hsub : slots (N := 30) mask ⊆ slots m.send) (hu : slots (N := 30) m.send ≠ Finset.univ) :
    ∃ chosen mask' w pc,
      mask' = clear_extra_bits (~~~(m.send ||| Status.all)) items (h.bias%2 = 0) ∧
      FetchOr c id b h (m,.reserve items data mask') mask' ({ m with send := w },pc) ∧
      dead w = false ∧ sleeping w = sleeping m.send ∧
      Outermost (h.bias%2 = 0) items (slots m.send)ᶜ chosen ∧
      Won d m { m with send := w } pc chosen := by
  have hmove : SendMove m b h (.reserve items data mask) m _ .tau := .retry ho hsub hu
  have hok' := send_move_ok hok hb hmove
  have hfree : slots (N := 30) (~~~(m.send ||| Status.all)) = (slots m.send)ᶜ := by simp
  have hout := clear_extra_bits_outermost (bare_not_all m.send) items (h.bias%2 = 0)
  rw [hfree] at hout
  have hdisj := Finset.disjoint_of_subset_left hout.within disjoint_compl_left
  rw [← Finset.sdiff_eq_self_iff_disjoint] at hdisj
  have hne := hok'.2.2.2.2.1
  rw [← hdisj] at hne
  obtain ⟨w,pc,hf,hd,hs,hwon⟩ := reserve_wins c id hb hok' ho hne
  rw [hdisj] at hwon
  exact ⟨_,_,w,pc,rfl,hf,hd,hs,hout,hwon⟩

/-- Left alone, a send reserves the free slots of its window; when there are none,
the outermost free slots on the side of its bias, as many as it has items; and
nothing in a full bag. -/
theorem send_reserves (hb : h.bias < 30) (hd : d.contents ≠ []) (ho : dead m.send = false) :
    ∃ masks w pc, Steps (FetchOr c id b h) (m,try_send h d) masks ({ m with send := w },pc) ∧
      masks.length ≤ 2 ∧ dead w = dead m.send ∧ sleeping w = sleeping m.send ∧
      ((asked h d m).Nonempty → Won d m { m with send := w } pc (asked h d m)) ∧
      (asked h d m = ∅ → (free m).Nonempty → ∃ chosen,
        Outermost (h.bias%2 = 0) d.contents.length (free m) chosen ∧
          Won d m { m with send := w } pc chosen) ∧
      (free m = ∅ → w = m.send ∧ pc = if b then .spin d 32 else .done (.full d)) := by
  rcases try_send_spec h d with ⟨h0,-⟩ | ⟨-,data,-,ht⟩
  · exact absurd h0 hd
  have hn := List.length_pos_iff.mpr hd
  have hok := try_send_ok hb b d
  have hasked : asked h d m =
      slots (compute_request_mask N d.contents.length h.bias) \ slots m.send := by
    rw [slots_compute_request_mask hn hb, Finset.sdiff_eq_inter_compl, asked, free]
  rw [ht] at hok ⊢
  simp only [hasked, free]
  rcases Finset.eq_empty_or_nonempty (slots (N := 30)
    (compute_request_mask N d.contents.length h.bias) \ slots m.send) with hemp | hne
  · have hsub := Finset.sdiff_eq_empty_iff_subset.mp hemp
    obtain ⟨pc,hf,⟨hu,rfl⟩ | ⟨hu,rfl⟩⟩ := reserve_loses c id hb hok ho hsub
    · refine ⟨_,m.send,_,.single hf,by simp,rfl,rfl,?_,?_,fun _ => ⟨rfl,rfl⟩⟩
      · intro hne
        rw [hemp] at hne
        exact absurd hne (by simp)
      · intro _ hfree
        rw [hu] at hfree
        exact absurd hfree (by simp)
    · obtain ⟨chosen,_,w,pc,rfl,hf',hdw,hsw,hout,hwon⟩ := retry_wins c id hb hok ho hsub hu
      refine ⟨_,w,pc,(Steps.single hf).next hf',by simp,hdw.trans ho.symm,hsw,?_,?_,?_⟩
      · intro hne
        rw [hemp] at hne
        exact absurd hne (by simp)
      · exact fun _ _ => ⟨_,hout,hwon⟩
      · intro h0
        rw [Finset.compl_eq_empty_iff] at h0
        exact absurd h0 hu
  · obtain ⟨w,pc,hf,hdw,hsw,hwon⟩ := reserve_wins c id hb hok ho hne
    refine ⟨_,w,pc,.single hf,by simp,hdw.trans ho.symm,hsw,fun _ => hwon,?_,?_⟩
    · intro hemp
      rw [hemp] at hne
      exact absurd hne (by simp)
    · intro h0
      rw [Finset.sdiff_eq_inter_compl, h0] at hne
      exact absurd hne (by simp)

def crowded (send : Word) : Inner ℕ := { (mpmc : State ℕ).inner with send := send }

/-- Four values and the window 28, 29, 0, 1. Of it 29 and 1 are taken, so that 28 and 0 are
reserved; then all of it is, and four slots from the other end of the bag are. -/
theorem send_reserves_crowded :
    (∃ masks w pc, Steps (FetchOr .release 1 false ⟨4,28⟩)
        (crowded 0x40000004#32,try_send ⟨4,28⟩ (.vec [1,2,3,4])) masks
        ({ crowded 0x40000004#32 with send := w },pc) ∧
      slots (N := 30) w = {1,29,28,0}) ∧
    ∃ masks w pc chosen, Steps (FetchOr .release 1 false ⟨4,28⟩)
        (crowded 0xC000000C#32,try_send ⟨4,28⟩ (.vec [1,2,3,4])) masks
        ({ crowded 0xC000000C#32 with send := w },pc) ∧ masks.length ≤ 2 ∧
      Outermost true 4 (free (crowded 0xC000000C#32)) chosen ∧
      slots (N := 30) w = {0,1,28,29} ∪ chosen := by
  constructor
  · obtain ⟨masks,w,pc,hrun,-,-,-,hwon,-,-⟩ := @send_reserves ℕ .release 1 false ⟨4,28⟩
      (.vec [1,2,3,4]) (crowded 0x40000004#32) (by decide) (by decide) (by decide)
    have hasked : asked ⟨4,28⟩ (.vec [1,2,3,4]) (crowded 0x40000004#32) = {28,0} := by decide
    obtain ⟨hw,-⟩ := hwon (by rw [hasked]; exact Finset.insert_nonempty _ _)
    refine ⟨masks,w,pc,hrun,?_⟩
    rw [show slots (N := 30) w = _ from hw, hasked]
    decide
  · obtain ⟨masks,w,pc,hrun,hle,-,-,-,hfall,-⟩ := @send_reserves ℕ .release 1 false ⟨4,28⟩
      (.vec [1,2,3,4]) (crowded 0xC000000C#32) (by decide) (by decide) (by decide)
    have hasked : asked ⟨4,28⟩ (.vec [1,2,3,4]) (crowded 0xC000000C#32) = ∅ := by decide
    obtain ⟨chosen,hout,hw,-⟩ := hfall hasked ⟨2,by decide⟩
    refine ⟨masks,w,pc,chosen,hrun,hle,hout,?_⟩
    rw [show slots (N := 30) w = _ from hw]
    congr 1

end Reserve

end Lockness.BagChoice
