import Lockness.VecElements

/-!
# From `new` to `drop`

`init` either allocates, or keeps a block of the right alignment and grows it,
or replaces one of another alignment. It begins a vec with no elements in each
case. A block that starts where `NonNull::dangling` points is taken for none.
-/

set_option autoImplicit false

namespace Lockness.VecLife
open Lockness.VecLayout Lockness.VecHeap Lockness.VecMachine Lockness.VecHeader Lockness.VecGrowth
open Lockness.VecElements

variable {M Λ β O : Type} {c : Target M β} {a : Allocator β} {T U : Layout} {h : Header M}
  {vs : List (List β)} {s s' : State M Λ β} {m : M}

/-- The constant `MIN_NON_ZERO_CAP` does not overflow, so that the source compiles. -/
def Compiles (c : Target M β) (T : Layout) : Prop := MIN_NON_ZERO_CAP c T < 2^c.BITS

instance (c : Target M β) (T : Layout) : Decidable (Compiles c T) :=
  inferInstanceAs (Decidable (_ < _))

/-- A static type whose size fits the header. -/
structure Element (c : Target M β) (T : Layout) : Prop where
  size : T.size < 2^32
  min : Compiles c T

def begun (c : Target M β) (T : Layout) (m : M) (cap : ℕ) : Header M :=
  ⟨m,T.size,(header_space c T).align,0,cap⟩

structure Begun (c : Target M β) (T : Layout) (m : M) (before : List Block) (cap : ℕ)
    (s : State M Λ β) : Prop where
  live : Live c T (begun c T m cap) [] s
  others : others (begun c T m cap) s = before

theorem min_le (c : Target M β) (T : Layout) :
    (header_space c T).size ≤ MIN_NON_ZERO_CAP c T := Nat.le_add_left _ _

theorem header_alignment_eq (c : Target M β) (T : Layout) :
    HEADER_ALIGNMENT c T = (header_space c T).align :=
  Nat.mod_eq_of_lt ((header_space c T).align_le.trans_lt (by decide))

def fresh (c : Target M β) (T : Layout) (m : M) (cap : ℕ) : Header M :=
  ⟨m,ELEM_SIZE T,HEADER_ALIGNMENT c T,0,cap⟩

theorem fresh_eq (ht : Element c T) (m : M) (cap : ℕ) : fresh c T m cap = begun c T m cap := by
  rw [fresh, begun, header_alignment_eq, ELEM_SIZE, Nat.mod_eq_of_lt ht.size]

theorem fresh_run {cap : ℕ} {b : Block} (hb : b ∈ s.heap.blocks)
    (hbs : b = ⟨s.data,cap,(header_space c T).align⟩) (ha : (header_space c T).align ∣ s.data)
    (hl : Legal c cap (header_space c T).align) (hroom : (header_space c T).size ≤ cap) (m : M) :
    ∃ s', write_header c (fresh c T m cap) s = .ok () s' ∧ Held c (fresh c T m cap) s' ∧
      others (fresh c T m cap) s' = s.heap.blocks.erase b ∧
      Untouched (s.heap.blocks.erase b) s.heap s'.heap ∧ s'.log = s.log ∧ s'.data = s.data := by
  have hspace : c.header.size ≤ cap := (c.header.union_size_left T).trans hroom
  have halign : c.header.align ∣ s.data := Nat.dvd_trans (c.header.union_align_left T) ha
  have hhas : b.Has s.data c.header.size := by
    rw [hbs]
    exact ⟨le_rfl,Nat.add_le_add_left hspace _⟩
  obtain ⟨s',hw,hst,hload⟩ := write_header_at hb hhas halign (fresh c T m cap)
  have hown : own (fresh c T m cap) s' = b := by
    rw [own, hst.data, hbs, fresh, header_alignment_eq]
  have hmod : HEADER_ALIGNMENT c T < 2^32 := Nat.mod_lt _ (by decide)
  have hfits : (fresh c T m cap).Fits c.BITS :=
    ⟨Nat.mod_lt _ (by decide),hmod,Nat.two_pow_pos _,legal_lt (header_space c T).align_pos hl⟩
  refine ⟨s',hw,⟨⟨hst.data ▸ hload,hst.data ▸ halign,hfits⟩,?_,?_,?_,hspace⟩,?_,
    hst.untouched b hb hhas,hst.log,hst.data⟩
  · rw [hown, hst.blocks]
    exact hb
  · rw [hst.data, fresh, header_alignment_eq]
    exact ha
  · rw [fresh, header_alignment_eq]
    exact hl
  · rw [VecHeader.others, hown, hst.blocks]

theorem begun_of_fresh {cap : ℕ} {before : List Block} (ht : Element c T)
    (hh : Held c (fresh c T m cap) s) (ho : others (fresh c T m cap) s = before)
    (hroom : (header_space c T).size ≤ cap) : Begun c T m before cap s := by
  rw [fresh_eq ht] at hh ho
  refine ⟨⟨hh,rfl,rfl,rfl,?_,fun i hi => absurd hi (Nat.not_lt_zero i)⟩,ho⟩
  simpa [begun] using hroom

def released (c : Target M β) (U : Layout) (h : Header M) (s : State M Λ β) : State M Λ β :=
  ⟨s.heap.remove (own h s),dangling c U,s.log++[.drop_metadata h.metadata]⟩

theorem deallocate_dangling (hd : s.data = dangling c U) : deallocate c U s = .ok () s := by
  rw [deallocate, bind_is_allocated, if_pos (by simpa using hd), pure_run]

theorem drop_metadata_run (m : M) (s : State M Λ β) : drop_metadata c m s =
    if c.drop_panics m then .error (.panic .user) { s with log := s.log++[.drop_metadata m] }
    else .ok () { s with log := s.log++[.drop_metadata m] } := by
  rw [drop_metadata, bind_modify]
  split <;> rfl

theorem deallocate_run (hh : Held c h s) (hd : s.data ≠ dangling c U) : deallocate c U s =
    if c.drop_panics h.metadata then .error (.panic .user) (released c U h s)
    else .ok () (released c U h s) := by
  have ha : Asserts c U s := fun _ => hd
  have hf : from_ref c U s = .ok h s := by rw [from_ref_run hh.toHeaded, if_pos ha]
  have hcap : capacity_bytes c U s = .ok h.capacity s := by
    rw [capacity_bytes_run hh.toHeaded, if_pos ha]
  have hdealloc : dealloc s.data h.capacity h.alignment s =
      .ok () { s with heap := s.heap.remove (own h s) } := by
    rw [dealloc, bind_get]
    exact if_pos hh.block ▸ rfl
  rw [deallocate, bind_is_allocated, if_neg (by simpa using hd), bind_ok hf, bind_get,
    bind_ok hcap, bind_ok hdealloc, bind_modify, drop_metadata_run]
  rfl

/-- How `init` at `T` ends: it begins a vec at a `spot` among the blocks `before` after
dropping the metadata `dropped`, with the bytes of `kept` left alone, or it stops. `big` is
that it needs a block of an impossible size. -/
inductive Inited (c : Target M β) (T : Layout) (m : M) (kept before : List Block)
    (dropped : List M) (spot : ℕ → Prop) (big : Prop) (s : State M Λ β) :
    EStateM.Result Stop (State M Λ β) Unit → Prop
  | ok {cap : ℕ} {s' : State M Λ β} : Begun c T m before cap s' →
      Untouched kept s.heap s'.heap → s'.log = s.log++dropped.map .drop_metadata → spot s'.data →
      Inited c T m kept before dropped spot big s (.ok () s')
  | panics {d : M} {e : Stop} {s' : State M Λ β} : d ∈ dropped → c.drop_panics d = true →
      e ≠ .ub → Inited c T m kept before dropped spot big s (.error e s')
  | assertion {e : Stop} {s' : State M Λ β} : c.debug_assertions = true → e ≠ .ub →
      Inited c T m kept before dropped spot big s (.error e s')
  | refused (s' : State M Λ β) : Inited c T m kept before dropped spot big s (.error .abort s')
  | oversize {e : Stop} {s' : State M Λ β} : big → e ≠ .ub →
      Inited c T m kept before dropped spot big s (.error e s')

theorem alloc_run {size align : ℕ} (hl : Legal c size align) :
    alloc c a size align s = .ok 0 s ∨
    ∃ (ptr : ℕ) (hf : Fresh s.heap.blocks ⟨ptr,size,align⟩), ptr ≠ 0 ∧ a.Hands ptr ∧
      alloc c a size align s =
        .ok ptr { s with heap := s.heap.insert ⟨ptr,size,align⟩ hf a.fill } := by
  by_cases h0 : a.alloc s.heap size align = 0
  · left
    rw [alloc, bind_get, if_neg (not_not_intro hl), dif_pos h0, pure_run]
  · refine .inr ⟨_,a.alloc_fresh _ _ _ h0,h0,.inl ⟨_,_,_,rfl⟩,?_⟩
    rw [alloc, bind_get, if_neg (not_not_intro hl), dif_neg h0]
    rfl

theorem alloc_illegal {size align : ℕ} (hl : ¬ Legal c size align) :
    alloc c a size align s = .error .oversize s := by
  rw [alloc, bind_get, if_pos hl, throw_run]

theorem place_fresh (hd : s.data = dangling c T) (m : M) :
    (¬ Legal c (MIN_NON_ZERO_CAP c T) (header_space c T).align ∧
      place c a T m s = .error .oversize s) ∨
    place c a T m s = .error .abort s ∨
    ∃ s', place c a T m s = .ok () s' ∧ Held c (fresh c T m (MIN_NON_ZERO_CAP c T)) s' ∧
      others (fresh c T m (MIN_NON_ZERO_CAP c T)) s' = s.heap.blocks ∧
      Untouched s.heap.blocks s.heap s'.heap ∧ s'.log = s.log ∧ a.Hands s'.data := by
  have hassert : debug_assert c (¬ (decide (s.data ≠ dangling c T) = true)) s = .ok () s := by
    rw [debug_assert, if_neg (by simp [hd]), pure_run]
  have hna : ¬ decide (s.data ≠ dangling c T) = true := by simpa using hd
  rw [place, bind_is_allocated, if_neg hna]
  by_cases hl : Legal c (MIN_NON_ZERO_CAP c T) (header_space c T).align
  swap
  · have hrun : allocate c a T s = .error .oversize s := by
      rw [allocate, bind_is_allocated, bind_ok hassert, bind_error (alloc_illegal hl)]
    exact .inl ⟨hl,bind_error hrun⟩
  right
  rcases alloc_run (a := a) hl with h0 | ⟨ptr,hf,h0,hhands,hrun⟩
  · have hrun : allocate c a T s = .error .abort s := by
      rw [allocate, bind_is_allocated, bind_ok hassert, bind_ok h0]
      rfl
    exact .inl (bind_error hrun)
  · have hrun' : allocate c a T s = .ok (MIN_NON_ZERO_CAP c T) ⟨s.heap.insert
        ⟨ptr,MIN_NON_ZERO_CAP c T,(header_space c T).align⟩ hf a.fill,ptr,s.log⟩ := by
      rw [allocate, bind_is_allocated, bind_ok hassert, bind_ok hrun]
      simp only [if_neg h0, bind_modify, pure_run]
    obtain ⟨s',hw,hh,ho,hun,hlog,hdata⟩ := fresh_run (s := ⟨s.heap.insert
      ⟨ptr,MIN_NON_ZERO_CAP c T,(header_space c T).align⟩ hf a.fill,ptr,s.log⟩)
      List.mem_cons_self rfl hf.1 hl (min_le c T) m
    have herase : (s.heap.insert ⟨ptr,MIN_NON_ZERO_CAP c T,(header_space c T).align⟩ hf
        a.fill).blocks.erase ⟨ptr,MIN_NON_ZERO_CAP c T,(header_space c T).align⟩ =
        s.heap.blocks := List.erase_cons_head ..
    rw [herase] at ho hun
    exact .inr ⟨s',(bind_ok hrun').trans hw,hh,ho,(untouched_insert hf).trans hun,hlog,
      hdata ▸ hhands⟩

theorem place_kept (hh : Held c h s) (hd : s.data ≠ dangling c T)
    (ha : h.alignment = (header_space c T).align) (hroom : (header_space c T).size ≤ h.capacity)
    (m : M) :
    ∃ s', place c a T m s =
        (if c.drop_panics h.metadata then .error (.panic .user) s' else .ok () s') ∧
      Held c (fresh c T m h.capacity) s' ∧ others (fresh c T m h.capacity) s' = others h s ∧
      Untouched (others h s) s.heap s'.heap ∧ s'.log = s.log++[.drop_metadata h.metadata] ∧
      s'.data = s.data := by
  have has : Asserts c T s := fun _ => hd
  have hcap : capacity_bytes c T s = .ok h.capacity s := by
    rw [capacity_bytes_run hh.toHeaded, if_pos has]
  have hown : own h s = ⟨s.data,h.capacity,(header_space c T).align⟩ := by rw [own, ha]
  obtain ⟨s',hw,hh',ho,hun,hlog,hdata⟩ :=
    fresh_run hh.block hown (ha ▸ hh.aligned) (ha ▸ hh.legal) hroom m
  refine ⟨{ s' with log := s'.log++[.drop_metadata h.metadata] },?_,hh'.relog _,ho,hun,?_,hdata⟩
  · rw [fresh] at hw
    rw [place, bind_is_allocated, if_pos (by simpa using hd), bind_ok hcap,
      bind_ok (read_header_run hh.toHeaded), bind_ok hw, drop_metadata_run]
  · rw [hlog]

theorem place_dangling (ht : Element c T) (hd : s.data = dangling c T) (m : M) :
    Inited c T m s.heap.blocks s.heap.blocks [] a.Hands
      (¬ Legal c (MIN_NON_ZERO_CAP c T) (header_space c T).align) s
      (place c a T m s) := by
  rcases place_fresh (a := a) hd m with ⟨hl,hr⟩ | hr | ⟨s',hr,hh,ho,hun,hlog,hhands⟩ <;> rw [hr]
  · exact .oversize hl (by decide)
  · exact .refused s
  · exact .ok (begun_of_fresh ht hh ho (min_le c T)) hun (by simpa using hlog) hhands

theorem place_held (ht : Element c T) (hh : Held c h s) (hd : s.data ≠ dangling c T)
    (ha : h.alignment = (header_space c T).align) (hroom : (header_space c T).size ≤ h.capacity)
    (m : M) (big : Prop) :
    Inited c T m (others h s) (others h s) [h.metadata] (· = s.data) big s (place c a T m s) := by
  obtain ⟨s',hr,hh',ho,hun,hlog,hdata⟩ := place_kept (a := a) hh hd ha hroom m
  rw [hr]
  split
  · exact .panics (d := h.metadata) (by simp) ‹_› (by decide)
  · exact .ok (begun_of_fresh ht hh' ho hroom) hun hlog hdata

theorem unwinding_ok {x cleanup : VecM M Λ β Unit} (hx : x s = .ok () s') :
    unwinding x cleanup s = .ok () s' := by
  simp only [unwinding, hx]

theorem unwinding_panic {x : VecM M Λ β Unit} {p : Panic} (hx : x s = .error (.panic p) s')
    (m : M) : unwinding x (drop_metadata c m) s =
      .error (if c.drop_panics m then .abort else .panic p)
        { s' with log := s'.log++[.drop_metadata m] } := by
  simp only [unwinding, hx, drop_metadata_run]
  by_cases hp : c.drop_panics m = true <;> simp [hp]

theorem unwinding_error {x : VecM M Λ β Unit} {e : Stop} (hx : x s = .error e s') (m : M) :
    ∃ e' s'', unwinding x (drop_metadata c m) s = .error e' s'' ∧ (e ≠ .ub → e' ≠ .ub) ∧
      (e = .abort → e' = .abort) := by
  cases e with
  | panic p =>
    refine ⟨_,_,unwinding_panic hx m,fun _ => ?_,fun h0 => nomatch h0⟩
    split <;> exact fun h0 => nomatch h0
  | abort => exact ⟨.abort,s',by simp only [unwinding, hx],by decide,by decide⟩
  | oversize => exact ⟨.oversize,s',by simp only [unwinding, hx],by decide,by decide⟩
  | ub => exact ⟨.ub,s',by simp only [unwinding, hx],by decide,by decide⟩

theorem init_placed (hx : make_room c a T s = .ok () s') (m : M) :
    init c a T m s = place c a T m s' := by rw [init, bind_ok (unwinding_ok hx)]

theorem init_unwinds {p : Panic} (hx : make_room c a T s = .error (.panic p) s') (m : M) :
    init c a T m s = .error (if c.drop_panics m then .abort else .panic p)
      { s' with log := s'.log++[.drop_metadata m] } := by
  rw [init, bind_error (unwinding_panic hx m)]

theorem init_stops {e : Stop} (hx : make_room c a T s = .error e s') (he : ∀ p, e ≠ .panic p)
    (m : M) : init c a T m s = .error e s' := by
  have hu : unwinding (make_room c a T) (drop_metadata c m) s = .error e s' := by
    cases e with
    | panic p => exact absurd rfl (he p)
    | abort => simp only [unwinding, hx]
    | oversize => simp only [unwinding, hx]
    | ub => simp only [unwinding, hx]
  rw [init, bind_error hu]

theorem make_room_dangling (hd : s.data = dangling c T) : make_room c a T s = .ok () s := by
  have hna : ¬ decide (s.data ≠ dangling c T) = true := by simpa using hd
  rw [make_room, bind_is_allocated, if_neg hna]
  beta_reduce
  rw [bind_is_allocated, if_neg hna, pure_run]

theorem init_dangling (ht : Element c T) (hd : s.data = dangling c T) (m : M) :
    Inited c T m s.heap.blocks s.heap.blocks [] a.Hands
      (¬ Legal c (MIN_NON_ZERO_CAP c T) (header_space c T).align) s
      (init c a T m s) := by
  rw [init_placed (make_room_dangling hd)]
  exact place_dangling ht hd m

theorem new_run (ht : Element c T) (m : M) :
    Inited c T m s.heap.blocks s.heap.blocks [] a.Hands
      (¬ Legal c (MIN_NON_ZERO_CAP c T) (header_space c T).align)
      { s with data := dangling c T } (new c a T m s) := by
  rw [new, bind_modify]
  exact init_dangling (s := { s with data := dangling c T }) ht rfl m

def Big (c : Target M β) (T : Layout) (h : Header M) : Prop :=
  ¬ Legal c (MIN_NON_ZERO_CAP c T) (header_space c T).align ∨
  h.capacity < MIN_NON_ZERO_CAP c T ∧
    ¬ Legal c (new_capacity c T h (MIN_NON_ZERO_CAP c T-h.capacity)) (header_space c T).align

theorem legal_twice {n align : ℕ} (ha : 0 < align) (hl : Legal c n align) : 2*n < 2^c.BITS := by
  have h1 := le_next_multiple_of n ha
  have h2 := hl.2
  have h3 := hl.1
  have h4 := Nat.two_pow_pos (c.BITS-1)
  simp only [isize_MAX] at h2
  cases hb : c.BITS with
  | zero =>
    rw [hb] at h2
    simp at h2
    omega
  | succ k =>
    rw [hb, Nat.add_sub_cancel] at h2 h4
    rw [Nat.pow_succ]
    omega

theorem make_room_kept (hh : Held c h s) (hd : s.data ≠ dangling c T)
    (ha : h.alignment = (header_space c T).align) : make_room c a T s =
    if h.capacity < MIN_NON_ZERO_CAP c T
    then reserve c a T (MIN_NON_ZERO_CAP c T-h.capacity) s else .ok () s := by
  have has : Asserts c T s := fun _ => hd
  have halloc : decide (s.data ≠ dangling c T) = true := by simpa using hd
  have hf : from_ref c T s = .ok h s := by rw [from_ref_run hh.toHeaded, if_pos has]
  have hcap : capacity_bytes c T s = .ok h.capacity s := by
    rw [capacity_bytes_run hh.toHeaded, if_pos has]
  have heq : ¬ h.alignment ≠ HEADER_ALIGNMENT c T := by
    rw [header_alignment_eq]
    exact not_not_intro ha
  rw [make_room, bind_is_allocated, if_pos halloc, bind_ok hf, if_neg heq]
  beta_reduce
  rw [bind_is_allocated, if_pos halloc, bind_ok hcap]
  split <;> rfl

theorem make_room_held (ht : Element c T) (hh : Held c h s) (hd : s.data ≠ dangling c T)
    (ha : h.alignment = (header_space c T).align)
    (hused : h.len*T.size+(header_space c T).size ≤ max h.capacity (MIN_NON_ZERO_CAP c T)) :
    (∃ cap s', make_room c a T s = .ok () s' ∧ Grown c h s cap s' ∧
      (header_space c T).size ≤ cap ∧ (s'.data = s.data ∨ a.Hands s'.data)) ∨
    ∃ e s', make_room c a T s = .error e s' ∧ e ≠ .ub ∧
      (e = .abort ∨ c.debug_assertions = true ∨ Big c T h) := by
  rw [make_room_kept hh hd ha]
  have hmin := min_le c T
  split
  swap
  · exact .inl ⟨_,s,rfl,.refl hh,by omega,.inl rfl⟩
  rename_i hlt
  have hr := reserve_run (a := a) (n := MIN_NON_ZERO_CAP c T-h.capacity) hh ha
    (hused.trans_lt (max_lt hh.fits.capacity ht.min))
  generalize hres : reserve c a T (MIN_NON_ZERO_CAP c T-h.capacity) s = r at hr
  cases hr with
  | ok hg hn hhands =>
    refine .inl ⟨_,_,rfl,hg,?_,hhands⟩
    rcases hn with h0 | hn
    · omega
    · rw [required_cap] at hn
      omega
  | assertion hdbg => exact .inr ⟨_,_,rfl,by decide,.inr (.inl hdbg)⟩
  | overflow ho =>
    refine .inr ⟨_,_,rfl,by decide,.inr (.inr (.inl (fun hl => ?_)))⟩
    have := legal_twice (header_space c T).align_pos hl
    rw [required_cap] at ho
    omega
  | refused => exact .inr ⟨_,_,rfl,by decide,.inl rfl⟩
  | oversize _ ho => exact .inr ⟨_,_,rfl,by decide,.inr (.inr (.inr ⟨hlt,ha ▸ ho⟩))⟩

theorem make_room_replaced (hh : Held c h s) (hd : s.data ≠ dangling c T)
    (ha : h.alignment ≠ (header_space c T).align) : make_room c a T s =
    if c.drop_panics h.metadata then .error (.panic .user) (released c T h s)
    else .ok () (released c T h s) := by
  have has : Asserts c T s := fun _ => hd
  have hf : from_ref c T s = .ok h s := by rw [from_ref_run hh.toHeaded, if_pos has]
  have hne : h.alignment ≠ HEADER_ALIGNMENT c T := by rwa [header_alignment_eq]
  have hna : ¬ decide ((released c T h s).data ≠ dangling c T) = true := by simp [released]
  rw [make_room, bind_is_allocated, if_pos (by simpa using hd), bind_ok hf, if_pos hne]
  have hr := deallocate_run hh hd
  split at hr
  · rw [bind_error hr, if_pos ‹_›]
  · rw [bind_ok hr, if_neg ‹_›]
    beta_reduce
    rw [bind_is_allocated, if_neg hna, pure_run]

/-- The allocator answers with no address that a dangling pointer has. -/
def Unmarked (c : Target M β) (a : Allocator β) : Prop :=
  ∀ ptr, a.Hands ptr → ∀ T, ptr ≠ dangling c T

variable {kept before : List Block} {dropped : List M} {spot spot' : ℕ → Prop} {big big' : Prop}
  {r : EStateM.Result Stop (State M Λ β) Unit}

theorem Inited.after {kept' : List Block} {s₁ : State M Λ β}
    (hi : Inited c T m kept' before dropped spot' big' s₁ r) (ds : List M)
    (hk : Untouched kept s.heap s₁.heap)
    (hsub : ∀ b ∈ kept, b ∈ kept') (hlog : s₁.log = s.log++ds.map .drop_metadata)
    (hspot : ∀ ptr, spot' ptr → spot ptr) (hbig : big' → big) :
    Inited c T m kept before (ds++dropped) spot big s r := by
  cases hi with
  | ok hb hun hl hs =>
    exact .ok hb (hk.trans (hun.mono hsub)) (by rw [hl, hlog]; simp) (hspot _ hs)
  | panics hd hp he => exact .panics (List.mem_append_right ds hd) hp he
  | assertion hd he => exact .assertion hd he
  | refused => exact .refused _
  | oversize hb he => exact .oversize (hbig hb) he

theorem init_replaced (ht : Element c T) (hl : Live c U h vs s) (hd : s.data ≠ dangling c T)
    (ha : h.alignment ≠ (header_space c T).align) (m : M) :
    Inited c T m (others h s) (others h s) [h.metadata] (fun ptr => ptr = s.data ∨ a.Hands ptr)
      (Big c T h) s (init c a T m s) := by
  have hrun : make_room c a T s = if c.drop_panics h.metadata then
      .error (.panic .user) (released c T h s) else .ok () (released c T h s) :=
    make_room_replaced hl.held hd ha
  have hdang : (released c T h s).data = dangling c T := rfl
  by_cases hp : c.drop_panics h.metadata = true
  · rw [if_pos hp] at hrun
    obtain ⟨e',s₂,hu,hub,-⟩ := unwinding_error hrun m
    rw [init, bind_error hu]
    exact .panics (List.mem_singleton_self _) hp (hub (by decide))
  · rw [if_neg hp] at hrun
    rw [init_placed hrun]
    exact (place_dangling (a := a) ht hdang m).after [h.metadata] (fun _ _ _ _ => rfl)
      (fun b hb => hb) rfl (fun ptr hp => .inr hp) (fun hb => .inl hb)

/-- `init` on a live vec. Its metadata is dropped and its block kept, replaced, or, when one
that the allocator hands out is taken for none, left behind. -/
theorem init_live (ht : Element c T) (hl : Live c U h vs s) (hlegal : vs = [] ∨ T = U)
    (hd : s.data ≠ dangling c T) (m : M) :
    ∃ before dropped, Inited c T m (others h s) before dropped
        (fun ptr => ptr = s.data ∨ a.Hands ptr) (Big c T h) s (init c a T m s) ∧
      (∀ d ∈ dropped, d = h.metadata) ∧
      (Unmarked c a → before = others h s ∧ dropped = [h.metadata]) := by
  by_cases ha : h.alignment = (header_space c T).align
  · have hused : h.len*T.size+(header_space c T).size ≤
        max h.capacity (MIN_NON_ZERO_CAP c T) := by
      rcases hlegal with rfl | rfl
      · rw [hl.len, List.length_nil, Nat.zero_mul, Nat.zero_add]
        exact (min_le c T).trans (le_max_right _ _)
      · rw [hl.len, Nat.add_comm]
        exact hl.room.trans (le_max_left _ _)
    rcases make_room_held (a := a) ht hl.held hd ha hused with
      ⟨cap,s₁,hr,hg,hroom,hdata⟩ | ⟨e,s₁,hr,hne,he⟩
    · rw [init_placed hr]
      by_cases hd₁ : s₁.data = dangling c T
      · refine ⟨_,_,(place_dangling (a := a) ht hd₁ m).after [] hg.untouched ?_ ?_ ?_ ?_,
          ?_,?_⟩
        · exact fun b hb => List.mem_of_mem_erase (hg.others.symm ▸ hb)
        · simp [hg.log]
        · exact fun ptr hp => .inr hp
        · exact fun hb => .inl hb
        · exact fun d hd => absurd hd (by simp)
        · intro hu
          rcases hdata with h0 | h0
          · exact absurd (h0.symm.trans hd₁) hd
          · exact absurd hd₁ (hu _ h0 T)
      · have hi := place_held (a := a) ht hg.held hd₁ ha hroom m (Big c T h)
        rw [hg.others] at hi
        refine ⟨_,_,hi.after [] hg.untouched (fun b hb => hb) ?_ ?_ id,?_,
          fun _ => ⟨rfl,rfl⟩⟩
        · simp [hg.log]
        · rintro ptr rfl
          exact hdata
        · simp
    · obtain ⟨e',s₂,hu,hub,hab⟩ := unwinding_error hr m
      refine ⟨others h s,[h.metadata],?_,by simp,fun _ => ⟨rfl,rfl⟩⟩
      rw [init, bind_error hu]
      rcases he with rfl | hdbg | hb
      · exact hab rfl ▸ .refused s₂
      · exact .assertion hdbg (hub hne)
      · exact .oversize hb (hub hne)
  · exact ⟨_,_,init_replaced ht hl hd ha m,by simp,fun _ => ⟨rfl,rfl⟩⟩

theorem drop_releases (hh : Held c h s) (hd : s.data ≠ dangling c U)
    (hempty : c.debug_assertions = true → h.len = 0) : drop c U s =
    if c.drop_panics h.metadata then .error (.panic .user) (released c U h s)
    else .ok () (released c U h s) := by
  rw [drop]
  split
  · rename_i hdbg
    have has : Asserts c U s := fun _ => hd
    have hlen : len c U s = .ok 0 s := by rw [len_run hh.toHeaded, if_pos has, hempty hdbg]
    have hassert : debug_assert c (decide ((0 : ℕ) = 0)) s = .ok () s := by
      rw [debug_assert, if_neg (by simp), pure_run]
    rw [bind_is_allocated, if_pos (by simpa using hd), bind_ok hlen, bind_ok hassert]
    exact deallocate_run hh hd
  · exact deallocate_run hh hd

theorem drop_asserts (hh : Held c h s) (hd : s.data ≠ dangling c U)
    (hdbg : c.debug_assertions = true) (h0 : h.len ≠ 0) :
    drop c U s = .error (.panic .assertion) s := by
  have has : Asserts c U s := fun _ => hd
  have hlen : len c U s = .ok h.len s := by rw [len_run hh.toHeaded, if_pos has]
  have hassert : debug_assert c (decide (h.len = 0)) s = .error (.panic .assertion) s := by
    rw [debug_assert, if_pos ⟨hdbg,by simpa using h0⟩, throw_run]
  rw [drop, if_pos hdbg, bind_is_allocated, if_pos (by simpa using hd), bind_ok hlen,
    bind_error hassert]

theorem drop_run (hl : Live c T h vs s) (hd : s.data ≠ dangling c U)
    (hempty : c.debug_assertions = true → vs = []) : drop c U s =
    if c.drop_panics h.metadata then .error (.panic .user) (released c U h s)
    else .ok () (released c U h s) :=
  drop_releases hl.held hd (fun hdbg => by rw [hl.len, hempty hdbg, List.length_nil])

theorem drop_refuses (hl : Live c T h vs s) (hd : s.data ≠ dangling c U)
    (hdbg : c.debug_assertions = true) (hne : vs ≠ []) :
    drop c U s = .error (.panic .assertion) s :=
  drop_asserts hl.held hd hdbg (by rwa [hl.len, ne_eq, List.length_eq_zero_iff])

theorem drop_dangling (hd : s.data = dangling c U) : drop c U s = .ok () s := by
  rw [drop]
  split
  · rw [bind_is_allocated, if_neg (by simpa using hd)]
    exact deallocate_dangling hd
  · exact deallocate_dangling hd

end Lockness.VecLife
