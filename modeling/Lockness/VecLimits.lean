import Lockness.VecCalls

/-!
# The sizes that `reserve` asks for

No layout may be larger than `isize::MAX` bytes after rounding, but `reserve`
only looks out for `usize::MAX`. An element type of a quarter of what is allowed
is never large enough for that test to fail. So a block that is doubled beyond
the limit is asked for, even where a smaller one would do, and one that is
needed beyond it as well.
-/

set_option autoImplicit false

namespace Lockness.VecLimits
open Lockness.VecLayout Lockness.VecHeap Lockness.VecMachine Lockness.VecHeader Lockness.VecGrowth
open Lockness.VecElements Lockness.VecLife Lockness.VecRoom Lockness.VecStack Lockness.VecCalls

variable {M Λ β : Type}

def needed (c : Target M β) (T : Layout) (h : Header M) : ℕ :=
  (header_space c T).size+(h.len+1)*T.size

/-- `push` asks for no size that a layout cannot have; where it would need one, its `expect` (or
the assertion before) panics before asking. -/
structure Bounded (c : Target M β) (a : Allocator β) (T : Layout) (h : Header M) (x : List β)
    (s : State M Λ β) : Prop where
  legal : ∀ s', push c a T x s ≠ .error .oversize s'
  panics : T.size ≠ 0 → h.capacity < needed c T h → ¬ Legal c (needed c T h) h.alignment →
    push c a T x s = .error (.panic (if Asserts c T s then .allocation else .assertion)) s

/-- There is room, or twice the capacity and the bytes needed are both within the limit. -/
def Possible (c : Target M β) (T : Layout) (h : Header M) (s : State M Λ β) : Prop :=
  T.size = 0 ∨ ¬ Asserts c T s ∨ needed c T h ≤ h.capacity ∨
  next_multiple_of (2*h.capacity) h.alignment ≤ isize_MAX c ∧
    next_multiple_of (needed c T h) h.alignment ≤ isize_MAX c

def Quarter (c : Target M β) (T : Layout) : Prop :=
  T.size+(header_space c T).size ≤ isize_MAX c/4

instance (c : Target M β) (T : Layout) : Decidable (Quarter c T) :=
  inferInstanceAs (Decidable (_ ≤ _))

variable {c : Target M β} {P : Allocator β → Prop} {a : Allocator β} {T U : Layout}
  {h : Header M} {s s' : State M Λ β} {m : M} {x : List β}

theorem required_eq_needed (c : Target M β) (T : Layout) (h : Header M) :
    required_cap c T h T.size = needed c T h := by
  rw [required_cap, needed, Nat.succ_mul]
  omega

section Bounds

theorem space_pos (c : Target M β) (T : Layout) : 0 < (header_space c T).size :=
  c.header_pos.trans_le (c.header.union_size_left T)

theorem space_align_le (c : Target M β) (T : Layout) :
    (header_space c T).align ≤ (header_space c T).size :=
  Nat.le_of_dvd (space_pos c T) (header_space c T).size_dvd

theorem min_bound (hq : Quarter c T) : MIN_NON_ZERO_CAP c T ≤ isize_MAX c/4+3072 := by
  rw [Quarter] at hq
  rw [MIN_NON_ZERO_CAP]
  split_ifs <;> omega

variable (hw : c.BITS = 32 ∨ c.BITS = 64)

include hw

theorem usize_bound : 2*isize_MAX c+2 = 2^c.BITS := by
  rw [isize_MAX]
  rcases hw with hw | hw <;> rw [hw] <;> decide

theorem isize_large : 2^31-1 ≤ isize_MAX c := by
  rw [isize_MAX]
  rcases hw with hw | hw <;> rw [hw]
  decide

theorem legal_bound (hq : Quarter c T) {n : ℕ} (h0 : 0 < n) (hn : n ≤ 2*MIN_NON_ZERO_CAP c T) :
    Legal c n (header_space c T).align := by
  have h1 := next_multiple_of_lt n (header_space c T).align_pos
  have h2 := space_align_le c T
  have h3 := min_bound hq
  have h4 := isize_large hw
  rw [Quarter] at hq
  exact ⟨h0,by omega⟩

theorem min_compiles (hq : Quarter c T) : Compiles c T := by
  have h1 := min_bound hq
  have h2 := isize_large hw
  have h3 := usize_bound hw
  rw [Compiles]
  omega

end Bounds

section Push

theorem legal_max {n k align : ℕ} (h0 : 0 < k) : Legal c (max n k) align ↔
    next_multiple_of n align ≤ isize_MAX c ∧ next_multiple_of k align ≤ isize_MAX c := by
  have hpos : 0 < max n k := h0.trans_le (le_max_right n k)
  constructor
  · rintro ⟨-,hl⟩
    exact ⟨(next_multiple_of_mono align (le_max_left n k)).trans hl,
      (next_multiple_of_mono align (le_max_right n k)).trans hl⟩
  · rintro ⟨h1,h2⟩
    refine ⟨hpos,?_⟩
    rcases max_choice n k with h | h <;> rw [h] <;> assumption

theorem doubled (hr : Roomy c T h s) : saturating_mul c h.capacity 2 = 2*h.capacity := by
  have h1 := legal_twice (hr.alignment ▸ (header_space c T).align_pos) hr.held.legal
  rw [saturating_mul, usize_MAX, Nat.mul_comm]
  exact min_eq_left (by omega)

theorem legal_new_capacity (hr : Roomy c T h s) :
    Legal c (new_capacity c T h T.size) h.alignment ↔
      next_multiple_of (2*h.capacity) h.alignment ≤ isize_MAX c ∧
        next_multiple_of (needed c T h) h.alignment ≤ isize_MAX c := by
  have h0 : 0 < needed c T h := (space_pos c T).trans_le (Nat.le_add_right _ _)
  rw [new_capacity, doubled hr, required_eq_needed]
  exact legal_max h0

theorem needed_lt (hw : c.BITS = 32 ∨ c.BITS = 64) (hq : Quarter c T) (hr : Roomy c T h s) :
    needed c T h < 2^c.BITS := by
  have h1 := usize_bound hw
  have h2 := hr.room
  have h3 := hr.held.legal.2
  have h4 := le_next_multiple_of h.capacity (hr.alignment ▸ (header_space c T).align_pos)
  rw [Quarter] at hq
  rw [needed, Nat.succ_mul]
  omega

theorem push_stops {e : Stop} {s₁ : State M Λ β}
    (hx : reserve c a T T.size s = .error e s₁) : push c a T x s = .error e s₁ := by
  rw [push, bind_error hx]

theorem push_not_oversize (hr : Roomy c T h s) (hx : x.length = T.size)
    (hres : ∀ s₁, reserve c a T T.size s ≠ .error .oversize s₁) :
    push c a T x s ≠ .error .oversize s' := by
  have hs := reserve_safely (a := a) (n := T.size) hr.held hr.alignment hr.used_lt
  generalize hrun : reserve c a T T.size s = r at hs
  cases r with
  | error e s₁ =>
    rw [push_stops hrun]
    rintro ⟨⟩
    exact hres _ hrun
  | ok _ s₁ =>
    obtain ⟨cap,hg,hn⟩ := hs
    by_cases has : Asserts c T s₁
    · rcases push_counted hr hrun hg has hn hx with ⟨s₂,hp,-⟩ | ⟨-,s₂,hp,-⟩
      · simp [hp]
      · simp [hp]
    · rw [push, bind_ok hrun, bind_get, bind_error (by rw [len_run hg.held.toHeaded, if_neg has])]
      simp

theorem bounded_iff (hw : c.BITS = 32 ∨ c.BITS = 64) (hq : Quarter c T) (hr : Roomy c T h s)
    (hx : x.length = T.size) : Bounded c a T h x s ↔ Possible c T h s := by
  have hlegal := legal_new_capacity hr
  have hfits := required_eq_needed c T h
  have hlt := needed_lt hw hq hr
  by_cases h0 : T.size = 0
  · refine iff_of_true ⟨fun s' => push_not_oversize hr hx (fun s₁ => ?_),fun hne => absurd h0 hne⟩
      (.inl h0)
    rw [reserve, if_pos h0]
    simp
  by_cases has : Asserts c T s
  swap
  · have hrun := reserve_assertion (a := a) hr.held h0 has
    have hp := push_stops (x := x) hrun
    exact iff_of_true ⟨fun s' => by simp [hp],fun _ _ _ => by rw [hp, if_neg has]⟩ (.inr (.inl has))
  by_cases hle : needed c T h ≤ h.capacity
  · refine iff_of_true ⟨fun s' => push_not_oversize hr hx (fun s₁ => ?_),
      fun _ hgt => absurd hle (Nat.not_le.mpr hgt)⟩ (.inr (.inr (.inl hle)))
    rw [reserve_fits hr.held hr.used_lt h0 has (hfits ▸ hle)]
    simp
  have hgt := Nat.not_le.mp hle
  by_cases hl : Legal c (new_capacity c T h T.size) h.alignment
  · have hboth := hlegal.mp hl
    refine iff_of_true ⟨fun s' => push_not_oversize hr hx (fun s₁ => ?_),fun _ _ hno => ?_⟩
      (.inr (.inr (.inr hboth)))
    · rcases reserve_grows (a := a) hr.held hr.used_lt hr.alignment h0 has (hfits ▸ hlt)
        (hfits ▸ hgt) hl with ⟨-,hg⟩ | ⟨s₂,hg,-⟩ | ⟨_,_,hg,-⟩ <;> simp [hg]
    · exact absurd ⟨(Nat.zero_le _).trans_lt hgt,hboth.2⟩ hno
  · have hrun := reserve_oversize (a := a) hr.held hr.used_lt hr.alignment h0 has (hfits ▸ hlt)
      (hfits ▸ hgt) hl
    refine iff_of_false (fun hb => hb.legal s (push_stops hrun)) ?_
    rintro (h | h | h | h)
    · exact h0 h
    · exact h has
    · exact hle h
    · exact hl (hlegal.mpr h)

end Push

section Init

theorem place_legal (hl : Legal c (MIN_NON_ZERO_CAP c T) (header_space c T).align)
    (hd : s.data = dangling c T) : place c a T m s ≠ .error .oversize s' := by
  rcases place_fresh (a := a) hd m with ⟨hn,-⟩ | hr | ⟨s₁,hr,-⟩
  · exact absurd hl hn
  · rw [hr]
    nofun
  · rw [hr]
    nofun

theorem regrowth_legal (hw : c.BITS = 32 ∨ c.BITS = 64) (hq : Quarter c T) (hr : Roomy c U h s)
    (hlegal : T = U ∨ h.len = 0) (ha : h.alignment = (header_space c T).align)
    (hlt : h.capacity < MIN_NON_ZERO_CAP c T) :
    Legal c (new_capacity c T h (MIN_NON_ZERO_CAP c T-h.capacity)) h.alignment := by
  have hmin := min_le c T
  have hcap : 0 < h.capacity := hr.held.legal.1
  have hlen : h.len*T.size+(header_space c T).size ≤ h.capacity+(header_space c T).size := by
    rcases hlegal with rfl | h0
    · have := hr.room
      omega
    · rw [h0, Nat.zero_mul]
      omega
  rw [ha]
  apply legal_bound hw hq
  · rw [new_capacity, required_cap]
    omega
  · rw [new_capacity, saturating_mul, required_cap]
    omega

theorem init_legal (hw : c.BITS = 32 ∨ c.BITS = 64) (hq : Quarter c T) (hr : Roomy c U h s)
    (hlegal : T = U ∨ h.len = 0) : init c a T m s ≠ .error .oversize s' := by
  have hmin := min_le c T
  have hspace := space_pos c T
  have hl : Legal c (MIN_NON_ZERO_CAP c T) (header_space c T).align :=
    legal_bound hw hq (by omega) (by omega)
  have ht := min_compiles hw hq
  refine init_never (by decide) (fun _ h => nomatch h) ht hr hlegal (fun _ => place_legal hl)
    (fun ha hlt s₁ hx => ?_)
  have hs := reserve_run (a := a) (n := MIN_NON_ZERO_CAP c T-h.capacity) hr.held ha
    (init_used ht hr hlegal)
  rw [hx] at hs
  cases hs with
  | oversize _ hno => exact hno (regrowth_legal hw hq hr hlegal ha hlt)

/-- On every vec that is reached, `init` asks for no impossible size, and `push` for none if
and only if there is no need to grow or both the doubled and the needed size are possible. -/
theorem sizes_within_limit (hs : Reached c P U s) (hh : header_of c s = some h)
    (hw : c.BITS = 32 ∨ c.BITS = 64) :
    (∀ a x, Quarter c U → x.length = U.size → (Bounded c a U h x s ↔ Possible c U h s)) ∧
    ∀ a T m s', Quarter c T → T = U ∨ h.len = 0 → init c a T m s ≠ .error .oversize s' := by
  obtain ⟨h',hr⟩ := roomy_of_reached hs
  rw [header_of_held hr.held, Option.some.injEq] at hh
  subst hh
  exact ⟨fun _ _ hq hx => bounded_iff hw hq hr hx,
    fun _ _ _ _ hq hlegal => init_legal hw hq hr hlegal⟩

end Init

section Sample

def narrow : Target Unit (Header Unit ⊕ ℕ) :=
  { sample Unit false with BITS := 32, decode_encode := fun _ _ => rfl }

def giant : Layout := ⟨2^28-1,1,Layout.unit.align_pow,Nat.one_dvd _⟩

def low : Allocator (Header Unit ⊕ ℕ) := bump _ (2^20) (fun _ => .inr 0)

def heavy : List.Vector (Header Unit ⊕ ℕ) giant.size := .replicate _ (.inr 0)

variable {v : State Unit Unit (Header Unit ⊕ ℕ)} {k : Header Unit}

theorem heavy_fits (hr : Roomy narrow giant k v) (hle : needed narrow giant k ≤ k.capacity)
    (hlen : k.len+1 < 2^narrow.BITS) : ∃ v', push narrow low giant heavy.toList v = .ok () v' ∧
      Roomy narrow giant { k with len := k.len+1 } v' := by
  obtain ⟨v',hp,-,hr'⟩ := push_fits (a := low) hr (fun h => nomatch h) heavy.toList_length hle hlen
  exact ⟨v',hp,hr'⟩

theorem heavy_grows (hr : Roomy narrow giant k v) (hlt : k.capacity < needed narrow giant k)
    (hl : Legal narrow (max (2*k.capacity) (needed narrow giant k)) k.alignment)
    (hlen : k.len+1 < 2^narrow.BITS) :
    ∃ v', push narrow low giant heavy.toList v = .ok () v' ∧ Roomy narrow giant
      { k with len := k.len+1, capacity := max (2*k.capacity) (needed narrow giant k) } v' := by
  have hreq := required_eq_needed narrow giant k
  have hpos : 0 < k.alignment := hr.alignment ▸ (header_space narrow giant).align_pos
  have hnew : new_capacity narrow giant k giant.size =
      max (2*k.capacity) (needed narrow giant k) := by rw [new_capacity, doubled hr, hreq]
  have hfits : needed narrow giant k < 2^narrow.BITS :=
    (le_max_right _ _).trans_lt (legal_lt hpos hl)
  have hp := push_grows (a := low) hr rfl (by decide) (hreq ▸ hfits) (hreq ▸ hlt) (hnew ▸ hl)
    (bump_realloc_ne (by decide) _ hpos _) hlen heavy.toList_length
  rwa [hnew] at hp

/-- The header after `n` pushes, in a block of `cap` bytes. -/
def pile (n cap : ℕ) : Header Unit := ⟨(),2^28-1,8,n,cap⟩

theorem pile_one : ∃ v : State Unit Unit (Header Unit ⊕ ℕ),
    Reached narrow (fun _ => True) giant v ∧ Roomy narrow giant (pile 1 (2^29-1)) v := by
  obtain ⟨v₀,hs₀,hh⟩ : ∃ v : State Unit Unit (Header Unit ⊕ ℕ),
      Reached narrow (fun _ => True) giant v ∧ header_of narrow v = some (pile 0 (2^29-1)) :=
    ⟨_,.new (s := ⟨blank Unit,0,[]⟩) (a := low) (m := ()) trivial (by decide) rfl,rfl⟩
  obtain ⟨k,hr₀⟩ := roomy_of_reached hs₀
  rw [header_of_held hr₀.held, Option.some.injEq] at hh
  subst hh
  obtain ⟨v₁,hp₁,hr₁⟩ := heavy_fits hr₀ (by decide) (by decide)
  exact ⟨v₁,.push heavy hs₀ trivial hp₁,hr₁⟩

theorem pile_reached : ∃ v : State Unit Unit (Header Unit ⊕ ℕ),
    Reached narrow (fun _ => True) giant v ∧ Roomy narrow giant (pile 3 (2^30-2)) v := by
  obtain ⟨v₁,hs₁,hr₁⟩ := pile_one
  obtain ⟨v₂,hp₂,hr₂⟩ := heavy_grows hr₁ (by decide) (by decide) (by decide)
  obtain ⟨v₃,hp₃,hr₃⟩ := heavy_fits hr₂ (by decide) (by decide)
  exact ⟨v₃,.push heavy (.push heavy hs₁ trivial hp₂) trivial hp₃,hr₃⟩

/-- The fourth push doubles a block of `2^30-2` bytes, though `5*2^28-4` bytes would do. -/
theorem push_doubles_beyond : ∃ (v : State Unit Unit (Header Unit ⊕ ℕ)) (k : Header Unit),
    Reached narrow (fun _ => True) giant v ∧ header_of narrow v = some k ∧ Quarter narrow giant ∧
    Legal narrow (needed narrow giant k) k.alignment ∧
    push narrow low giant heavy.toList v = .error .oversize v := by
  obtain ⟨v,hs,hr⟩ := pile_reached
  refine ⟨v,_,hs,header_of_held hr.held,by decide,by decide,push_stops ?_⟩
  exact reserve_oversize hr.held hr.used_lt hr.alignment (by decide) (fun h => nomatch h)
    (by decide) (by decide) (by decide)

/-- The second push asks for a block of twice the size. -/
theorem sizes_within_limit_first : ∃ (v v' : State Unit Unit (Header Unit ⊕ ℕ)) (k : Header Unit),
    Reached narrow (fun _ => True) giant v ∧ header_of narrow v = some k ∧
    k.capacity < needed narrow giant k ∧ Bounded narrow low giant k heavy.toList v ∧
    push narrow low giant heavy.toList v = .ok () v' ∧
    header_of narrow v' = some (pile 2 (2^30-2)) := by
  obtain ⟨v,hs,hr⟩ := pile_one
  have hh := header_of_held hr.held
  have hpossible : Possible narrow giant (pile 1 (2^29-1)) v := .inr (.inr (.inr (by decide)))
  obtain ⟨v',hp,hr'⟩ := heavy_grows hr (by decide) (by decide) (by decide)
  exact ⟨v,v',_,hs,hh,by decide,
    ((sizes_within_limit hs hh (.inl rfl)).1 low heavy.toList (by decide)
    heavy.toList_length).mpr hpossible,hp,header_of_held hr'.held⟩

end Sample

end Lockness.VecLimits
