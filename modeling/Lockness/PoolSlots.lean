import Mathlib.Algebra.BigOperators.Group.Finset.Basic
import Mathlib.Algebra.BigOperators.Group.Finset.Piecewise
import Mathlib.Algebra.Module.Defs
import Mathlib.Algebra.Module.NatInt
import Mathlib.Algebra.Order.BigOperators.Group.Finset
import Mathlib.Algebra.Order.Group.Multiset
import Mathlib.Tactic.Abel
import Lockness.PoolFutex

/-!
# Slots handed from writers to readers

Parties share finitely many cells. A writer takes free slots, fills them one
by one and makes them ready; a reader claims every ready slot, empties the
claimed ones one by one and frees them. Only the two sets `taken` and `ready`
are shared; who owns a slot is known to its owner alone. When the board is
closed, `taken` may grow past the owned slots and no slot is freed. The ledger
records which values have passed each stage.
-/

set_option autoImplicit false

namespace Lockness.PoolSlots
open Lockness.PoolFutex

def cell {V : Type*} (v : Option V) : Multiset V := v.elim 0 (fun v => {v})

def cells {ι V : Type*} (bag : ι → Option V) (s : Finset ι) : Multiset V :=
  s.sum (fun i => cell (bag i))

/-- What one party owns: slots being written, slots being read, values read. -/
structure Footprint (ι V : Type*) where
  reserved : Finset ι
  unwritten : Finset ι
  claimed : Finset ι
  unread : Finset ι
  held : Multiset V

structure Board (ι V : Type*) where
  taken : Finset ι
  ready : Finset ι
  bag : ι → Option V
  closed : Bool

structure Ledger (V : Type*) where
  put : Multiset V
  committed : Multiset V
  claimed : Multiset V
  returned : Multiset V

structure State (ι V : Type*) where
  board : Board ι V
  pool : Multiset (Footprint ι V)
  ledger : Ledger V

variable {ι V : Type*} [DecidableEq ι]

def Footprint.idle : Footprint ι V := ⟨∅,∅,∅,∅,0⟩

def Footprint.owned (f : Footprint ι V) : Finset ι := f.reserved ∪ f.claimed

/-- What the owner of `f` may do, with the ledger's entry. -/
inductive Move (b : Board ι V) (l : Ledger V) :
    Footprint ι V → Board ι V → Footprint ι V → Ledger V → Prop
  | rest (f : Footprint ι V) : Move b l f b f l
  | overshoot (f : Footprint ι V) {t : Finset ι} : b.closed = true → b.taken ⊆ t →
      Move b l f { b with taken := t } f l
  | close (f : Footprint ι V) : Move b l f { b with closed := true } f l
  | reserve {s : Finset ι} : b.closed = false → Disjoint s b.taken →
      Move b l .idle { b with taken := b.taken ∪ s } ⟨s,s,∅,∅,0⟩ l
  | write {f : Footprint ι V} {i : ι} (v : V) : i ∈ f.unwritten →
      Move b l f { b with bag := Function.update b.bag i (some v) }
        { f with unwritten := f.unwritten.erase i } { l with put := {v}+l.put }
  | commit {f : Footprint ι V} : f.unwritten = ∅ →
      Move b l f { b with ready := b.ready ∪ f.reserved } { f with reserved := ∅ }
        { l with committed := cells b.bag f.reserved+l.committed }
  | claim : Move b l .idle { b with ready := ∅ } ⟨∅,∅,b.ready,b.ready,0⟩
      { l with claimed := cells b.bag b.ready+l.claimed }
  | read {f : Footprint ι V} {i : ι} {v : V} : i ∈ f.unread → b.bag i = some v →
      Move b l f { b with bag := Function.update b.bag i none }
        { f with unread := f.unread.erase i, held := {v}+f.held } l
  | release {f : Footprint ι V} : f.unread = ∅ → b.closed = false →
      Move b l f { b with taken := b.taken \ f.claimed } { f with claimed := ∅ } l

inductive Step : State ι V → State ι V → Prop
  | move {b b' : Board ι V} {f f' : Footprint ι V} {l l' : Ledger V}
      {pool : Multiset (Footprint ι V)} : Move b l f b' f' l' →
      Step ⟨b,f ::ₘ pool,l⟩ ⟨b',f' ::ₘ pool,l'⟩
  | still (s : State ι V) : Step s s
  | enter (b : Board ι V) (pool : Multiset (Footprint ι V)) (l : Ledger V) :
      Step ⟨b,pool,l⟩ ⟨b,.idle ::ₘ pool,l⟩
  | leave (b : Board ι V) (vs : Multiset V) (pool : Multiset (Footprint ι V)) (l : Ledger V) :
      Step ⟨b,⟨∅,∅,∅,∅,vs⟩ ::ₘ pool,l⟩ ⟨b,pool,{ l with returned := vs+l.returned }⟩

def mark (s : Finset ι) (i : ι) : ℕ := if i ∈ s then 1 else 0

def reservers (pool : Multiset (Footprint ι V)) (i : ι) : ℕ :=
  weigh (fun f => mark f.reserved i) pool

def claimers (pool : Multiset (Footprint ι V)) (i : ι) : ℕ := weigh (fun f => mark f.claimed i) pool

def writers (pool : Multiset (Footprint ι V)) (i : ι) : ℕ :=
  weigh (fun f => mark (f.reserved \ f.unwritten) i) pool

def readers (pool : Multiset (Footprint ι V)) (i : ι) : ℕ := weigh (fun f => mark f.unread i) pool

def owners (s : State ι V) (i : ι) : ℕ :=
  mark s.board.ready i+reservers s.pool i+claimers s.pool i

structure Inv [Fintype ι] (s : State ι V) : Prop where
  owned : ∀ i, owners s i ≤ mark s.board.taken i
  open_owned : s.board.closed = false → ∀ i, owners s i = mark s.board.taken i
  nested : ∀ f ∈ s.pool, f.unwritten ⊆ f.reserved ∧ f.unread ⊆ f.claimed
  filled : ∀ i, (cell (s.board.bag i)).card =
    mark s.board.ready i+writers s.pool i+readers s.pool i
  conserved : s.ledger.put =
    cells s.board.bag Finset.univ+weigh (fun f => f.held) s.pool+s.ledger.returned
  handed : s.ledger.committed = s.ledger.claimed+cells s.board.bag s.board.ready

section Counting

@[simp] theorem cell_none : cell (none : Option V) = 0 := rfl

@[simp] theorem cell_some (v : V) : cell (some v) = {v} := rfl

theorem isSome_of_card_cell {v : Option V} (h : 0 < (cell v).card) : v.isSome := by
  cases v with
  | none => simp at h
  | some v => rfl

theorem mark_le_one (s : Finset ι) (i : ι) : mark s i ≤ 1 := by
  unfold mark
  split <;> omega

@[simp] theorem mark_empty (i : ι) : mark ∅ i = 0 := by simp [mark]

theorem mark_of_mem {s : Finset ι} {i : ι} (h : i ∈ s) : mark s i = 1 := by simp [mark,h]

theorem mark_of_notMem {s : Finset ι} {i : ι} (h : i ∉ s) : mark s i = 0 := by simp [mark,h]

theorem mark_pos {s : Finset ι} {i : ι} (h : 0 < mark s i) : i ∈ s := by
  by_contra hn
  rw [mark_of_notMem hn] at h
  omega

theorem mark_mono {s t : Finset ι} (h : s ⊆ t) (i : ι) : mark s i ≤ mark t i := by
  by_cases hi : i ∈ s
  · rw [mark_of_mem hi, mark_of_mem (h hi)]
  · rw [mark_of_notMem hi]
    omega

@[simp] theorem reservers_cons (f : Footprint ι V) (pool : Multiset (Footprint ι V)) (i : ι) :
    reservers (f ::ₘ pool) i = mark f.reserved i+reservers pool i := weigh_cons _ _ _

@[simp] theorem claimers_cons (f : Footprint ι V) (pool : Multiset (Footprint ι V)) (i : ι) :
    claimers (f ::ₘ pool) i = mark f.claimed i+claimers pool i := weigh_cons _ _ _

@[simp] theorem writers_cons (f : Footprint ι V) (pool : Multiset (Footprint ι V)) (i : ι) :
    writers (f ::ₘ pool) i = mark (f.reserved \ f.unwritten) i+writers pool i := weigh_cons _ _ _

@[simp] theorem readers_cons (f : Footprint ι V) (pool : Multiset (Footprint ι V)) (i : ι) :
    readers (f ::ₘ pool) i = mark f.unread i+readers pool i := weigh_cons _ _ _

omit [DecidableEq ι] in
@[simp] theorem cells_empty (bag : ι → Option V) : cells bag ∅ = 0 := Finset.sum_empty

theorem cells_union {bag : ι → Option V} {s t : Finset ι} (h : Disjoint s t) :
    cells bag (s ∪ t) = cells bag s+cells bag t := Finset.sum_union h

theorem cells_update_notMem {bag : ι → Option V} {s : Finset ι} {i : ι} (v : Option V)
    (h : i ∉ s) : cells (Function.update bag i v) s = cells bag s := by
  apply Finset.sum_congr rfl
  intro j hj
  rw [Function.update_of_ne (by rintro rfl; exact h hj)]

theorem cells_update_mem {bag : ι → Option V} {s : Finset ι} {i : ι} (v : Option V)
    (h : i ∈ s) : cells (Function.update bag i v) s+cell (bag i) = cells bag s+cell v := by
  have hs : insert i (s.erase i) = s := Finset.insert_erase h
  have hn : i ∉ s.erase i := by simp
  rw [← hs]
  unfold cells
  rw [Finset.sum_insert hn, Finset.sum_insert hn, Function.update_self]
  have : cells (Function.update bag i v) (s.erase i) = cells bag (s.erase i) :=
    cells_update_notMem v hn
  unfold cells at this
  rw [this]
  abel

omit [DecidableEq ι] in
theorem card_cells {bag : ι → Option V} {s : Finset ι} (h : ∀ i ∈ s, (bag i).isSome) :
    (cells bag s).card = s.card := by
  rw [cells, Multiset.card_sum, Finset.card_eq_sum_ones]
  refine Finset.sum_congr rfl fun i hi => ?_
  obtain ⟨v,hv⟩ := Option.isSome_iff_exists.mp (h i hi)
  rw [hv, cell_some, Multiset.card_singleton]

omit [DecidableEq ι] in
theorem card_cells_le (bag : ι → Option V) (s : Finset ι) : (cells bag s).card ≤ s.card := by
  rw [cells, Multiset.card_sum, Finset.card_eq_sum_ones]
  refine Finset.sum_le_sum fun i _ => ?_
  cases bag i <;> simp

theorem weigh_cells [Fintype ι] {π : Type*} (bag : ι → Option V) (S : π → Finset ι)
    (pool : Multiset π) : weigh (fun p => cells bag (S p)) pool =
      Finset.univ.sum (fun i => weigh (fun p => mark (S p) i) pool • cell (bag i)) := by
  induction pool using Multiset.induction_on with
  | empty => simp
  | cons p pool ih =>
    simp only [weigh_cons, ih, add_smul, Finset.sum_add_distrib]
    congr 1
    simp [cells,mark,ite_smul]

theorem mark_union {s t : Finset ι} (h : Disjoint s t) (i : ι) :
    mark (s ∪ t) i = mark s i+mark t i := by
  by_cases hs : i ∈ s
  · have ht : i ∉ t := Finset.disjoint_left.mp h hs
    simp [mark,hs,ht]
  · simp [mark,hs]

theorem mark_sdiff {s t : Finset ι} (h : t ⊆ s) (i : ι) :
    mark (s \ t) i+mark t i = mark s i := by
  by_cases ht : i ∈ t
  · simp [mark,ht,h ht]
  · simp [mark,ht]

theorem mark_erase {s : Finset ι} {i j : ι} (hj : j ≠ i) : mark (s.erase i) j = mark s j := by
  simp [mark,hj]

@[simp] theorem mark_erase_self (s : Finset ι) (i : ι) : mark (s.erase i) i = 0 := by simp [mark]

theorem disjoint_of_mark {s t : Finset ι} (h : ∀ i, mark s i+mark t i ≤ 1) : Disjoint s t := by
  rw [Finset.disjoint_left]
  intro i hs ht
  have := h i
  rw [mark_of_mem hs, mark_of_mem ht] at this
  omega

end Counting

section Preservation

variable [Fintype ι] {b b' : Board ι V} {f f' : Footprint ι V} {l l' : Ledger V}
  {pool : Multiset (Footprint ι V)} {i : ι}

omit [Fintype ι] in
theorem owners_cons (b : Board ι V) (f : Footprint ι V) (pool : Multiset (Footprint ι V))
    (l : Ledger V) (i : ι) : owners ⟨b,f ::ₘ pool,l⟩ i =
      mark b.ready i+(mark f.reserved i+reservers pool i)+(mark f.claimed i+claimers pool i) := by
  simp [owners]

omit [Fintype ι] in
theorem writers_le (pool : Multiset (Footprint ι V)) (i : ι) :
    writers pool i ≤ reservers pool i :=
  weigh_le (fun _ _ => mark_mono Finset.sdiff_subset i)

omit [Fintype ι] in
theorem readers_le (h : ∀ f ∈ pool, f.unwritten ⊆ f.reserved ∧ f.unread ⊆ f.claimed) (i : ι) :
    readers pool i ≤ claimers pool i :=
  weigh_le (fun f hf => mark_mono (h f hf).2 i)

theorem Inv.alone (h : Inv ⟨b,f ::ₘ pool,l⟩) (i : ι) :
    mark b.ready i+(mark f.reserved i+reservers pool i)+(mark f.claimed i+claimers pool i)
      ≤ mark b.taken i := by
  simpa only [owners_cons] using h.owned i

theorem Inv.full (h : Inv ⟨b,f ::ₘ pool,l⟩) (i : ι) : (cell (b.bag i)).card =
    mark b.ready i+(mark (f.reserved \ f.unwritten) i+writers pool i)+
      (mark f.unread i+readers pool i) := by
  simpa only [writers_cons,readers_cons] using h.filled i

theorem Inv.rest_nested (h : Inv ⟨b,f ::ₘ pool,l⟩) :
    ∀ g ∈ pool, g.unwritten ⊆ g.reserved ∧ g.unread ⊆ g.claimed :=
  fun g hg => h.nested g (Multiset.mem_cons_of_mem hg)

theorem Inv.owned_apart (h : Inv ⟨b,f ::ₘ pool,l⟩) (hi : i ∈ f.owned) :
    i ∉ b.ready ∧ i ∈ b.taken ∧ ∀ g ∈ pool, i ∉ g.owned := by
  have hmark {g : Footprint ι V} (hg : i ∈ g.owned) : 1 ≤ mark g.reserved i+mark g.claimed i := by
    rcases Finset.mem_union.mp hg with hg | hg <;> rw [mark_of_mem hg] <;> omega
  have h1 := h.alone i
  have h2 := hmark hi
  have h3 := mark_le_one b.taken i
  refine ⟨fun hr => ?_,mark_pos (by omega),fun g hg hmem => ?_⟩
  · rw [mark_of_mem hr] at h1
    omega
  · have h4 := le_weigh (fun g => mark g.reserved i) hg
    have h5 := le_weigh (fun g => mark g.claimed i) hg
    have h6 := hmark hmem
    simp only [reservers, claimers] at h1
    omega

theorem Inv.unwritten_none (h : Inv ⟨b,f ::ₘ pool,l⟩) (hi : i ∈ f.unwritten) :
    b.bag i = none ∧ i ∉ b.ready := by
  obtain ⟨hu,hr⟩ := h.nested f (by simp)
  have h1 := h.alone i
  have h2 := h.full i
  have h3 := writers_le pool i
  have h4 := readers_le h.rest_nested i
  have h5 := mark_mono hr i
  have h6 := mark_le_one b.taken i
  rw [mark_of_mem (hu hi)] at h1
  rw [mark_of_notMem (s := f.reserved \ f.unwritten) (by simp [hi])] at h2
  constructor
  · by_contra hb
    obtain ⟨v,hv⟩ := Option.ne_none_iff_exists'.mp hb
    rw [hv, cell_some, Multiset.card_singleton] at h2
    omega
  · intro hb
    rw [mark_of_mem hb] at h1
    omega

theorem Inv.unread_some (h : Inv ⟨b,f ::ₘ pool,l⟩) (hi : i ∈ f.unread) :
    (b.bag i).isSome ∧ i ∉ b.ready := by
  obtain ⟨-,hr⟩ := h.nested f (by simp)
  have h1 := h.alone i
  have h2 := h.full i
  have h6 := mark_le_one b.taken i
  rw [mark_of_mem (hr hi)] at h1
  rw [mark_of_mem hi] at h2
  constructor
  · exact isSome_of_card_cell (by omega)
  · intro hb
    rw [mark_of_mem hb] at h1
    omega

theorem Inv.written_some (h : Inv ⟨b,f ::ₘ pool,l⟩) (hi : i ∈ f.reserved \ f.unwritten) :
    (b.bag i).isSome := by
  have h2 := h.full i
  rw [mark_of_mem hi] at h2
  exact isSome_of_card_cell (by omega)

theorem Inv.ready_some {s : State ι V} (h : Inv s) (hi : i ∈ s.board.ready) :
    (s.board.bag i).isSome := by
  have h1 := h.filled i
  rw [mark_of_mem hi] at h1
  exact isSome_of_card_cell (by omega)

theorem Inv.reserve {s : Finset ι} (h : Inv ⟨b,.idle ::ₘ pool,l⟩) (ho : b.closed = false)
    (hs : Disjoint s b.taken) : Inv ⟨{ b with taken := b.taken ∪ s },⟨s,s,∅,∅,0⟩ ::ₘ pool,l⟩ := by
  have hm (i : ι) := mark_union hs.symm i
  refine ⟨fun i => ?_,fun _ i => ?_,?_,fun i => ?_,?_,?_⟩
  · have := h.alone i
    simp only [owners_cons, hm, Footprint.idle, mark_empty] at this ⊢
    omega
  · have := h.open_owned ho i
    simp only [owners_cons, hm, Footprint.idle, mark_empty] at this ⊢
    omega
  · simpa using h.rest_nested
  · simpa [Footprint.idle] using h.full i
  · simpa [Footprint.idle] using h.conserved
  · exact h.handed

theorem Inv.write (v : V) (h : Inv ⟨b,f ::ₘ pool,l⟩) (hi : i ∈ f.unwritten) :
    Inv ⟨{ b with bag := Function.update b.bag i (some v) },
      { f with unwritten := f.unwritten.erase i } ::ₘ pool,{ l with put := {v}+l.put }⟩ := by
  obtain ⟨hu,hr⟩ := h.nested f (by simp)
  obtain ⟨hn,hnr⟩ := h.unwritten_none hi
  refine ⟨fun j => ?_,fun ho j => ?_,?_,fun j => ?_,?_,?_⟩
  · simpa only [owners_cons] using h.alone j
  · simpa only [owners_cons] using h.open_owned ho j
  · simp only [Multiset.mem_cons, forall_eq_or_imp]
    exact ⟨⟨(Finset.erase_subset _ _).trans hu,hr⟩,h.rest_nested⟩
  · have hj := h.full j
    simp only [writers_cons, readers_cons] at hj ⊢
    by_cases hji : j = i
    · subst hji
      rw [mark_of_notMem (s := f.reserved \ f.unwritten) (by simp [hi]), hn] at hj
      rw [mark_of_mem (s := f.reserved \ f.unwritten.erase j) (by simp [hu hi])]
      simp at hj ⊢
      omega
    · have : mark (f.reserved \ f.unwritten.erase i) j = mark (f.reserved \ f.unwritten) j := by
        simp [mark,hji]
      rw [Function.update_of_ne hji, this, hj]
  · have hc := h.conserved
    have : cells (Function.update b.bag i (some v)) Finset.univ+cell (b.bag i) =
        cells b.bag Finset.univ+cell (some v) := cells_update_mem _ (Finset.mem_univ i)
    rw [hn] at this
    simp only [cell_none, cell_some, add_zero] at this
    simp only [weigh_cons] at hc ⊢
    rw [this, hc]
    abel
  · rw [cells_update_notMem _ hnr]
    exact h.handed

theorem Inv.commit (h : Inv ⟨b,f ::ₘ pool,l⟩) (hf : f.unwritten = ∅) :
    Inv ⟨{ b with ready := b.ready ∪ f.reserved },{ f with reserved := ∅ } ::ₘ pool,
      { l with committed := cells b.bag f.reserved+l.committed }⟩ := by
  obtain ⟨hu,hr⟩ := h.nested f (by simp)
  have hd : Disjoint b.ready f.reserved := disjoint_of_mark (fun i => by
    have := h.alone i
    have := mark_le_one b.taken i
    omega)
  have hm (i : ι) := mark_union hd i
  refine ⟨fun j => ?_,fun ho j => ?_,?_,fun j => ?_,?_,?_⟩
  · have := h.alone j
    simp only [owners_cons, hm, mark_empty]
    omega
  · have := h.open_owned ho j
    simp only [owners_cons, hm, mark_empty] at this ⊢
    omega
  · simp only [Multiset.mem_cons, forall_eq_or_imp]
    exact ⟨⟨by simp [hf],hr⟩,h.rest_nested⟩
  · have hj := h.full j
    simp only [writers_cons, readers_cons, hm, hf, Finset.sdiff_empty, mark_empty] at hj ⊢
    omega
  · simpa using h.conserved
  · have hc := h.handed
    simp only at hc ⊢
    rw [cells_union hd, hc]
    abel

theorem Inv.claim (h : Inv ⟨b,.idle ::ₘ pool,l⟩) :
    Inv ⟨{ b with ready := ∅ },⟨∅,∅,b.ready,b.ready,0⟩ ::ₘ pool,
      { l with claimed := cells b.bag b.ready+l.claimed }⟩ := by
  refine ⟨fun j => ?_,fun ho j => ?_,?_,fun j => ?_,?_,?_⟩
  · have := h.alone j
    simp only [owners_cons, Footprint.idle, mark_empty] at this ⊢
    omega
  · have := h.open_owned ho j
    simp only [owners_cons, Footprint.idle, mark_empty] at this ⊢
    omega
  · simpa using h.rest_nested
  · have hj := h.full j
    simp only [writers_cons, readers_cons, Footprint.idle, Finset.sdiff_empty, mark_empty] at hj ⊢
    omega
  · simpa [Footprint.idle] using h.conserved
  · have hc := h.handed
    simp only [cells_empty, add_zero] at hc ⊢
    rw [hc]
    abel

theorem Inv.read {v : V} (h : Inv ⟨b,f ::ₘ pool,l⟩) (hi : i ∈ f.unread) (hv : b.bag i = some v) :
    Inv ⟨{ b with bag := Function.update b.bag i none },
      { f with unread := f.unread.erase i, held := {v}+f.held } ::ₘ pool,l⟩ := by
  obtain ⟨hu,hr⟩ := h.nested f (by simp)
  obtain ⟨-,hnr⟩ := h.unread_some hi
  refine ⟨fun j => ?_,fun ho j => ?_,?_,fun j => ?_,?_,?_⟩
  · simpa only [owners_cons] using h.alone j
  · simpa only [owners_cons] using h.open_owned ho j
  · simp only [Multiset.mem_cons, forall_eq_or_imp]
    exact ⟨⟨hu,(Finset.erase_subset _ _).trans hr⟩,h.rest_nested⟩
  · have hj := h.full j
    simp only [writers_cons, readers_cons] at hj ⊢
    by_cases hji : j = i
    · subst hji
      rw [mark_of_mem hi, hv] at hj
      simp at hj ⊢
      omega
    · rw [Function.update_of_ne hji, mark_erase hji, hj]
  · have hc := h.conserved
    have hcell : cells (Function.update b.bag i none) Finset.univ+cell (b.bag i) =
        cells b.bag Finset.univ+cell none := cells_update_mem _ (Finset.mem_univ i)
    rw [hv] at hcell
    simp only [cell_none, cell_some, add_zero] at hcell
    simp only [weigh_cons] at hc ⊢
    rw [hc, ← hcell]
    abel
  · rw [cells_update_notMem _ hnr]
    exact h.handed

theorem Inv.release (h : Inv ⟨b,f ::ₘ pool,l⟩) (hf : f.unread = ∅) (ho : b.closed = false) :
    Inv ⟨{ b with taken := b.taken \ f.claimed },{ f with claimed := ∅ } ::ₘ pool,l⟩ := by
  obtain ⟨hu,hr⟩ := h.nested f (by simp)
  have hsub : f.claimed ⊆ b.taken := by
    intro i hi
    have := h.alone i
    rw [mark_of_mem hi] at this
    exact mark_pos (by omega)
  have hm (i : ι) := mark_sdiff hsub i
  refine ⟨fun j => ?_,fun _ j => ?_,?_,fun j => ?_,?_,h.handed⟩
  · have := h.alone j
    have := hm j
    simp only [owners_cons, mark_empty]
    omega
  · have := h.open_owned ho j
    have := hm j
    simp only [owners_cons, mark_empty] at *
    omega
  · simp only [Multiset.mem_cons, forall_eq_or_imp]
    exact ⟨⟨hu,by simp [hf]⟩,h.rest_nested⟩
  · simpa only [writers_cons, readers_cons] using h.full j
  · simpa using h.conserved

theorem Inv.move (h : Inv ⟨b,f ::ₘ pool,l⟩) (hm : Move b l f b' f' l') :
    Inv ⟨b',f' ::ₘ pool,l'⟩ := by
  cases hm with
  | rest => exact h
  | overshoot _ hc ht =>
    refine ⟨fun i => (h.owned i).trans (mark_mono ht i),fun ho => ?_,h.nested,h.filled,
      h.conserved,h.handed⟩
    exact absurd (hc.symm.trans ho) (by decide)
  | close =>
    exact ⟨h.owned,fun ho => absurd ho (by simp),h.nested,h.filled,h.conserved,h.handed⟩
  | reserve ho hs => exact h.reserve ho hs
  | write v hi => exact h.write v hi
  | commit hf => exact h.commit hf
  | claim => exact h.claim
  | read hi hv => exact h.read hi hv
  | release hf ho => exact h.release hf ho

theorem Inv.step {s t : State ι V} (h : Inv s) (hs : Step s t) : Inv t := by
  cases hs with
  | move hm => exact h.move hm
  | still => exact h
  | enter b pool l =>
    refine ⟨fun i => ?_,fun ho i => ?_,?_,fun i => ?_,?_,h.handed⟩
    · simpa [owners,Footprint.idle] using h.owned i
    · simpa [owners,Footprint.idle] using h.open_owned ho i
    · simpa [Footprint.idle] using h.nested
    · simpa [Footprint.idle] using h.filled i
    · simpa [Footprint.idle] using h.conserved
  | leave b vs pool l =>
    refine ⟨fun i => ?_,fun ho i => ?_,h.rest_nested,fun i => ?_,?_,h.handed⟩
    · simpa [owners] using h.owned i
    · simpa [owners] using h.open_owned ho i
    · simpa using h.filled i
    · have hc := h.conserved
      simp only [weigh_cons] at hc ⊢
      rw [hc]
      abel

end Preservation

section Consequences

variable [Fintype ι] {s : State ι V}

theorem Inv.start : Inv (⟨⟨∅,∅,fun _ => none,false⟩,0,⟨0,0,0,0⟩⟩ : State ι V) :=
  ⟨fun i => by simp [owners,reservers,claimers],
    fun _ i => by simp [owners,reservers,claimers],by simp,
    fun i => by simp [writers,readers],by simp [cells],by simp⟩

/-- Every initialised cell is ready, written by one party, or being read by one. -/
theorem Inv.partition (h : Inv s) : cells s.board.bag Finset.univ = cells s.board.bag s.board.ready+
    weigh (fun f => cells s.board.bag (f.reserved \ f.unwritten)) s.pool+
    weigh (fun f => cells s.board.bag f.unread) s.pool := by
  have hready : cells s.board.bag s.board.ready =
      Finset.univ.sum (fun i => mark s.board.ready i • cell (s.board.bag i)) := by
    simp [cells,mark,ite_smul]
  rw [weigh_cells, weigh_cells, hready, ← Finset.sum_add_distrib, ← Finset.sum_add_distrib]
  apply Finset.sum_congr rfl
  intro i _
  have hi := h.filled i
  simp only [writers, readers] at hi
  rw [← add_smul, ← add_smul, ← hi]
  cases s.board.bag i with
  | none => simp
  | some v => simp

/-- While the board is open a slot is free, or it is taken and has one owner:
its writer, nobody once it is ready, or its reader. -/
theorem Inv.situations (h : Inv s) (ho : s.board.closed = false) (i : ι) :
    (i ∉ s.board.taken ∧ i ∉ s.board.ready ∧ reservers s.pool i = 0 ∧ claimers s.pool i = 0) ∨
    (i ∈ s.board.taken ∧ i ∉ s.board.ready ∧ reservers s.pool i = 1 ∧ claimers s.pool i = 0) ∨
    (i ∈ s.board.taken ∧ i ∈ s.board.ready ∧ reservers s.pool i = 0 ∧ claimers s.pool i = 0) ∨
    (i ∈ s.board.taken ∧ i ∉ s.board.ready ∧ reservers s.pool i = 0 ∧ claimers s.pool i = 1) := by
  have hi := h.open_owned ho i
  simp only [owners] at hi
  by_cases ht : i ∈ s.board.taken <;> by_cases hr : i ∈ s.board.ready <;>
    simp only [mark, ht, hr, if_true, if_false] at hi <;> simp only [ht, hr] <;> simp <;> omega

theorem Inv.ready_subset (h : Inv s) : s.board.ready ⊆ s.board.taken := by
  intro i hi
  have := h.owned i
  rw [owners, mark_of_mem hi] at this
  exact mark_pos (by omega)

end Consequences

end Lockness.PoolSlots
