import Lockness.ClosureStack
import Lockness.VecCalls

/-!
# Closures beyond the fields of the header

The header counts closures in a `usize` and keeps their size in a `u32`. Closures
that capture nothing take no memory, so that nothing but time keeps a program
from pushing more of them than can be counted; without overflow checks the vec
then takes itself for empty. Closures of 4 GiB are looked for in the wrong place.
-/

set_option autoImplicit false

namespace Lockness.ClosureLimits
open Lockness.PoolRuns Lockness.VecLayout Lockness.VecHeap Lockness.VecHeader Lockness.VecGrowth
open Lockness.VecElements Lockness.VecLife Lockness.VecRoom Lockness.VecCalls
open Lockness.ClosureMachine Lockness.ClosureStack
open Lockness.VecMachine hiding new push drop

variable {κ β : Type} [Inhabited β] {c : Closures κ β} {w : World κ β} {F : κ} {U : Layout}
  {a : Allocator β} {h : Header (Metadata κ)} {s : State (Metadata κ) (Consumed κ β) β}

omit [Inhabited β] in
theorem push_uncounted (hr : Roomy c.toTarget (c.layout F) h s)
    (ha : Asserts c.toTarget (c.layout F) s) (hsize : (c.layout F).size = 0)
    (hoff : c.overflow_checks = false) : ∃ s', push c a F [] s = .ok () s' ∧
      Roomy c.toTarget (c.layout F) { h with len := (h.len+1)%2^c.BITS } s' ∧
      s'.data = s.data ∧ s'.log = s.log := by
  have hlen : ([] : List β).length = (c.layout F).size := hsize.symm
  have hrun : reserve c.toTarget a (c.layout F) (c.layout F).size s = .ok () s := by
    rw [reserve, if_pos hsize, pure_run]
  rcases push_counted hr hrun (.refl hr.held) ha (.inl hsize) hlen with
    ⟨s',hp,hd,hr',-,hlog⟩ | ⟨⟨-,hon⟩,-⟩
  · exact ⟨s',hp,hr',hd,hlog⟩
  · rw [hoff] at hon
    cases hon

theorem pushes_wrap (a : Allocator β) (hr : Roomy c.toTarget (c.layout F) h s)
    (ha : Asserts c.toTarget (c.layout F) s) (hsize : (c.layout F).size = 0)
    (hoff : c.overflow_checks = false) (n : ℕ) : ∃ s' h',
      Steps (Call c w) (owning F s) (List.replicate n (.push F [])) (owning F s') ∧
      Roomy c.toTarget (c.layout F) h' s' ∧ h'.len = (h.len+n)%2^c.BITS ∧
      s'.data = s.data ∧ s'.log = s.log := by
  induction n with
  | zero => exact ⟨s,h,.refl,hr,(Nat.mod_eq_of_lt hr.held.fits.len).symm,rfl,rfl⟩
  | succ n ih =>
    obtain ⟨s₁,h₁,hrun,hr₁,hlen,hd,hlog⟩ := ih
    obtain ⟨s₂,hp,hr₂,hd₂,hlog₂⟩ :=
      push_uncounted (a := a) hr₁ (fun h0 => hd ▸ ha h0) hsize hoff
    have hone : Call c w (owning F s₁) (.push F []) (owning F s₂) :=
      .push (a := a) ⟨[],hsize.symm⟩ hp
    refine ⟨s₂,_,?_,hr₂,?_,hd₂.trans hd,hlog₂.trans hlog⟩
    · rw [List.replicate_succ']
      exact hrun.next hone
    · simp only [hlen, Nat.mod_add_mod, Nat.add_assoc]

theorem pop_and_run_wrapped (hh : Held c.toTarget h s) (ha : Asserts c.toTarget U s)
    (h0 : h.len = 0) (just_drop : Bool) : pop_and_run_ c w U just_drop s = .ok true s := by
  have hpop {O : Type} (f : Metadata κ → ℕ → List β → Answer (Metadata κ) (Consumed κ β) β O) :
      pop c.toTarget U f s = .ok none s := by
    rw [pop, bind_ok (pop_slot_none hh ha h0)]
    rfl
  rw [pop_and_run_, bind_get, bind_ok (hpop _)]
  rfl

theorem clear_wrapped (hh : Held c.toTarget h s) (ha : Asserts c.toTarget U s) (h0 : h.len = 0)
    (n : ℕ) : clear c w U (n+1) s = .ok true s := by
  rw [clear, bind_ok (pop_and_run_wrapped hh ha h0 true)]
  rfl

theorem pop_and_run_cut (hr : Roomy c.toTarget (c.layout F) h s) (hm : h.metadata = INIT F)
    (ha : Asserts c.toTarget U s) (h0 : h.len ≠ 0) (hbig : 2^32 ≤ (c.layout F).size)
    (just_drop : Bool) : ∃ s', pop_and_run_ c w U just_drop s = .error .ub s' := by
  obtain ⟨ptr,x,-,s',-,hx,hrun,-⟩ := pop_some hr ha h0 (task c w (consumed s.log) just_drop)
  have hlt : x.length < 2^32 := by
    rw [hx, hr.value_size]
    exact Nat.mod_lt _ (by decide)
  have hcall : call c w (consumed s.log) F ptr x just_drop = ([],.error .ub) := by
    rw [call, if_neg (fun h => by omega)]
  have hout : (task c w (consumed s.log) just_drop h.metadata ptr x).out = .error .ub := by
    rw [hm, task, INIT, hcall]
  rw [hout] at hrun
  refine ⟨s',?_⟩
  rw [pop_and_run_, bind_get, bind_error hrun]

section Sample

def calm : World Unit (Header (Metadata Unit) ⊕ ℕ) := fun _ _ => false

/-- Closures that capture nothing, on a machine of 32 bits. -/
def narrow : Closures Unit (Header (Metadata Unit) ⊕ ℕ) where
  toTarget := { VecStack.sample (Metadata Unit) false with
    BITS := 32, decode_encode := fun _ _ => rfl }
  layout _ := .unit
  quiet _ := rfl

/-- Closures of 4 GiB, on a machine of 64 bits. -/
def vast : Closures Unit (Header (Metadata Unit) ⊕ ℕ) where
  toTarget := VecStack.sample (Metadata Unit) false
  layout _ := ⟨2^32,1,Layout.unit.align_pow,Nat.one_dvd _⟩
  quiet _ := rfl

def bulk : List.Vector (Header (Metadata Unit) ⊕ ℕ) (vast.layout ()).size := .replicate _ (.inr 0)

theorem vast_pushed : ∃ t h, Steps (Call vast calm) ⟨VecStack.blank _,[],none⟩
      [.new (),.push () bulk.toList] (owning () t) ∧ Roomy vast.toTarget (vast.layout ()) h t ∧
    h.metadata = INIT () ∧ h.len = 1 := by
  obtain ⟨t₀,hn⟩ : ∃ t₀, new vast (VecStack.shelf _) () ⟨VecStack.blank _,0,[]⟩ = .ok () t₀ :=
    ⟨_,rfl⟩
  obtain ⟨hr₀,-⟩ := new_returns hn
  obtain ⟨t,hp,-,hr⟩ := push_fits (a := VecStack.shelf _) hr₀ (fun h0 => nomatch h0)
    bulk.toList_length (by decide) (by decide)
  exact ⟨t,_,(Steps.single (.new (by decide) hn)).next (.push bulk hp),hr,rfl,rfl⟩

/-- After `2^32` pushes the vec says that it is empty, and a `clear` that returns has consumed
nothing. A closure of 4 GiB is not found again. -/
theorem closures_forgotten :
    (∃ t, Steps (Call narrow calm) ⟨VecStack.blank _,[],none⟩
        (.new () :: List.replicate (2^32) (.push () [])) (owning () t) ∧
      pop_and_run narrow calm .unit t = .ok true t ∧ clear narrow calm .unit 1 t = .ok true t ∧
      consumed t.log = []) ∧
    ∃ t t', Steps (Call vast calm) ⟨VecStack.blank _,[],none⟩
        [.new (),.push () bulk.toList] (owning () t) ∧
      pop_and_run vast calm .unit t = .error .ub t' := by
  constructor
  · obtain ⟨t₀,hn⟩ : ∃ t₀, new narrow (VecStack.shelf _) () ⟨VecStack.blank _,0,[]⟩ = .ok () t₀ :=
      ⟨_,rfl⟩
    obtain ⟨hr₀,-,-,hlog₀,-⟩ := new_returns hn
    obtain ⟨t,h,hrun,hr,hlen,-,hlog⟩ := pushes_wrap (w := calm) (VecStack.shelf _) hr₀
      (fun h0 => nomatch h0) rfl rfl (2^32)
    have h0 : h.len = 0 := by rw [hlen]; rfl
    have hrun' := (Steps.single (.new (by decide) hn)).trans hrun
    exact ⟨t,hrun',pop_and_run_wrapped hr.held (fun h0 => nomatch h0) h0 false,
      clear_wrapped hr.held (fun h0 => nomatch h0) h0 0,by rw [hlog, hlog₀]; rfl⟩
  · obtain ⟨t,h,hrun,hr,hm,hlen⟩ := vast_pushed
    obtain ⟨t',hp⟩ := pop_and_run_cut (w := calm) (U := .unit) hr hm (fun h0 => nomatch h0)
      (by rw [hlen]; decide) le_rfl false
    exact ⟨t,t',hrun,hp⟩

end Sample
end Lockness.ClosureLimits
