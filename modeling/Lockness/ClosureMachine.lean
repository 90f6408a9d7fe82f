import Lockness.VecMachine

/-!
# The closure vec

A freestanding vec whose metadata is the instance `call::<F>` for the type of
its closures. A closure is its bytes. Whether it panics when it is called or
dropped is decided by a world that knows all closures consumed before. A loop
is given a number of rounds, and tells whether they were enough.
-/

set_option autoImplicit false

namespace Lockness.ClosureMachine
open Lockness.VecLayout Lockness.VecHeap Lockness.VecMachine

variable {κ β : Type}

/-- `task_fn` is `call::<F>`, and named by `F`. -/
structure Metadata (κ : Type) where
  task_fn : κ

/-- A closure that `call::<task_fn>` has taken from the vec, to drop it or to run it. -/
structure Consumed (κ β : Type) where
  task_fn : κ
  bytes : List β
  just_drop : Bool

/-- A target with the layouts of all closure types. There is nothing to drop in a function
pointer. -/
structure Closures (κ β : Type) extends Target (Metadata κ) β where
  layout : κ → Layout
  quiet : ∀ m, drop_panics m = false

/-- Which closures panic, given the ones consumed before. -/
abbrev World (κ β : Type) := List (Consumed κ β) → Consumed κ β → Bool

abbrev ClosureM (κ β : Type) := VecM (Metadata κ) (Consumed κ β) β

def as_closure : Effect (Metadata κ) (Consumed κ β) → Option (Consumed κ β)
  | .drop_metadata _ => none
  | .closure u => some u

def consumed (log : List (Effect (Metadata κ) (Consumed κ β))) : List (Consumed κ β) :=
  log.filterMap as_closure

def INIT (F : κ) : Metadata κ := ⟨F⟩

section Operations

variable [Inhabited β] (c : Closures κ β) (w : World κ β) (a : Allocator β)

/-- `call::<F>`. It reads an `F`, which it drops if it does not run it. -/
def call (used : List (Consumed κ β)) (F : κ) (ptr : ℕ) (bytes : List β) (just_drop : Bool) :
    List (Consumed κ β) × Except Stop Unit :=
  if bytes.length = (c.layout F).size ∧ (c.layout F).align ∣ ptr then
    ([⟨F,bytes,just_drop⟩],
      if w used ⟨F,bytes,just_drop⟩ then .error (.panic .user) else .ok ())
  else ([],.error .ub)

/-- The closure that `pop_and_run_` gives to `pop`. -/
def task (used : List (Consumed κ β)) (just_drop : Bool) (m : Metadata κ) (ptr : ℕ)
    (bytes : List β) : Answer (Metadata κ) (Consumed κ β) β Unit :=
  let r := call c w used m.task_fn ptr bytes just_drop
  ⟨m,fun i => bytes.getD i default,r.1,r.2⟩

def pop_and_run_ (U : Layout) (just_drop : Bool) : ClosureM κ β Bool := do
  let used := consumed (← get).log
  return (← pop c.toTarget U (task c w used just_drop)).isNone

def pop_and_run (U : Layout) : ClosureM κ β Bool := pop_and_run_ c w U false

/-- `while !self.pop_and_run_(true) {}` -/
def clear (U : Layout) : ℕ → ClosureM κ β Bool
  | 0 => pure false
  | n+1 => do
    if ← pop_and_run_ c w U true then pure true else clear U n

def new (F : κ) : ClosureM κ β Unit := VecMachine.new c.toTarget a (c.layout F) (INIT F)

def update_type (F : κ) : ClosureM κ β Unit := init c.toTarget a (c.layout F) (INIT F)

def push (F : κ) (value : List β) : ClosureM κ β Unit :=
  VecMachine.push c.toTarget a (c.layout F) value

/-- `Drop for ClosureVec`, and then the drop of its field, which unwinding does not skip. -/
def drop (U : Layout) (n : ℕ) : ClosureM κ β Bool := do
  let cleared ← unwinding (clear c w U n) (VecMachine.drop c.toTarget U)
  if cleared then
    VecMachine.drop c.toTarget U
  return cleared

end Operations
end Lockness.ClosureMachine
