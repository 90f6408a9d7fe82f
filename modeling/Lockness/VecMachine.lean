import Lockness.VecHeap

/-!
# The freestanding vec

Each definition follows one function of the source, statement by statement. A
static type is its layout; a cast, `into_raw` and `from_raw` change nothing but
the type that the next operation is called at. An access outside a live block,
a misaligned one and a call that breaks the allocator's contract are undefined.
Constants of a type are computed without overflow, since the source does not
compile where one overflows.
-/

set_option autoImplicit false

namespace Lockness.VecMachine
open Lockness.VecLayout Lockness.VecHeap

/-- Why an operation unwinds: a failed `debug_assert!`, the `expect` of `reserve`, an overflow
that is checked, or code of the program (a destructor, a closure). -/
inductive Panic where
  | assertion
  | allocation
  | arithmetic
  | user
  deriving DecidableEq

/-- How an operation ends that does not return. `handle_alloc_error` aborts; `oversize` is
undefined behaviour by a size that no layout can have. -/
inductive Stop where
  | panic (why : Panic)
  | abort
  | oversize
  | ub
  deriving DecidableEq

structure Header (M : Type) where
  metadata : M
  value_size : ℕ
  alignment : ℕ
  len : ℕ
  capacity : ℕ

/-- Two fields are a `u32`, two a `usize`. -/
structure Header.Fits {M : Type} (BITS : ℕ) (h : Header M) : Prop where
  value_size : h.value_size < 2^32
  alignment : h.alignment < 2^32
  len : h.len < 2^BITS
  capacity : h.capacity < 2^BITS

/-- What the compiler and the type `M` decide. `header` is the layout of `Header<M>`,
whose bytes `encode` and `decode` translate. -/
structure Target (M β : Type) where
  header : Layout
  BITS : ℕ
  debug_assertions : Bool
  overflow_checks : Bool
  drop_panics : M → Bool
  encode : Header M → List β
  decode : List β → Option (Header M)
  header_pos : 0 < header.size
  encode_length : ∀ h, (encode h).length = header.size
  decode_encode : ∀ h, h.Fits BITS → decode (encode h) = some h

/-- What is seen from outside: drop glue that runs, and what the closures given to `pop` do. -/
inductive Effect (M Λ : Type) where
  | drop_metadata (m : M)
  | closure (e : Λ)

structure State (M Λ β : Type) where
  heap : Heap β
  data : ℕ
  log : List (Effect M Λ)

abbrev VecM (M Λ β : Type) := EStateM Stop (State M Λ β)

/-- What a closure given to `pop` leaves behind: the metadata, the bytes of the popped slot,
its own effects and how it ends. -/
structure Answer (M Λ β O : Type) where
  metadata : M
  bytes : ℕ → β
  log : List Λ
  out : Except Stop O

variable {M Λ β O : Type} (c : Target M β)

section Types

variable (T : Layout)

/-- `HeaderSpace<M, T>`. -/
def header_space : Layout := c.header.union T

def MIN_NON_ZERO_CAP : ℕ :=
  (if T.size = 1 then 8 else if T.size ≤ 1024 then 4 else 1)*T.size+(header_space c T).size

def HEADER_ALIGNMENT : ℕ := (header_space c T).align%2^32

def ELEM_SIZE : ℕ := T.size%2^32

/-- `NonNull::<HeaderSpace<M, T>>::dangling()`. -/
def dangling : ℕ := (header_space c T).align

end Types

section Arithmetic

def usize_MAX : ℕ := 2^c.BITS-1

def isize_MAX : ℕ := 2^(c.BITS-1)-1

/-- `+` and `*` on `usize`, of which `n` is the result without bound. -/
def usize (n : ℕ) : VecM M Λ β ℕ :=
  if n < 2^c.BITS then pure n
  else if c.overflow_checks then throw (.panic .arithmetic)
  else pure (n%2^c.BITS)

def checked_add (a b : ℕ) : Option ℕ := if a+b < 2^c.BITS then some (a+b) else none

def saturating_mul (a b : ℕ) : ℕ := min (a*b) (usize_MAX c)

/-- The contract of `Layout::from_size_align_unchecked` and of the allocator's functions. -/
def Legal (size align : ℕ) : Prop := 0 < size ∧ next_multiple_of size align ≤ isize_MAX c

instance (size align : ℕ) : Decidable (Legal c size align) :=
  inferInstanceAs (Decidable (_ ∧ _))

end Arithmetic

section Memory

def load (i n align : ℕ) : VecM M Λ β (List β) := do
  match (← get).heap.load i n with
  | some l => if align ∣ i then pure l else throw .ub
  | none => throw .ub

def store (i align : ℕ) (l : List β) : VecM M Λ β Unit := do
  let s ← get
  match s.heap.store i l with
  | some heap => if align ∣ i then set { s with heap := heap } else throw .ub
  | none => throw .ub

/-- `alloc`; `0` is the null pointer. -/
def alloc (a : Allocator β) (size align : ℕ) : VecM M Λ β ℕ := do
  let s ← get
  if ¬ Legal c size align then throw .oversize
  else if h : a.alloc s.heap size align = 0 then pure 0
  else
    let ptr := a.alloc s.heap size align
    let heap := s.heap.insert ⟨ptr,size,align⟩ (a.alloc_fresh _ _ _ h) a.fill
    set { s with heap := heap }
    pure ptr

def realloc (a : Allocator β) (ptr size align new_size : ℕ) : VecM M Λ β ℕ := do
  let s ← get
  let b : Block := ⟨ptr,size,align⟩
  if b ∉ s.heap.blocks then throw .ub
  else if ¬ Legal c new_size align then throw .oversize
  else if h : a.realloc s.heap b new_size = 0 then pure 0
  else
    let new_ptr := a.realloc s.heap b new_size
    let heap := s.heap.move b ⟨new_ptr,new_size,align⟩ (a.realloc_fresh _ _ _ h) a.fill
    set { s with heap := heap }
    pure new_ptr

def dealloc (ptr size align : ℕ) : VecM M Λ β Unit := do
  let s ← get
  if ⟨ptr,size,align⟩ ∈ s.heap.blocks then set { s with heap := s.heap.remove ⟨ptr,size,align⟩ }
  else throw .ub

/-- The drop glue of `M`. -/
def drop_metadata (m : M) : VecM M Λ β Unit := do
  modify (fun s => { s with log := s.log++[.drop_metadata m] })
  if c.drop_panics m then throw (.panic .user)

/-- Unwinding drops what `x` has not moved away; a second panic aborts. -/
def unwinding {α : Type} (x : VecM M Λ β α) (cleanup : VecM M Λ β Unit) : VecM M Λ β α := fun s =>
  match x s with
  | .error (.panic why) s =>
    match cleanup s with
    | .ok _ s => .error (.panic why) s
    | .error (.panic _) s => .error .abort s
    | .error e s => .error e s
  | r => r

end Memory

section Vec

variable (a : Allocator β) (T : Layout)

def is_allocated : VecM M Λ β Bool := return (← get).data ≠ dangling c T

def debug_assert (b : Bool) : VecM M Λ β Unit :=
  if c.debug_assertions ∧ ¬ b then throw (.panic .assertion) else pure ()

def read_header : VecM M Λ β (Header M) := do
  match c.decode (← load (← get).data c.header.size c.header.align) with
  | some h => pure h
  | none => throw .ub

def write_header (h : Header M) : VecM M Λ β Unit := do
  store (← get).data c.header.align (c.encode h)

/-- `Header::from_ref` and `Header::from_mut`. -/
def from_ref : VecM M Λ β (Header M) := do
  debug_assert c (← is_allocated c T)
  read_header c

def len : VecM M Λ β ℕ := do
  debug_assert c (← is_allocated c T)
  return (← from_ref c T).len

def is_empty : VecM M Λ β Bool := return (← len c T) = 0

def capacity_bytes : VecM M Λ β ℕ := do
  debug_assert c (← is_allocated c T)
  return (← from_ref c T).capacity

def deallocate : VecM M Λ β Unit := do
  if ¬ (← is_allocated c T) then return
  let h ← from_ref c T
  dealloc (← get).data (← capacity_bytes c T) h.alignment
  modify (fun s => { s with data := dangling c T })
  drop_metadata c h.metadata

def allocate : VecM M Λ β ℕ := do
  debug_assert c (¬ (← is_allocated c T))
  let capacity := MIN_NON_ZERO_CAP c T
  let ptr ← alloc c a capacity (header_space c T).align
  if ptr = 0 then throw .abort
  modify (fun s => { s with data := ptr })
  return capacity

def reserve (additional_bytes : ℕ) : VecM M Λ β Unit := do
  if additional_bytes = 0 then return
  let used ← usize c ((← len c T)*T.size+(header_space c T).size)
  match checked_add c used additional_bytes with
  | none => throw (.panic .allocation)
  | some required_cap =>
    let og_cap ← capacity_bytes c T
    if required_cap ≤ og_cap then return
    let new_capacity := max (saturating_mul c og_cap 2) required_cap
    let ptr ← realloc c a (← get).data og_cap (header_space c T).align new_capacity
    if ptr = 0 then throw .abort
    modify (fun s => { s with data := ptr })
    write_header c { ← from_ref c T with capacity := new_capacity }

/-- `init` up to the header that it writes. -/
def make_room : VecM M Λ β Unit := do
  if ← is_allocated c T then
    if (← from_ref c T).alignment ≠ HEADER_ALIGNMENT c T then deallocate c T
  if ← is_allocated c T then
    let capacity ← capacity_bytes c T
    if capacity < MIN_NON_ZERO_CAP c T then reserve c a T (MIN_NON_ZERO_CAP c T-capacity)

/-- `init` from there on. An overwritten header is dropped. -/
def place (metadata : M) : VecM M Λ β Unit := do
  let header (capacity : ℕ) : Header M :=
    ⟨metadata,ELEM_SIZE T,HEADER_ALIGNMENT c T,0,capacity⟩
  if ← is_allocated c T then
    let capacity ← capacity_bytes c T
    let old ← read_header c
    write_header c (header capacity)
    drop_metadata c old.metadata
  else
    let capacity ← allocate c a T
    write_header c (header capacity)

def init (metadata : M) : VecM M Λ β Unit := do
  unwinding (make_room c a T) (drop_metadata c metadata)
  place c a T metadata

def new (metadata : M) : VecM M Λ β Unit := do
  modify (fun s => { s with data := dangling c T })
  init c a T metadata

/-- Where `push` writes the element of index `i`. -/
def push_address (data i : ℕ) : ℕ := data+(header_space c T).size+i*T.size

def push (value : List β) : VecM M Λ β Unit := do
  reserve c a T T.size
  store (push_address c T (← get).data (← len c T)) T.align value
  let h ← from_ref c T
  write_header c { h with len := ← usize c (h.len+1) }

/-- The offset at which `pop` finds the element of index `i`. -/
def pop_offset (h : Header M) (i : ℕ) : ℕ :=
  next_multiple_of (max (header_space c .unit).size h.value_size) h.alignment+i*h.value_size

/-- `pop` up to the call of its closure: what it hands to it, the bytes behind the pointer
included. -/
def pop_slot : VecM M Λ β (Option (M × ℕ × List β)) := do
  let len ← len c T
  if len = 0 then return none
  let h ← from_ref c T
  let ptr := (← get).data+(← usize c (pop_offset c h (len-1)))
  let bytes ← load ptr h.value_size 1
  write_header c { h with len := len-1 }
  return some (h.metadata,ptr,bytes)

/-- The call of the closure, which may write through both its arguments. -/
def call_closure (f : M → ℕ → List β → Answer M Λ β O) (metadata : M) (ptr : ℕ) (bytes : List β) :
    VecM M Λ β O := do
  let r := f metadata ptr bytes
  store ptr 1 ((List.range bytes.length).map r.bytes)
  write_header c { ← read_header c with metadata := r.metadata }
  modify (fun s => { s with log := s.log++r.log.map .closure })
  match r.out with
  | .ok o => pure o
  | .error e => throw e

def pop (f : M → ℕ → List β → Answer M Λ β O) : VecM M Λ β (Option O) := do
  match ← pop_slot c T with
  | none => return none
  | some (metadata,ptr,bytes) => return some (← call_closure c f metadata ptr bytes)

/-- `Drop for FreestandingVec`. -/
def drop : VecM M Λ β Unit := do
  if c.debug_assertions then
    if ← is_allocated c T then debug_assert c ((← len c T) = 0)
  deallocate c T

end Vec
end Lockness.VecMachine
