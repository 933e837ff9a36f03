import Tcio.Exec
import Tcio.Memory
import Mathlib.Data.Nat.Bitwise

/-!
The heap of the program, the owned vectors on it, and the `Shared` nodes that
count the handles of one buffer. The data word of a handle is a pointer whose
lowest bit tells what it is: set, the other bits are the offset of the handle from
the start of its buffer; unset, it is null or points to a `Shared` node.
-/
namespace Tcio
open Exec

/-- `isize::MAX` on a 64-bit target, which no allocation exceeds. -/
def isizeMax : Nat := 2^63-1
/-- What a sum or a shift of `usize` values leaves in a word. -/
def wrap (n : Nat) : Nat := n % 2^64

/-- A node: the count of its handles and the buffer they share. -/
structure Shared where
  ref_count : Nat
  ptr : Ptr
  cap : Nat
  deriving DecidableEq, Repr

/-- A boxed node at its address. -/
structure Boxed where
  addr : Nat
  shared : Shared
  deriving DecidableEq, Repr

/-- The buffers and the nodes that are allocated. -/
structure Heap where
  mem : Memory UInt8
  nodes : Arena Boxed

/-- The empty buffer that a pointer to no allocation stands for: it lies at the
    address one, the dangling address of bytes. -/
def dangling : Extent := ⟨1,0,true⟩

/-- Where the allocator places a buffer of at least `n` bytes and a node, and what
    it promises: room enough, nothing live overlapped, and an even address that is
    not null for a node. -/
structure Allocator where
  buffer : Heap → Nat → Nat × Nat
  node : Heap → Nat
  room : ∀ H n, n ≤ isizeMax → n ≤ (buffer H n).2 ∧ (buffer H n).2 ≤ isizeMax
  nonnull : ∀ H n, 0 < (buffer H n).1
  separate : ∀ H n i e, H.mem.extent i = some e → e.base+e.size ≤ (buffer H n).1 ∨ (buffer H n).1+(buffer H n).2 ≤ e.base
  aligned : ∀ H, 0 < node H ∧ node H % 8 = 0

/-- The allocator leaves at least `gap` bytes between any two buffers, where an empty
    buffer lies at the dangling address. -/
structure Allocator.Spaced (A : Allocator) (gap : Nat) : Prop where
  low : ∀ H n, 1+gap ≤ (A.buffer H n).1
  apart : ∀ H n i e, H.mem.extent i = some e → e.frozen = false →
    e.base+e.size+gap ≤ (A.buffer H n).1 ∨ (A.buffer H n).1+(A.buffer H n).2+gap ≤ e.base

/-- A subtraction of `usize` values the code takes never to wrap. -/
def usize_sub {σ : Type} (a b : Nat) : Exec σ Nat := do
  check .fault (b ≤ a)
  return a-b

@[simp] theorem sat_usize_sub {σ : Type} {a b : Nat} {s : σ} {Q : Nat → σ → Prop} {E : Stop → σ → Prop} :
    Sat (usize_sub a b) s Q E ↔ (b ≤ a → Q (a-b) s) ∧ (¬ b ≤ a → E .fault s) := by
  simp [usize_sub]
theorem usize_sub_ok {σ : Type} {s : σ} {a b : Nat} (le : b ≤ a) : usize_sub a b s = (.ok (a-b),s) :=
  run_eq (by simp [le])

/-- The distance of two pointers into one allocation, which must not be negative. -/
def Ptr.offset_from_unsigned {σ : Type} (self origin : Ptr) : Exec σ Nat := do
  check .fault (self.prov = origin.prov)
  usize_sub self.addr origin.addr

namespace Heap
/-- Read initialized bytes. -/
def read (p : Ptr) (n : Nat) : Exec Heap (List UInt8) := do
  ofOption .fault ((← get).mem.load p n)
def write (p : Ptr) (v : List UInt8) : Exec Heap Unit := do
  let H ← get
  let mem ← ofOption .fault (H.mem.store p v)
  set { H with mem }
/-- `ptr::copy`, whose ranges may overlap. -/
def copy (src dst : Ptr) (n : Nat) : Exec Heap Unit := do
  write dst (← read src n)
def copy_nonoverlapping (src dst : Ptr) (n : Nat) : Exec Heap Unit := do
  check .fault (n = 0 ∨ src.prov ≠ dst.prov ∨ src.addr+n ≤ dst.addr ∨ dst.addr+n ≤ src.addr)
  copy src dst n
end Heap

/-- An owned vector of bytes. -/
structure Vec where
  ptr : Ptr
  len : Nat
  cap : Nat
  deriving DecidableEq, Repr

namespace Vec
variable (A : Allocator)

def new : Vec := ⟨⟨1,0⟩,0,0⟩
/-- Panics on capacity overflow; an empty request does not allocate. -/
def with_capacity (n : Nat) : Exec Heap Vec := do
  check .panic (n ≤ isizeMax)
  if n = 0 then return new
  let H ← get
  let (base,cap) := A.buffer H n
  set { H with mem := H.mem.alloc ⟨base,cap,false⟩ }
  return ⟨⟨base,H.mem.bound⟩,0,cap⟩
/-- `cap` must be the capacity of the allocation that starts at `ptr`. -/
def from_raw_parts (ptr : Ptr) (len cap : Nat) : Exec Heap Vec := do
  let H ← get
  check .fault (len ≤ cap ∧ (cap ≠ 0 → H.mem.extent ptr.prov = some ⟨ptr.addr,cap,false⟩))
  return ⟨ptr,len,cap⟩
def drop (self : Vec) : Exec Heap Unit := do
  if self.cap = 0 then return
  let H ← get
  check .fault (H.mem.extent self.ptr.prov = some ⟨self.ptr.addr,self.cap,false⟩)
  set { H with mem := H.mem.free self.ptr.prov }
/-- `<[u8]>::to_vec`. -/
def to_vec (v : List UInt8) : Exec Heap Vec := do
  let vec ← with_capacity A v.length
  Heap.write vec.ptr v
  return { vec with len := v.length }
def as_slice (self : Vec) : Exec Heap (List UInt8) := Heap.read self.ptr self.len
end Vec

namespace Shared
variable (A : Allocator)

def DATA_PROMOTED : Nat := 0
def DATA_UNPROMOTED : Nat := 1
def DATA_MASK : Nat := 1
def RESERVED_BIT_DATA : Nat := 1
/-- `RESERVED_BIT_DATA` rotated right by itself. -/
def MSB : Nat := 2^63

/-! ### The data word -/

def new_unpromoted : Ptr := ⟨DATA_UNPROMOTED,0⟩
def null : Ptr := ⟨0,0⟩
def is_null (data : Ptr) : Bool := data.addr == 0
def is_unpromoted (data : Ptr) : Bool := data.addr &&& DATA_MASK == DATA_UNPROMOTED
def is_promoted (data : Ptr) : Bool := data.addr &&& DATA_MASK == DATA_PROMOTED

/-- The node a data word points to. -/
def deref (data : Ptr) : Exec Heap Shared := do
  match (← get).nodes.get data.prov with
  | some boxed =>
    check .fault (boxed.addr = data.addr)
    return boxed.shared
  | none => stop .fault

/-- The offset of an unpromoted word, or else a reference to its node, which must be live. -/
def as_unpromoted (data : Ptr) : Exec Heap (Except Ptr Nat) := do
  if is_unpromoted data then return .ok (data.addr >>> RESERVED_BIT_DATA)
  let _ ← deref data
  return .error data
def to_unpromoted (data : Ptr) : Option Nat :=
  if is_unpromoted data then some (data.addr >>> RESERVED_BIT_DATA) else none
/-- As `as_unpromoted`, for a mutable reference. -/
def as_unpromoted_mut (data : Ptr) : Exec Heap (Except Ptr Nat) := as_unpromoted data
/-- As `as_unpromoted`, for the box itself. -/
def into_unpromoted (data : Ptr) : Exec Heap (Except Ptr Nat) := as_unpromoted data

def mask_payload {σ : Type} (data : Ptr) (value : Nat) : Exec σ Ptr := do
  check .panic (is_unpromoted data)
  check .panic (value &&& MSB = 0)
  return { data with addr := wrap (value <<< RESERVED_BIT_DATA) ||| DATA_UNPROMOTED }

def promote_with_vec (vec : Vec) (ref_count : Nat) : Exec Heap Ptr := do
  let H ← get
  let shared : Shared := ⟨ref_count,vec.ptr,vec.cap⟩
  set { H with nodes := H.nodes.insert ⟨A.node H,shared⟩ }
  return ⟨A.node H,H.nodes.bound⟩

/-! ### The count -/

def is_unique (shared : Ptr) : Exec Heap Bool := do
  return (← deref shared).ref_count == 1

/-- Change the count of a node. -/
def recount (shared : Ptr) (f : Nat → Nat) : Exec Heap Unit :=
  modify fun H => { H with nodes := H.nodes.update shared.prov fun boxed =>
    { boxed with shared := { boxed.shared with ref_count := f boxed.shared.ref_count } } }
def fetch_add (shared : Ptr) : Exec Heap Nat := do
  let old := (← deref shared).ref_count
  recount shared (· + 1)
  return old
def fetch_sub (shared : Ptr) : Exec Heap Nat := do
  let old := (← deref shared).ref_count
  recount shared (· - 1)
  return old
/-- Free the box of a node. -/
def free (shared : Ptr) : Exec Heap Unit :=
  modify fun H => { H with nodes := H.nodes.free shared.prov }

def increment (shared : Ptr) : Exec Heap Unit := do
  let old_size ← fetch_add shared
  if old_size > isizeMax then stop .abort

def release (shared : Ptr) : Exec Heap Unit := do
  if (← fetch_sub shared) ≠ 1 then return
  let node ← deref shared
  Vec.drop (← Vec.from_raw_parts node.ptr 0 node.cap)
  free shared

def release_into_vec (shared : Ptr) (len : Nat) : Exec Heap (Option Vec) := do
  if (← fetch_sub shared) ≠ 1 then return none
  let node ← deref shared
  let vec ← Vec.from_raw_parts node.ptr len node.cap
  free shared
  return some vec

end Shared
end Tcio
