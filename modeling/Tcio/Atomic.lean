import Tcio.Views

/-!
Calls of several threads on the handles of shared buffers, each cut into its atomic steps:
one change or read of a count, one copy of bytes, or one free of a buffer. Threads take
their steps in any order. What a step does is what the code does between two such points;
the box of a node whose count has become zero is freed with the step that took the last
reference, since no one else can reach it.
-/
namespace Tcio
open Exec

/-- A call on a handle, before one of its steps. -/
inductive Call where
  /-- `into_vec` is about to give up its reference. -/
  | into_vec (b : Bytes)
  /-- Others were left, and it is about to copy the bytes out. -/
  | into_vec_copy (b : Bytes)
  /-- It was the last, and it is about to move the bytes to the start of the buffer. -/
  | into_vec_back (b : Bytes) (advanced : Nat) (vec : Vec)
  | into_mut (b : Bytes)
  | into_mut_copy (b : Bytes)
  /-- `Shared::release`, after which the call returns `back`. -/
  | release (h : Handle) (back : Option Handle)
  /-- The buffer is about to be freed. -/
  | free (vec : Vec) (back : Option Handle)
  | reserve (m : BytesMut) (additional : Nat)
  /-- The handle is alone, and its bytes are about to be moved to the start of the buffer. -/
  | reserve_back (m : BytesMut) (shared_ptr : Ptr)
  /-- The bytes are about to be copied to a new buffer. -/
  | reserve_copy (m : BytesMut) (additional : Nat)
  | freeze (m : BytesMut)
  | as_mut_slice (m : BytesMut) (at_ : Nat) (v : List UInt8)
  deriving DecidableEq, Repr

/-- What a step leads to: the rest of the call, or the handle it returns. -/
inductive Next where
  | go (c : Call)
  | ret (back : Option Handle)
  deriving DecidableEq, Repr

namespace Call

/-- The handle on which the call may begin. A drop is the release of its reference, or the
    free of the buffer that the handle owns. -/
def begins (h : Handle) : Call → Bool
  | .into_vec b => h = .bytes b ∧ hold b.data = .promoted
  | .into_mut b => h = .bytes b ∧ hold b.data = .promoted
  | .release h' back => h' = h ∧ hold h.data = .promoted ∧ back = none
  | .free vec back =>
    match hold h.data with
    | .unpromoted offset => vec = ⟨h.ptr.sub offset,h.len+offset,h.room+offset⟩ ∧ back = none
    | _ => false
  | .reserve m _ => h = .bytesMut m ∧ hold m.data = .promoted
  | .freeze m => h = .bytesMut m ∧ hold m.data = .promoted
  | .as_mut_slice m _ _ => h = .bytesMut m
  | _ => false

/-- The view a handle that the call returns is to have, if it is called on one that views `v`. -/
def outcome (v : List UInt8) : Call → List UInt8
  | .as_mut_slice _ at_ u => v.take at_++u++v.drop (at_+u.length)
  | _ => v

variable (A : Allocator)

def step : Call → Exec Heap Next
  | .into_vec b => do
    let node ← Shared.deref b.data
    match ← Shared.release_into_vec b.data node.cap with
    | some vec =>
      check .fault (b.ptr.prov = node.ptr.prov)
      let advanced ← usize_sub b.ptr.addr node.ptr.addr
      return .go (.into_vec_back b advanced vec)
    | none => return .go (.into_vec_copy b)
  | .into_vec_copy b => do
    let vec ← Vec.to_vec A (← b.as_slice)
    return .ret (some (.vec vec))
  | .into_vec_back b advanced vec => do
    if advanced ≠ 0 then
      if advanced ≥ b.len then Heap.copy_nonoverlapping b.ptr vec.ptr b.len
      else Heap.copy b.ptr vec.ptr b.len
    return .ret (some (.vec { vec with len := b.len }))
  | .into_mut b => do
    let node ← Shared.deref b.data
    match ← Shared.release_into_vec b.data node.cap with
    | some vec =>
      check .fault (b.ptr.prov = node.ptr.prov)
      let head ← usize_sub b.ptr.addr node.ptr.addr
      let (_,bufm) ← lend (BytesMut.from_vec vec) (do
        BytesMut.advance_unchecked head
        BytesMut.set_len b.len)
      return .ret (some (.bytesMut bufm))
    | none => return .go (.into_mut_copy b)
  | .into_mut_copy b => do
    let vec ← Vec.to_vec A (← b.as_slice)
    return .ret (some (.bytesMut (BytesMut.from_vec vec)))
  | .release h back => do
    if (← Shared.fetch_sub h.data) ≠ 1 then return .ret back
    let node ← Shared.deref h.data
    let vec ← Vec.from_raw_parts node.ptr 0 node.cap
    Shared.free h.data
    return .go (.free vec back)
  | .free vec back => do
    vec.drop
    return .ret back
  | .reserve m additional => do
    if (← usize_sub m.cap m.len) ≥ additional then return .ret (some (.bytesMut m))
    check .panic (wrap (additional+m.cap) ≤ isizeMax)
    if !(← Shared.is_unique m.data) then return .go (.reserve_copy m additional)
    let node ← Shared.deref m.data
    check .fault (m.ptr.prov = node.ptr.prov)
    let offset ← usize_sub m.ptr.addr node.ptr.addr
    let remaining_tail ← usize_sub node.cap (m.cap+offset)
    let m := { m with cap := m.cap+remaining_tail }
    if remaining_tail ≥ additional then return .ret (some (.bytesMut m))
    let remaining := offset + (← usize_sub m.cap m.len)
    if remaining ≥ additional ∧ offset ≥ m.len then return .go (.reserve_back m node.ptr)
    return .go (.reserve_copy m additional)
  | .reserve_back m shared_ptr => do
    let offset ← usize_sub m.ptr.addr shared_ptr.addr
    Heap.copy_nonoverlapping m.ptr shared_ptr m.len
    return .ret (some (.bytesMut { m with ptr := shared_ptr, cap := m.cap+offset }))
  | .reserve_copy m additional => do
    let capacity := max (wrap (m.cap*2)) (wrap (m.len+additional))
    let new_vec ← Vec.with_capacity A capacity
    Heap.copy_nonoverlapping m.ptr new_vec.ptr m.len
    return .go (.release (.bytesMut m) (some (.bytesMut ⟨new_vec.ptr,m.len,new_vec.cap,Shared.new_unpromoted⟩)))
  | .freeze m => return .ret (some (.bytes (Bytes.from_mut m.data m)))
  | .as_mut_slice m at_ v => do
    m.as_mut_slice at_ v
    return .ret (some (.bytesMut m))

/-- The handle that its owner is left with when the call panics. -/
def unwound : Call → Option Handle
  | .reserve m _ => some (.bytesMut m)
  | .reserve_copy m _ => some (.bytesMut m)
  | .as_mut_slice m _ _ => some (.bytesMut m)
  | _ => none

/-! ### What a step touches -/

/-- The handle whose bytes the call has still to copy, though it gave its reference up. -/
def pending : Call → Option Bytes
  | .into_vec_copy b => some b
  | .into_mut_copy b => some b
  | _ => none
/-- The buffer that the step frees. -/
def frees : Call → Option Nat
  | .free vec _ => blockOf vec.ptr vec.cap
  | _ => none
/-- The bytes that the step writes in a buffer it was given. -/
def writes : Call → Option Region
  | .into_vec_back b advanced vec =>
    if advanced = 0 then none else some ⟨vec.ptr.prov,vec.ptr.addr,vec.ptr.addr+b.len⟩
  | .reserve_back m shared_ptr => some ⟨shared_ptr.prov,shared_ptr.addr,shared_ptr.addr+m.len⟩
  | .as_mut_slice m at_ v => some ⟨m.ptr.prov,m.ptr.addr+at_,m.ptr.addr+at_+v.length⟩
  | _ => none
/-- The step neither frees the buffer of a range nor writes in the range. -/
def Spares (c : Call) (p : Ptr) (n : Nat) : Prop :=
  0 < n → c.frees ≠ some p.prov ∧ ∀ r, c.writes = some r → Region.Apart ⟨p.prov,p.addr,p.addr+n⟩ r

end Call

/-! ### Threads -/

/-- What a thread does with its handle. `view` is what a handle that the call returns is to
    view, as it was when the call began. -/
inductive Task where
  | idle (h : Handle)
  | busy (view : List UInt8) (c : Call)
  | gone
  deriving DecidableEq, Repr

def Task.of : Option Handle → Task
  | some h => .idle h
  | none => .gone

/-- The threads on one heap. -/
structure Threads where
  heap : Heap
  tasks : List Task

inductive Move where
  | begin (i : Nat) (c : Call)
  | tick (i : Nat)

namespace Threads

/-- The handles of a pool, each on a thread of its own. -/
def of (w : World) : Threads := ⟨w.heap,w.handles.map .idle⟩

def put (M : Threads) (i : Nat) (H : Heap) (t : Task) : Threads := ⟨H,M.tasks.set i t⟩

/-- A thread begins a call, or takes the next step of its call. -/
def move (A : Allocator) (M : Threads) : Move → Option Threads
  | .begin i c =>
    match M.tasks[i]? with
    | some (.idle h) =>
      if c.begins h then (h.view M.heap).map fun v => M.put i M.heap (.busy (c.outcome v) c) else none
    | _ => none
  | .tick i =>
    match M.tasks[i]? with
    | some (.busy v c) =>
      match c.step A M.heap with
      | (.ok (.go c'),H') => some (M.put i H' (.busy v c'))
      | (.ok (.ret back),H') => some (M.put i H' (.of back))
      | (.error .panic,H') => some (M.put i H' (.of c.unwound))
      | _ => none
    | _ => none

/-- The step leaves the bytes alone that other calls have still to copy. -/
def Undisturbed (M : Threads) : Move → Prop
  | .begin _ _ => True
  | .tick i => ∀ v (c : Call), M.tasks[i]? = some (.busy v c) → ∀ u (c' : Call) b, Task.busy u c' ∈ M.tasks → c'.pending = some b →
    c.Spares b.ptr b.len

end Threads
end Tcio
