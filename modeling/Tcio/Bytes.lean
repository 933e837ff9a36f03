import Tcio.BytesMut

/-!
`Bytes`: a view of a part of a static, a uniquely owned or a shared buffer.
-/
namespace Tcio
open Exec Method

structure Bytes where
  ptr : Ptr
  len : Nat
  data : Ptr
  deriving DecidableEq, Repr

/-- One end of a range, as `core::ops::Bound`. -/
inductive Bound where
  | Included (n : Nat)
  | Excluded (n : Nat)
  | Unbounded
  deriving DecidableEq, Repr

namespace Bytes
variable (A : Allocator)

/-! ### Constructors and getters -/

def from_static (ptr : Ptr) (len : Nat) : Bytes := ⟨ptr,len,Shared.null⟩
def new : Bytes := from_static Vec.new.ptr 0
def new_empty_with_ptr (ptr : Ptr) : Bytes := ⟨ptr,0,Shared.null⟩

def from_vec (vec : Vec) : Exec Heap Bytes := do
  if vec.len = 0 then
    vec.drop
    return new
  if vec.cap = vec.len then return ⟨vec.ptr,vec.len,Shared.new_unpromoted⟩
  return ⟨vec.ptr,vec.len,← Shared.promote_with_vec A vec 1⟩
/-- A box holds exactly as many bytes as it has room for. -/
def from_box (boxed : Vec) : Bytes := ⟨boxed.ptr,boxed.len,Shared.new_unpromoted⟩
def copy_from_slice (data : List UInt8) : Exec Heap Bytes := do
  from_vec A (← Vec.to_vec A data)
def from_mut (shared : Ptr) (bytesm : BytesMut) : Bytes := ⟨bytesm.ptr,bytesm.len,shared⟩

def is_empty (self : Bytes) : Bool := self.len == 0
def as_slice (self : Bytes) : Exec Heap (List UInt8) := Heap.read self.ptr self.len

/-! ### Atomic operations -/

def is_unique (self : Bytes) : Exec Heap Bool := do
  if Shared.is_null self.data then return false
  match ← Shared.as_unpromoted self.data with
  | .ok _ => return true
  | .error shared => Shared.is_unique shared

def build_unpromoted_vec (self : Bytes) (offset : Nat) : Exec Heap Vec :=
  let len := self.len+offset
  Vec.from_raw_parts (self.ptr.sub offset) len len

/-- The word is compared with the one loaded before, as another thread may have
    promoted the handle in between. -/
def promote_ref (offset : Nat) (shared : Ptr) : Method Bytes Bytes := do
  let me ← self
  let vec ← onFst (me.build_unpromoted_vec offset)
  let new_shared ← onFst (Shared.promote_with_vec A vec 2)
  let me ← self
  if me.data = shared then
    put { me with data := new_shared }
    return { me with data := new_shared }
  let promoted_shared := me.data
  onFst (Shared.release new_shared)
  onFst (Shared.increment promoted_shared)
  return { me with data := promoted_shared }

def clone_inner : Method Bytes Bytes := do
  let me ← self
  let shared := me.data
  if Shared.is_null shared then return { me with data := Shared.null }
  match ← onFst (Shared.as_unpromoted shared) with
  | .ok offset => promote_ref A offset shared
  | .error shared_ref =>
    onFst (Shared.increment shared_ref)
    return { me with data := shared }

def clone_inner_mut : Method Bytes Bytes := do
  let me ← self
  let shared := me.data
  if Shared.is_null shared then return { me with data := Shared.null }
  let data ← match ← onFst (Shared.as_unpromoted shared) with
    | .ok offset => do
      let vec ← onFst (me.build_unpromoted_vec offset)
      let new_shared ← onFst (Shared.promote_with_vec A vec 2)
      put { me with data := new_shared }
      pure new_shared
    | .error shared_ref => do
      onFst (Shared.increment shared_ref)
      pure shared
  return { ← self with data }

def drop_inner (self : Bytes) : Exec Heap Unit := do
  let shared := self.data
  if Shared.is_null shared then return
  match ← Shared.into_unpromoted shared with
  | .ok offset => Vec.drop (← self.build_unpromoted_vec offset)
  | .error shared => Shared.release shared
def drop (self : Bytes) : Exec Heap Unit := self.drop_inner
def clone : Method Bytes Bytes := clone_inner A

/-! ### View -/

def advance_unchecked (count : Nat) : Method Bytes Unit := do
  if count = 0 then return
  let me ← self
  let data ← match Shared.to_unpromoted me.data with
    | some offset => Shared.mask_payload me.data (offset+count)
    | none => pure me.data
  let len ← usize_sub me.len count
  put { ptr := me.ptr.add count, len, data }
def advance (cnt : Nat) : Method Bytes Unit := do
  check .panic (cnt ≤ (← self).len)
  advance_unchecked cnt
/-- To a pointer into the view. -/
def advance_to_ptr (ptr : Ptr) : Method Bytes Unit := do
  advance_unchecked (← ptr.offset_from_unsigned (← self).ptr)

/-- `n.checked_add(1).expect("out of range")`. -/
def bound_succ (n : Nat) : Method Bytes Nat := do
  check .panic (n+1 < 2^64)
  return n+1
def slice_bound (start_bound end_bound : Bound) : Method Bytes Bytes := do
  let me ← self
  let self_len := me.len
  let begin_ ← (match start_bound with
    | .Included n => pure n
    | .Excluded n => bound_succ n
    | .Unbounded => pure 0)
  let end_ ← (match end_bound with
    | .Included n => bound_succ n
    | .Excluded n => pure n
    | .Unbounded => pure self_len)
  check .panic (end_ ≤ self_len)
  check .panic (begin_ ≤ end_)
  let len := end_-begin_
  let ptr := me.ptr.add begin_
  if len = 0 then return new_empty_with_ptr ptr
  let cloned ← clone_inner A
  return { cloned with ptr, len }
def slice (start_bound end_bound : Bound) : Method Bytes Bytes := slice_bound A start_bound end_bound

/-- `addr` is the address of the slice; its end must not overflow a word. -/
def slice_from_raw (addr len : Nat) : Method Bytes Bytes := do
  let me ← self
  let self_addr := me.ptr.addr
  check .panic (addr+len < 2^64)
  check .panic (addr+len ≤ self_addr+me.len)
  check .panic (self_addr ≤ addr)
  let data := me.ptr.add (addr-self_addr)
  if len = 0 then return new_empty_with_ptr data
  let cloned ← clone_inner A
  return { cloned with ptr := data, len }
def slice_ref (addr len : Nat) : Method Bytes Bytes := slice_from_raw A addr len

def clear : Method Bytes Unit := do
  let me ← self
  onFst me.drop
  put (new_empty_with_ptr me.ptr)

/-! ### Splitting -/

def try_split_off (at_ : Nat) : Method Bytes (Option Bytes) := do
  let me ← self
  let len := me.len
  if at_ > len then return none
  if at_ = len then return some (new_empty_with_ptr (me.ptr.add len))
  if at_ = 0 then
    put (new_empty_with_ptr me.ptr)
    return some me
  let clone ← clone_inner_mut A
  let (_,clone) ← onFst (lend clone (advance_unchecked at_))
  put { ← self with len := at_ }
  return some clone
def split_off (at_ : Nat) : Method Bytes Bytes := do
  ofOption .panic (← try_split_off A at_)

def try_split_to (at_ : Nat) : Method Bytes (Option Bytes) := do
  let me ← self
  let len := me.len
  if at_ > len then return none
  if at_ = len then
    put (new_empty_with_ptr (me.ptr.add len))
    return some me
  if at_ = 0 then return some (new_empty_with_ptr me.ptr)
  let clone ← clone_inner_mut A
  advance_unchecked at_
  return some { clone with len := at_ }
def split_to (at_ : Nat) : Method Bytes Bytes := do
  ofOption .panic (← try_split_to A at_)

def truncate (len : Nat) : Method Bytes Unit := do
  let me ← self
  if len ≥ me.len then return
  if Shared.is_null me.data then
    put { me with len }
    return
  let rest ← split_off A len
  onFst rest.drop
def truncate_off (off : Nat) : Method Bytes Unit := do
  let me ← self
  if off ≤ me.len then truncate A (me.len-off)

/-! ### Conversions -/

def into_vec (bytes : Bytes) : Exec Heap Vec := do
  let shared := bytes.data
  if Shared.is_null shared then return ← Vec.to_vec A (← bytes.as_slice)
  let ptr := bytes.ptr
  let found ← match ← Shared.into_unpromoted shared with
    | .ok offset => do
      let vec ← bytes.build_unpromoted_vec offset
      pure (some (offset,vec))
    | .error shared => do
      let node ← Shared.deref shared
      match ← Shared.release_into_vec shared node.cap with
      | some vec =>
        check .fault (ptr.prov = node.ptr.prov)
        pure (some (← usize_sub ptr.addr node.ptr.addr,vec))
      | none => pure none
  match found with
  | some (advanced,vec) =>
    let len := bytes.len
    if advanced ≠ 0 then
      if advanced ≥ len then Heap.copy_nonoverlapping ptr vec.ptr len
      else Heap.copy ptr vec.ptr len
    return { vec with len }
  | none => Vec.to_vec A (← bytes.as_slice)

def into_mut (bytes : Bytes) : Exec Heap BytesMut := do
  let shared := bytes.data
  if Shared.is_null shared then return BytesMut.from_vec (← Vec.to_vec A (← bytes.as_slice))
  let ptr := bytes.ptr
  match ← Shared.into_unpromoted shared with
  | .ok offset =>
    let bufm := BytesMut.from_vec (← bytes.build_unpromoted_vec offset)
    let (_,bufm) ← lend bufm (BytesMut.advance_unchecked offset)
    return bufm
  | .error shared =>
    let node ← Shared.deref shared
    match ← Shared.release_into_vec shared node.cap with
    | some vec =>
      check .fault (ptr.prov = node.ptr.prov)
      let head ← usize_sub ptr.addr node.ptr.addr
      let (_,bufm) ← lend (BytesMut.from_vec vec) (do
        BytesMut.advance_unchecked head
        BytesMut.set_len bytes.len)
      return bufm
    | none => return BytesMut.from_vec (← Vec.to_vec A (← bytes.as_slice))

end Bytes

/-- `BytesMut::freeze`. -/
def BytesMut.freeze (A : Allocator) (me : BytesMut) : Exec Heap Bytes := do
  match ← Shared.as_unpromoted me.data with
  | .ok offset =>
    let bytes ← Bytes.from_vec A (← me.original_buffer offset)
    let (_,bytes) ← lend bytes (Bytes.advance offset)
    return bytes
  | .error _ => return Bytes.from_mut me.data me

end Tcio
