import Tcio.Shared

/-!
`BytesMut`: a unique view of a part of a buffer, with room to grow behind it.
A method that takes `&mut self` runs on the heap and the handle together.
-/
namespace Tcio
open Exec

structure BytesMut where
  ptr : Ptr
  len : Nat
  cap : Nat
  data : Ptr
  deriving DecidableEq, Repr

/-- A method on the heap and the value its `self` is borrowed from. -/
abbrev Method (S α : Type) := Exec (Heap × S) α

namespace Method
variable {S α : Type}
def self : Method S S := do return (← get).2
def put (s : S) : Method S Unit := modify fun p => (p.1,s)

variable {p : Heap × S} {s : S} {E : Stop → Heap × S → Prop}

@[simp] theorem sat_self {Q : S → Heap × S → Prop} : Sat self p Q E ↔ Q p.2 p := Iff.rfl
@[simp] theorem sat_put {Q : Unit → Heap × S → Prop} : Sat (put s) p Q E ↔ Q () (p.1,s) := Iff.rfl
end Method

open Method

namespace BytesMut
variable (A : Allocator)

/-! ### Constructors and getters -/

def from_vec (vec : Vec) : BytesMut := ⟨vec.ptr,vec.len,vec.cap,Shared.new_unpromoted⟩
def new : BytesMut := from_vec Vec.new
def with_capacity (capacity : Nat) : Exec Heap BytesMut := do
  return from_vec (← Vec.with_capacity A capacity)
def copy_from_slice (slice : List UInt8) : Exec Heap BytesMut := do
  return from_vec (← Vec.to_vec A slice)
def clone (self : BytesMut) : Exec Heap BytesMut := do
  copy_from_slice A (← Heap.read self.ptr self.len)

def is_empty (self : BytesMut) : Bool := self.len == 0
def capacity (self : BytesMut) : Nat := self.cap
def as_slice (self : BytesMut) : Exec Heap (List UInt8) := Heap.read self.ptr self.len
/-- Write through `as_mut_slice`, from index `at_` on. -/
def as_mut_slice (self : BytesMut) (at_ : Nat) (v : List UInt8) : Exec Heap Unit := do
  check .panic (at_+v.length ≤ self.len)
  Heap.write (self.ptr.add at_) v
def set_len (new_len : Nat) : Method BytesMut Unit := do
  put { ← self with len := new_len }
def original_buffer (self : BytesMut) (offset : Nat) : Exec Heap Vec :=
  Vec.from_raw_parts (self.ptr.sub offset) (self.len+offset) (self.cap+offset)

/-! ### Allocation -/

/-- The unpromoted half of `reserve_inner`. -/
def reserve_unpromoted (offset additional : Nat) (allocate : Bool) : Method BytesMut Bool := do
  let me ← self
  let remaining := offset + (← usize_sub me.cap me.len)
  -- Case 1, copy the data backwards
  if remaining ≥ additional ∧ offset ≥ me.len then
    let buf_ptr := me.ptr.sub offset
    onFst (Heap.copy_nonoverlapping me.ptr buf_ptr me.len)
    let data ← Shared.mask_payload me.data 0
    put { me with ptr := buf_ptr, cap := me.cap+offset, data }
    return true
  if !allocate then return false
  let capacity := max (wrap (me.cap*2)) (wrap (me.len+additional))
  let new_vec ← onFst (Vec.with_capacity A capacity)
  onFst (Heap.copy_nonoverlapping me.ptr new_vec.ptr me.len)
  onFst (do Vec.drop (← me.original_buffer offset))
  let data ← Shared.mask_payload me.data 0
  put { me with ptr := new_vec.ptr, cap := new_vec.cap, data }
  return true

/-- What `reserve_inner` reclaims of a buffer whose node is `shared`: the leftover
    tail, then the head. It tells whether that is enough. -/
def reclaim_promoted (shared : Ptr) (additional : Nat) : Method BytesMut Bool := do
  let node ← onFst (Shared.deref shared)
  let me ← self
  check .fault (me.ptr.prov = node.ptr.prov)
  let offset ← usize_sub me.ptr.addr node.ptr.addr
  let remaining_tail ← usize_sub node.cap (me.cap+offset)
  let me := { me with cap := me.cap+remaining_tail }
  put me
  -- Case 2
  if remaining_tail ≥ additional then return true
  let remaining := offset + (← usize_sub me.cap me.len)
  -- Case 1, copy the data backwards
  if remaining ≥ additional ∧ offset ≥ me.len then
    onFst (Heap.copy_nonoverlapping me.ptr node.ptr me.len)
    put { me with ptr := node.ptr, cap := me.cap+offset }
    return true
  return false

/-- The reallocation at the end of the promoted half of `reserve_inner`. -/
def reallocate_promoted (shared : Ptr) (additional : Nat) : Method BytesMut Unit := do
  let me ← self
  let capacity := max (wrap (me.cap*2)) (wrap (me.len+additional))
  let new_vec ← onFst (Vec.with_capacity A capacity)
  onFst (Heap.copy_nonoverlapping me.ptr new_vec.ptr me.len)
  onFst (Shared.release shared)
  put { me with ptr := new_vec.ptr, cap := new_vec.cap, data := Shared.new_unpromoted }

def reserve_inner (additional : Nat) (allocate : Bool) : Method BytesMut Bool := do
  if additional = 0 then return true
  let me ← self
  check .panic (wrap (additional+me.cap) ≤ isizeMax)
  match ← onFst (Shared.as_unpromoted_mut me.data) with
  | .ok offset => reserve_unpromoted A offset additional allocate
  | .error shared =>
    if ← onFst (Shared.is_unique shared) then
      if ← reclaim_promoted shared additional then return true
    if !allocate then return false
    reallocate_promoted A shared additional
    return true

def reserve (additional : Nat) : Method BytesMut Unit := do
  let me ← self
  if (← usize_sub me.cap me.len) ≥ additional then return
  let _ ← reserve_inner A additional true
def try_reclaim (additional : Nat) : Method BytesMut Bool := do
  let me ← self
  if (← usize_sub me.cap me.len) ≥ additional then return true
  reserve_inner A additional false
def try_reclaim_full : Method BytesMut Bool := do
  let me ← self
  let additional ← match ← onFst (Shared.as_unpromoted me.data) with
    | .ok offset => do pure (offset + (← usize_sub me.cap me.len))
    | .error shared => do usize_sub (← onFst (Shared.deref shared)).cap me.len
  reserve_inner A additional false

/-! ### Read -/

def advance_unchecked (count : Nat) : Method BytesMut Unit := do
  if count = 0 then return
  let me ← self
  let data ← match ← onFst (Shared.as_unpromoted me.data) with
    | .ok offset => Shared.mask_payload me.data (offset+count)
    | .error _ => pure me.data
  let cap ← usize_sub me.cap count
  put { ptr := me.ptr.add count, len := me.len-count, cap, data }
/-- To a pointer into the view. -/
def advance_to_ptr (ptr : Ptr) : Method BytesMut Unit := do
  advance_unchecked (← ptr.offset_from_unsigned (← self).ptr)
/-- `Buf::advance` of `BytesMut`. -/
def advance (cnt : Nat) : Method BytesMut Unit := do
  check .panic (cnt ≤ (← self).len)
  advance_unchecked cnt
def truncate (len : Nat) : Method BytesMut Unit := do
  let me ← self
  if len < me.len then put { me with len }
def truncate_off (off : Nat) : Method BytesMut Unit := do
  let me ← self
  if off ≤ me.len then put { me with len := me.len-off }
def clear : Method BytesMut Unit := do
  put { ← self with len := 0 }

/-! ### Splitting -/

def shallow_clone : Method BytesMut BytesMut := do
  let me ← self
  match ← onFst (Shared.as_unpromoted me.data) with
  | .ok offset =>
    let vec ← onFst (me.original_buffer offset)
    put { me with data := ← onFst (Shared.promote_with_vec A vec 2) }
  | .error shared => onFst (Shared.increment shared)
  self

def try_split_to (at_ : Nat) : Method BytesMut (Option BytesMut) := do
  if at_ > (← self).len then return none
  let clone ← shallow_clone A
  advance_unchecked at_
  return some { clone with cap := at_, len := at_ }
def split_to (at_ : Nat) : Method BytesMut BytesMut := do
  ofOption .panic (← try_split_to A at_)
def split : Method BytesMut BytesMut := do
  split_to A (← self).len
/-- `split_to` at the distance of a pointer from the start of the view. -/
def split_to_ptr (addr : Nat) : Method BytesMut BytesMut := do
  let me ← self
  check .panic (me.ptr.addr ≤ addr)
  split_to A (addr-me.ptr.addr)

def try_split_off (at_ : Nat) : Method BytesMut (Option BytesMut) := do
  if at_ > (← self).cap then return none
  let other ← shallow_clone A
  let (_,other) ← onFst (lend other (advance_unchecked at_))
  let me ← self
  put { me with cap := at_, len := min me.len at_ }
  return some other
def split_off (at_ : Nat) : Method BytesMut BytesMut := do
  ofOption .panic (← try_split_off A at_)
def split_off_ptr (addr : Nat) : Method BytesMut BytesMut := do
  let me ← self
  check .panic (me.ptr.addr ≤ addr)
  split_off A (addr-me.ptr.addr)

/-! ### Write -/

/-- Write into the first of the spare capacity, without changing the length. -/
def spare_capacity_mut (self : BytesMut) (v : List UInt8) : Exec Heap Unit := do
  check .fault (v.length ≤ (← usize_sub self.cap self.len))
  Heap.write (self.ptr.add self.len) v

def extend_from_slice (extend : List UInt8) : Method BytesMut Unit := do
  reserve A extend.length
  let me ← self
  onFst (me.spare_capacity_mut extend)
  put { me with len := me.len+extend.length }

def drop (self : BytesMut) : Exec Heap Unit := do
  match ← Shared.into_unpromoted self.data with
  | .ok offset => Vec.drop (← self.original_buffer offset)
  | .error shared => Shared.release shared

/-- Gives `other` back where it cannot be absorbed; where it is, `other` is dropped
    once `self` has taken its range over. -/
def try_unsplit (other : BytesMut) : Method BytesMut (Except BytesMut Unit) := do
  if other.cap = 0 then
    onFst other.drop
    return .ok ()
  let me ← self
  if (me.ptr.add me.len).addr = other.ptr.addr ∧ Shared.is_promoted me.data ∧ Shared.is_promoted other.data then
    put { me with len := me.len+other.len, cap := me.cap+other.cap }
    onFst other.drop
    return .ok ()
  return .error other

def unsplit (other : BytesMut) : Method BytesMut Unit := do
  let me ← self
  if me.is_empty then
    onFst me.drop
    put other
    return
  match ← try_unsplit other with
  | .error other =>
    ensure (do extend_from_slice A (← onFst other.as_slice)) (onFst other.drop)
  | .ok _ => return

end BytesMut
end Tcio
