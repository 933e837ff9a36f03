import Tcio.Integer

/-!
Buffers that bytes are written into: mutable slices, vectors, `BytesMut` and chains of
these. A method runs on the heap and the buffer its `self` is borrowed from, so that a
panic leaves both as they were left.
-/
namespace Tcio
open Exec Method

namespace Method
variable {S T α : Type}

/-- Run a method on a part of the value that `self` is borrowed from. -/
def within (t : T) (whole : T → S) (x : Method T α) : Method S α := zoom (fun p => (p.1,t)) (fun _ q => (q.1,whole q.2)) x
/-- Replace `self` by what becomes of it. -/
def replace (f : S → Exec Heap S) : Method S Unit := do
  put (← onFst (f (← self)))

variable {p : Heap × S} {t : T} {whole : T → S} {x : Method T α} {f : S → Exec Heap S}

@[simp] theorem sat_within {Q : α → Heap × S → Prop} {E : Stop → Heap × S → Prop} : Sat (within t whole x) p Q E ↔
    Sat x (p.1,t) (fun a q => Q a (q.1,whole q.2)) (fun k q => E k (q.1,whole q.2)) := sat_zoom
@[simp] theorem sat_replace {Q : Unit → Heap × S → Prop} {E : Stop → Heap × S → Prop} : Sat (replace f) p Q E ↔
    Sat (f p.2) p.1 (fun s H => Q () (H,s)) (fun k H => E k (H,p.2)) := by
  simp only [replace,sat_bind,sat_self,sat_onFst,sat_put]

end Method

namespace Vec
variable (A : Allocator)

/-- The standard library at least doubles the capacity, and starts at eight bytes. -/
def reserve (additional : Nat) : Method Vec Unit := do
  let me ← self
  if additional > me.cap-me.len then
    let capacity := max (max (me.cap*2) (me.len+additional)) 8
    let new_vec ← onFst (Vec.with_capacity A capacity)
    onFst (Heap.copy_nonoverlapping me.ptr new_vec.ptr me.len)
    onFst me.drop
    put { new_vec with len := me.len }
def set_len (new_len : Nat) : Method Vec Unit := do
  put { ← self with len := new_len }
/-- Write into the first of the spare capacity, without changing the length. -/
def spare_capacity_mut (self : Vec) (v : List UInt8) : Exec Heap Unit := do
  check .fault (v.length ≤ (← usize_sub self.cap self.len))
  Heap.write (self.ptr.add self.len) v
def extend_from_slice (extend : List UInt8) : Method Vec Unit := do
  reserve A extend.length
  let me ← self
  onFst (me.spare_capacity_mut extend)
  set_len (me.len+extend.length)
end Vec

/-- The memory a mutable slice is borrowed from: the cells that it has left behind and
    those it still covers, at most `isize::MAX` of them. -/
structure MutSlice (β : Type) where
  behind : List β
  rest : List β
  small : rest.length ≤ isizeMax

namespace MutSlice
variable {σ β : Type}

def len (s : MutSlice β) : Nat := s.rest.length
/-- What is left of the slice behind its first `n` cells. -/
def skip (s : MutSlice β) (n : Nat) : MutSlice β :=
  ⟨s.behind++s.rest.take n,s.rest.drop n,(List.length_drop ▸ Nat.sub_le ..).trans s.small⟩
/-- Write the first cells. -/
def fill (s : MutSlice β) (v : List β) : Exec σ (MutSlice β) :=
  if inside : v.length ≤ s.rest.length then
    pure ⟨s.behind,v++s.rest.drop v.length,by
      rw [List.length_append,List.length_drop,Nat.add_sub_cancel' inside]
      exact s.small⟩
  else stop .fault

theorem fill_ok {t : σ} {s : MutSlice β} {v : List β} (inside : v.length ≤ s.rest.length) :
    ∃ s' : MutSlice β, s.fill v t = (.ok s',t) ∧ s'.behind = s.behind ∧ s'.rest = v++s.rest.drop v.length := by
  simp only [fill,dif_pos inside]
  exact ⟨_,rfl,rfl,rfl⟩
end MutSlice

/-- A value of a type that implements `BufMut`. -/
inductive BufMut where
  /-- `&mut [u8]` -/
  | slice (s : MutSlice UInt8)
  /-- `&mut [MaybeUninit<u8>]`, some of whose cells may hold no byte. -/
  | uninit (s : MutSlice (Option UInt8))
  /-- `&mut UninitSlice` -/
  | uninitSlice (s : MutSlice (Option UInt8))
  | vec (v : Vec)
  | bytesMut (m : BytesMut)
  | chain (a b : BufMut)

namespace BufMut

def remaining_mut : BufMut → Nat
  | slice s => s.len
  | uninit s => s.len
  | uninitSlice s => s.len
  | vec v => isizeMax-v.len
  | bytesMut m => isizeMax-m.len
  -- saturating_add
  | chain a b => min (a.remaining_mut+b.remaining_mut) usizeMax
def has_remaining_mut (self : BufMut) : Bool := 0 < self.remaining_mut

variable (A : Allocator)

/-- Make room for a chunk and give its length; `self` is the buffer it is called on. -/
def chunk_mut : BufMut → Method BufMut Nat
  | slice s => pure s.len
  | uninit s => pure s.len
  | uninitSlice s => pure s.len
  | vec v => within v vec do
    if v.cap = v.len then Vec.reserve A 64
    let v ← self
    usize_sub v.cap v.len
  | bytesMut m => within m bytesMut do
    if m.cap = m.len then BytesMut.reserve A 64
    let m ← self
    usize_sub m.cap m.len
  | chain a b =>
    if a.has_remaining_mut then within a (fun a => chain a b) a.chunk_mut else within b (chain a) b.chunk_mut
/-- Write into the first bytes of the chunk that `chunk_mut` returns. -/
def write_chunk (v : List UInt8) : BufMut → Exec Heap BufMut
  | slice s => return slice (← s.fill v)
  | uninit s => return uninit (← s.fill (v.map some))
  | uninitSlice s => return uninitSlice (← s.fill (v.map some))
  | vec x => do
    x.spare_capacity_mut v
    return vec x
  | bytesMut m => do
    m.spare_capacity_mut v
    return bytesMut m
  | chain a b => do
    if a.has_remaining_mut then return chain (← a.write_chunk v) b
    return chain a (← b.write_chunk v)
/-- More than the slice has left is undefined behaviour. -/
def advance_mut (cnt : Nat) : BufMut → Exec Heap BufMut
  | slice s => do
    check .fault (cnt ≤ s.len)
    return slice (s.skip cnt)
  | uninit s => do
    check .fault (cnt ≤ s.len)
    return uninit (s.skip cnt)
  | uninitSlice s => do
    check .fault (cnt ≤ s.len)
    return uninitSlice (s.skip cnt)
  | vec v => do
    let (_,v) ← lend v (Vec.set_len (v.len+cnt))
    return vec v
  | bytesMut m => do
    let (_,m) ← lend m (BytesMut.set_len (m.len+cnt))
    return bytesMut m
  | chain a b => do
    let a_rem := a.remaining_mut
    let a ← a.advance_mut (min a_rem cnt)
    if a_rem ≤ cnt then return chain a (← b.advance_mut (cnt-a_rem))
    return chain a b

/-! ### Writing -/

/-- A round of the default loop, on the buffer and what is left of the source. -/
def put_slice_round : Exec ((Heap × BufMut) × List UInt8) (Option Unit) := do
  let (_,src) ← get
  if src.isEmpty then return some ()
  let dst ← onFst (do (← self).chunk_mut A)
  let cnt := min src.length dst
  onFst (replace (write_chunk (src.take cnt)))
  modify fun (p,src) => (p,src.drop cnt)
  onFst (replace (advance_mut cnt))
  return none
/-- The default of the trait; the loop ends within as many rounds as there are bytes. -/
def put_slice_default (src : List UInt8) : Method BufMut Unit := do
  check .panic (src.length ≤ (← self).remaining_mut)
  let _ ← lend src (loop (put_slice_round A) (src.length+1))
/-- `put_slice` of `&mut UninitSlice` has put an empty slice in its place when it panics. -/
def put_slice (src : List UInt8) : Method BufMut Unit := do
  match ← self with
  | slice s =>
    check .panic (src.length ≤ s.len)
    put (slice ((← s.fill src).skip src.length))
  | uninit s =>
    check .panic (src.length ≤ s.len)
    put (uninit ((← s.fill (src.map some)).skip src.length))
  | uninitSlice s =>
    put (uninitSlice (s.skip s.len))
    check .panic (src.length ≤ s.len)
    put (uninitSlice ((← s.fill (src.map some)).skip src.length))
  | vec v => within v vec (Vec.extend_from_slice A src)
  | bytesMut m => within m bytesMut (BytesMut.extend_from_slice A src)
  | chain _ _ => put_slice_default A src

/-- The body of the two methods for single bytes. -/
def put_byte (n : UInt8) : Method BufMut Unit := do
  check .panic ((← self).has_remaining_mut)
  let chunk ← (← self).chunk_mut A
  check .panic (0 < chunk)
  replace (write_chunk [n])
  replace (advance_mut 1)
def put_u8 (n : UInt8) : Method BufMut Unit := put_byte A n
/-- The byte of the same bits. -/
def put_i8 (n : Int8) : Method BufMut Unit := put_byte A n.toUInt8

variable (target : ByteOrder)

/-- The `put_` methods of the macro. -/
def put_int (ty : IntTy) (endian : Endian) (n : ty.Value) : Method BufMut Unit :=
  put_slice A ((endian.order target).to_bytes n)
/-- The `put_` method for a type and a byte order. -/
def put_value (ty : IntTy) (endian : Endian) (n : ty.Value) : Method BufMut Unit :=
  match ty with
  | .u8 => put_u8 A (.ofBitVec n)
  | .i8 => put_i8 A (.ofBitVec n)
  | ty => put_int A target ty endian n

end BufMut
end Tcio
