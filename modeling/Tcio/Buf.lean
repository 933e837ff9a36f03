import Tcio.Invariant

/-!
Cursors over bytes: slices, `Bytes` and `BytesMut`, and what `chain`, `take` and
references build from them. A method takes the cursor and gives back the cursor it has
become, as `&mut self` does; a tree of cursors owns the handles at its leaves.
-/
namespace Tcio
open Exec Method

/-- `usize::MAX`. -/
def usizeMax : Nat := 2^64-1

/-- A borrowed slice; like any Rust object it takes up at most `isize::MAX` bytes. -/
structure Slice where
  bytes : List UInt8
  small : bytes.length ≤ isizeMax

namespace Slice
def len (s : Slice) : Nat := s.bytes.length
def drop (s : Slice) (n : Nat) : Slice := ⟨s.bytes.drop n,(List.length_drop ▸ Nat.sub_le ..).trans s.small⟩
end Slice

/-- A value of a type that implements `Buf`. -/
inductive Buf where
  | slice (s : Slice)
  | bytes (b : Bytes)
  | bytesMut (m : BytesMut)
  | chain (a b : Buf)
  | take (inner : Buf) (limit : Nat)
  /-- `&mut T` -/
  | refMut (inner : Buf)
  /-- `Box<T>` -/
  | boxed (inner : Buf)

namespace Buf

def remaining : Buf → Nat
  | slice s => s.len
  | bytes b => b.len
  | bytesMut m => m.len
  -- saturating_add
  | chain a b => min (a.remaining+b.remaining) usizeMax
  | take inner limit => min inner.remaining limit
  | refMut t => t.remaining
  | boxed t => t.remaining
def has_remaining (self : Buf) : Bool := 0 < self.remaining

def chunk : Buf → Exec Heap (List UInt8)
  | slice s => pure s.bytes
  | bytes b => b.as_slice
  | bytesMut m => m.as_slice
  | chain a b => if a.has_remaining then a.chunk else b.chunk
  | take inner limit => do
    let bytes ← inner.chunk
    return bytes.take (min bytes.length limit)
  | refMut t => t.chunk
  | boxed t => t.chunk

def advance : Buf → Nat → Exec Heap Buf
  | slice s,cnt => do
    check .panic (cnt ≤ s.len)
    return slice (s.drop cnt)
  | bytes b,cnt => do
    let (_,b) ← lend b (Bytes.advance cnt)
    return bytes b
  | bytesMut m,cnt => do
    let (_,m) ← lend m (BytesMut.advance cnt)
    return bytesMut m
  | chain a b,cnt => do
    let a_rem := a.remaining
    let a ← a.advance (min a_rem cnt)
    if a_rem ≤ cnt then return chain a (← b.advance (cnt-a_rem))
    return chain a b
  | take inner limit,cnt => do
    check .panic (cnt ≤ limit)
    return take (← inner.advance cnt) (limit-cnt)
  | refMut t,cnt => return refMut (← t.advance cnt)
  | boxed t,cnt => return boxed (← t.advance cnt)

/-! ### `copy_to_slice` -/

/-- A round of the default loop, on the cursor, what was filled in and what is left of
    the destination. -/
def copy_round : Method (Buf × List UInt8 × List UInt8) (Option Unit) := do
  let (buf,filled,dst) ← self
  if dst.isEmpty then return some ()
  let src ← onFst buf.chunk
  let cnt := min src.length dst.length
  let buf ← onFst (buf.advance cnt)
  put (buf,filled++src.take cnt,dst.drop cnt)
  return none
/-- The default of the trait; the loop ends within as many rounds as there are bytes. -/
def copy_to_slice_default (self : Buf) (dst : List UInt8) : Exec Heap (List UInt8 × Buf) := do
  check .panic (dst.length ≤ self.remaining)
  let (_,buf,filled,_) ← lend (self,[],dst) (loop copy_round (dst.length+1))
  return (filled,buf)
/-- The destination when it is filled, and the cursor behind it. -/
def copy_to_slice : Buf → List UInt8 → Exec Heap (List UInt8 × Buf)
  | slice s,dst => do
    check .panic (dst.length ≤ s.len)
    return (s.bytes.take dst.length,← (slice s).advance dst.length)
  | bytes b,dst => do
    let src ← b.as_slice
    check .panic (dst.length ≤ src.length)
    return (src.take dst.length,← (bytes b).advance dst.length)
  | bytesMut m,dst => do
    let src ← m.as_slice
    check .panic (dst.length ≤ src.length)
    return (src.take dst.length,← (bytesMut m).advance dst.length)
  | chain a b,dst => (chain a b).copy_to_slice_default dst
  | take inner limit,dst => (take inner limit).copy_to_slice_default dst
  | refMut t,dst => do
    let (filled,t) ← t.copy_to_slice dst
    return (filled,refMut t)
  | boxed t,dst => do
    let (filled,t) ← t.copy_to_slice dst
    return (filled,boxed t)

/-! ### What a cursor stands for -/

/-- The handles that the cursor owns. -/
def handles : Buf → List Handle
  | slice _ => []
  | bytes b => [.bytes b]
  | bytesMut m => [.bytesMut m]
  | chain a b => a.handles++b.handles
  | take inner _ => inner.handles
  | refMut t => t.handles
  | boxed t => t.handles

/-- The bytes that are left, where the handles have views. -/
def content (H : Heap) : Buf → List UInt8
  | slice s => s.bytes
  | bytes b => ((Handle.bytes b).view H).getD []
  | bytesMut m => ((Handle.bytesMut m).view H).getD []
  | chain a b => a.content H++b.content H
  | take inner limit => (inner.content H).take limit
  | refMut t => t.content H
  | boxed t => t.content H

end Buf
end Tcio
