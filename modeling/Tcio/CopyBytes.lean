import Tcio.Buf

/-!
`copy_to_bytes`, which the types of cursors override: a handle gives a part of itself, a
chain that has to join its parts copies both into a new buffer. `BytesMut::put` writes a
cursor into the buffer, or takes over what `copy_to_bytes` gives where it has no capacity.
-/
namespace Tcio
open Exec Method

namespace Buf

/-- The bytes at the leaves; a loop that consumes the cursor ends within as many rounds. -/
def size : Buf → Nat
  | slice s => s.len
  | bytes b => b.len
  | bytesMut m => m.len
  | chain a b => a.size+b.size
  | take inner _ => inner.size
  | refMut t => t.size
  | boxed t => t.size

/-- What stands for a cursor that is no more. -/
def gone : Buf := slice ⟨[],Nat.zero_le _⟩
/-- Drop a cursor: what it only borrows is left. -/
def drop : Buf → Exec Heap Buf
  | slice _ => return gone
  | bytes b => do
    b.drop
    return gone
  | bytesMut m => do
    m.drop
    return gone
  | chain a b => return chain (← a.drop) (← b.drop)
  | take inner limit => return take (← inner.drop) limit
  | refMut t => return refMut t
  | boxed t => return boxed (← t.drop)
/-- What `&mut t` and `(&mut t).take(limit)` borrow. -/
def borrowed : Buf → Buf
  | refMut t => t
  | take inner _ => inner.borrowed
  | t => t

end Buf

/-! ### `put` -/

/-- A round of the loop that appends chunk after chunk. -/
def extend_round {S : Type} (extend : List UInt8 → Method S Unit) : Exec ((Heap × S) × Buf) (Option Unit) := do
  let (_,src) ← get
  if ¬ src.has_remaining then return some ()
  let s ← onFst (onFst src.chunk)
  onFst (extend s)
  let src ← onFst (onFst (src.advance s.length))
  modify fun p => (p.1,src)
  return none
/-- Append the whole cursor. -/
def extend_all {S : Type} (extend : List UInt8 → Method S Unit) (src : Buf) : Method S Buf := do
  let (_,src) ← lend src (loop (extend_round extend) (src.size+1))
  return src

/-- `BytesMut::put`; `copy_to_bytes` is that of the source. The source is dropped, and
    what it borrowed is returned. -/
def BytesMut.put (A : Allocator) (copy_to_bytes : Nat → Exec Heap (Bytes × Buf)) (src : Buf) : Method BytesMut Buf := do
  let me ← self
  if ¬ src.has_remaining then onFst src.drop
  else if me.capacity = 0 then
    let (src_copy,src) ← onFst (copy_to_bytes src.remaining)
    let src ← onFst src.drop
    if ← onFst src_copy.is_unique then
      let bufm ← onFst (src_copy.into_mut A)
      onFst me.drop
      Method.put bufm
    else
      let data ← onFst src_copy.as_slice
      BytesMut.extend_from_slice A data
      onFst src_copy.drop
    return src
  else
    BytesMut.reserve A src.remaining
    let src ← extend_all (BytesMut.extend_from_slice A) src
    onFst src.drop

/-! ### `copy_to_bytes` -/

namespace Buf
variable (A : Allocator)

/-- `copy_to_bytes` of `Take`, of `&mut T` and of `Box<T>`, from that of the inner cursor. -/
def copy_take (copy_to_bytes : Nat → Exec Heap (Bytes × Buf)) (limit len : Nat) : Exec Heap (Bytes × Buf) := do
  check .panic (len ≤ limit)
  let (ret,inner) ← copy_to_bytes len
  return (ret,take inner (limit-len))
def copy_ref (copy_to_bytes : Nat → Exec Heap (Bytes × Buf)) (len : Nat) : Exec Heap (Bytes × Buf) := do
  let (ret,t) ← copy_to_bytes len
  return (ret,refMut t)
def copy_boxed (copy_to_bytes : Nat → Exec Heap (Bytes × Buf)) (len : Nat) : Exec Heap (Bytes × Buf) := do
  let (ret,t) ← copy_to_bytes len
  return (ret,boxed t)

/-- The bytes, and the cursor behind them. -/
def copy_to_bytes : Buf → Nat → Exec Heap (Bytes × Buf)
  | slice s,len => do
    check .panic (len ≤ s.len)
    return (← Bytes.copy_from_slice A (s.bytes.take len),slice (s.drop len))
  | bytes b,len => do
    let (front,b) ← lend b (Bytes.split_to A len)
    return (front,bytes b)
  | bytesMut m,len => do
    let (front,m) ← lend m (BytesMut.split_to A len)
    return (← front.freeze A,bytesMut m)
  | chain a b,len => do
    let a_rem := a.remaining
    if a_rem ≥ len then
      let (ret,a) ← a.copy_to_bytes len
      return (ret,chain a b)
    else if a_rem = 0 then
      let (ret,b) ← b.copy_to_bytes len
      return (ret,chain a b)
    else
      check .panic (len ≤ wrap (a_rem+b.remaining))
      let bufm ← BytesMut.with_capacity A len
      let (a,bufm) ← lend bufm (BytesMut.put A (copy_ref a.copy_to_bytes) (refMut a))
      let (b,bufm) ← lend bufm (BytesMut.put A (copy_take (copy_ref b.copy_to_bytes) (len-a_rem)) (take (refMut b) (len-a_rem)))
      return (← bufm.freeze A,chain a.borrowed b.borrowed)
  | take inner limit,len => copy_take inner.copy_to_bytes limit len
  | refMut t,len => copy_ref t.copy_to_bytes len
  | boxed t,len => copy_boxed t.copy_to_bytes len
/-- The default of the trait. -/
def copy_to_bytes_default (self : Buf) (len : Nat) : Exec Heap (Bytes × Buf) := do
  check .panic (len ≤ self.remaining)
  let ret ← BytesMut.with_capacity A len
  let (src,ret) ← lend ret (BytesMut.put A (copy_take (copy_ref (self.copy_to_bytes A)) len) (take (refMut self) len))
  return (← ret.freeze A,src.borrowed)

end Buf
end Tcio
