import Tcio.BufMut
import Tcio.CopyBytes

/-!
`BufMut::put`, which writes a whole cursor into a buffer: chunk by chunk from the one into
the other by default, while a vector and a `BytesMut` make room for all of it first.
-/
namespace Tcio
open Exec Method

variable (A : Allocator)

/-- `put` of `Vec<u8>`. -/
def Vec.put (src : Buf) : Method Vec Buf := do
  reserve A src.remaining
  let src ← extend_all (Vec.extend_from_slice A) src
  onFst src.drop

namespace BufMut

/-- A round of the default loop, on the buffer and the source. -/
def put_round : Exec ((Heap × BufMut) × Buf) (Option Unit) := do
  let (_,src) ← get
  if ¬ src.has_remaining then return some ()
  let dst ← onFst (do (← self).chunk_mut A)
  let s ← onFst (onFst src.chunk)
  let cnt := min s.length dst
  onFst (replace (write_chunk (s.take cnt)))
  onFst (replace (advance_mut cnt))
  let src ← onFst (onFst (src.advance cnt))
  modify fun p => (p.1,src)
  return none
/-- The default of the trait; the source is dropped, and what it borrowed is returned. -/
def put_default (src : Buf) : Method BufMut Buf := do
  check .panic (src.remaining ≤ (← self).remaining_mut)
  let (_,src) ← lend src (loop (put_round A) (src.size+1))
  onFst src.drop
def put (src : Buf) : Method BufMut Buf := do
  match ← self with
  | vec v => within v vec (Vec.put A src)
  | bytesMut m => within m bytesMut (BytesMut.put A (src.copy_to_bytes A) src)
  | _ => put_default A src
end BufMut
end Tcio
