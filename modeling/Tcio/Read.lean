import Tcio.Write

/-!
`AsyncRead`: a reader puts what it has into a buffer and says how much that is. `io::Read`
takes the front of a handle out into a slice, and `io::Write` puts a slice behind what a
`BytesMut` holds.
-/
namespace Tcio
open Exec Method

namespace AsyncRead

/-- `poll_read` of `&[u8]`, on the buffer, which the caller lends, and the slice. -/
def slice_poll_read (A : Allocator) : Exec ((Heap × BufMut) × Slice) (Poll (IoResult Nat)) := do
  let me ← onSnd get
  let cnt := min me.len (← onFst self).remaining_mut
  -- split_at
  onFst (BufMut.put_slice A (me.bytes.take cnt))
  onSnd (set (me.drop cnt))
  return .ready (.ok cnt)

/-- `TokioRead::poll_read` of a stream, on a `ReadBuf` that has room for so many bytes: the
    bytes that it has filled where it is ready. -/
abbrev TokioRead (T : Type) := Nat → Exec T (Poll (IoResult (List UInt8)))

/-- `poll_read` of `TcpStream` and `UnixStream`. -/
def stream_poll_read {T : Type} (A : Allocator) (tokio_read : TokioRead T) : Exec ((Heap × BufMut) × T) (Poll (IoResult Nat)) := do
  let read ← onFst (do (← self).chunk_mut A)
  match ← onSnd (tokio_read read) with
  | .ready (.ok filled) =>
    -- the stream has written into the chunk
    onFst (replace fun buf => buf.write_chunk filled)
    onFst (replace fun buf => buf.advance_mut filled.length)
    return .ready (.ok filled.length)
  | .ready (.error err) => return .ready (.error err)
  | .pending => return .pending

end AsyncRead

/-! ### `io::Read` and `io::Write` -/

/-- The slice that is read into comes back with what is returned. -/
def Bytes.read (buf : List UInt8) : Method Bytes (IoResult Nat × List UInt8) := do
  let me ← self
  let read := min buf.length me.len
  let bytes ← onFst me.as_slice
  Bytes.advance read
  return (.ok read,bytes.take read++buf.drop read)

namespace BytesMut

def read (buf : List UInt8) : Method BytesMut (IoResult Nat × List UInt8) := do
  let me ← self
  let read := min buf.length me.len
  let bytes ← onFst me.as_slice
  advance read
  return (.ok read,bytes.take read++buf.drop read)

def write (A : Allocator) (buf : List UInt8) : Method BytesMut (IoResult Nat) := do
  extend_from_slice A buf
  return .ok buf.length

end BytesMut

/-- `poll_write` of `Vec<u8>`. -/
def Vec.poll_write (A : Allocator) (buf : List UInt8) : Method Vec (Poll (IoResult Nat)) := do
  extend_from_slice A buf
  return .ready (.ok buf.length)

end Tcio
