import Tcio.BufMut
import Tcio.Polling
import Tcio.Vectored

/-!
`AsyncWrite`: a writer takes bytes from the front of a slice, or of a cursor which is then
advanced by the bytes that it took. `poll_write_all_buf` goes on until the cursor is empty
or the writer is not ready, fails, or takes nothing.
-/
namespace Tcio
open Exec Method

/-- What kind of `io::Error` is returned. -/
inductive ErrorKind where
  | WriteZero
  /-- The other kinds, told apart by a number. -/
  | other (n : Nat)
  deriving DecidableEq, Repr

abbrev IoResult (α : Type) := Except ErrorKind α

/-- The type of `poll_write` of a writer. -/
abbrev PollWrite (W : Type) := List UInt8 → Exec W (Poll (IoResult Nat))

namespace AsyncWrite
variable {W : Type} (poll_write : PollWrite W)

/-- On the cursor, which the caller lends, and the writer. -/
def poll_write_buf : Exec ((Heap × Buf) × W) (Poll (IoResult Nat)) := do
  let chunk ← onFst (do onFst (← self).chunk)
  match ← onSnd (poll_write chunk) with
  | .ready (.ok write) =>
    onFst (replace fun buf => buf.advance write)
    return .ready (.ok write)
  | .ready (.error err) => return .ready (.error err)
  | .pending => return .pending

/-- The default of the trait: the first slice that is not empty, or an empty one. -/
def poll_write_vectored (bufs : List (List UInt8)) : Exec W (Poll (IoResult Nat)) :=
  let buf := (bufs.find? fun b => !b.isEmpty).getD []
  poll_write buf

/-- On the cursor, which the caller lends, and the writer; `io_slice` has 64 entries. -/
def poll_write_buf_vectored : Exec ((Heap × Buf) × W) (Poll (IoResult Unit)) := do
  let io_slice ← onFst (do onFst ((← self).chunks_vectored 64))
  -- `io_slice[..cnt]`
  check .panic (io_slice.length ≤ 64)
  match ← onSnd (poll_write_vectored poll_write io_slice) with
  | .ready (.ok write) =>
    onFst (replace fun buf => buf.advance write)
    return .ready (.ok ())
  | .ready (.error err) => return .ready (.error err)
  | .pending => return .pending

/-- A round of the loop, which `none` goes on with. -/
def write_round : Exec ((Heap × Buf) × W) (Option (Poll (IoResult Unit))) := do
  if !(← onFst self).has_remaining then return some (.ready (.ok ()))
  match ← poll_write_buf poll_write with
  | .ready (.ok read) =>
    if read = 0 then return some (.ready (.error .WriteZero))
    return none
  | .ready (.error err) => return some (.ready (.error err))
  | .pending => return some .pending
/-- The loop of the source has no bound on its rounds. -/
def poll_write_all_buf (rounds : Nat) : Exec ((Heap × Buf) × W) (Poll (IoResult Unit)) :=
  loop (write_round poll_write) rounds

end AsyncWrite

/-- `poll_write` of `&mut [u8]`: it takes the slice out of the writer and copies all of
    `buf` into the first half. -/
def MutSlice.poll_write : PollWrite (MutSlice UInt8) := fun buf => do
  let me ← get
  let cnt := min me.len buf.length
  -- `mem::take` leaves an empty slice
  set (me.skip me.len)
  -- `copy_from_slice` needs as many bytes as it is given
  check .panic (buf.length = cnt)
  set ((← me.fill buf).skip cnt)
  return .ready (.ok cnt)

end Tcio
