import Tcio.ReadSpec
import Tcio.WriteVectored

/-!
A `BytesMut` between a stream and a writer. The stream is read into it, and slices are put
behind what it holds; a writer, a reader and frames that are split off take what it holds
from the front. Whatever the order of the calls, and also where some panic, the bytes leave
in the order in which they came, and a frame keeps its bytes while the buffer moves on.
-/
namespace Tcio
open Exec AsyncRead AsyncWrite

/-- The buffer and the frames that are held; what came and what is gone is noted. -/
structure Relay (T W : Type) where
  heap : Heap
  buf : BytesMut
  /-- Each with the bytes that it was split off with. -/
  frames : List (Bytes × List UInt8)
  stream : T
  writer : W
  came : List UInt8
  gone : List UInt8

namespace Relay
variable {T W : Type}

inductive Op where
  /-- `poll_read` of the stream -/
  | poll_read
  /-- `poll_read` of a slice -/
  | poll_read_slice (s : Slice)
  /-- `io::Write` -/
  | write (s : Slice)
  /-- `io::Read` -/
  | read (buf : List UInt8)
  | poll_write_buf
  | poll_write_buf_vectored
  | poll_write_all_buf
  /-- `split_to` and `freeze` -/
  | frame (n : Nat)
  /-- A frame is dropped. -/
  | release (i : Nat)
  | reserve (n : Nat)
  | try_reclaim (n : Nat)

/-- The buffer behind `&mut BytesMut`, which is a `BytesMut` again. -/
def as_dst (old : BytesMut) : BufMut → BytesMut
  | .bytesMut m => m
  | _ => old
def as_src (old : BytesMut) : Buf → BytesMut
  | .bytesMut m => m
  | _ => old

def onBuf {α : Type} (x : Method BytesMut α) : Exec (Relay T W) α :=
  zoom (fun s => (s.heap,s.buf)) (fun s p => { s with heap := p.1,buf := p.2 }) x
def onHeap {α : Type} (x : Exec Heap α) : Exec (Relay T W) α := zoom heap (fun s H => { s with heap := H }) x
/-- Read into the buffer from a stream that notes its polls. -/
def reading {α : Type} (x : Exec ((Heap × BufMut) × T × List Fill) α) : Exec (Relay T W) α :=
  zoom (fun s => ((s.heap,.bytesMut s.buf),s.stream,[])) (fun s p =>
    { s with heap := p.1.1,buf := as_dst s.buf p.1.2,stream := p.2.1,came := s.came++arrived p.2.2 }) x
/-- Read into the buffer from a slice, of which the rest is left. -/
def reading_slice {α : Type} (slice : Slice) (x : Exec ((Heap × BufMut) × Slice) α) : Exec (Relay T W) α :=
  zoom (fun s => ((s.heap,.bytesMut s.buf),slice)) (fun s p =>
    { s with heap := p.1.1,buf := as_dst s.buf p.1.2,came := s.came++slice.bytes.take (slice.len-p.2.len) }) x
/-- Write out of the buffer to a writer that notes its calls. -/
def writing {α : Type} (x : Exec ((Heap × Buf) × W × List AsyncWrite.Call) α) : Exec (Relay T W) α :=
  zoom (fun s => ((s.heap,.bytesMut s.buf),s.writer,[])) (fun s p =>
    { s with heap := p.1.1,buf := as_src s.buf p.1.2,writer := p.2.1,gone := s.gone++accepted p.2.2 }) x

variable (A : Allocator) (tokio_read : TokioRead T) (poll_write : PollWrite W)

def exec : Op → Exec (Relay T W) Unit
  | .poll_read => do let _ ← reading (stream_poll_read A (noted tokio_read))
  | .poll_read_slice s => do let _ ← reading_slice s (slice_poll_read A)
  | .write s => do
    let _ ← onBuf (BytesMut.write A s.bytes)
    modify fun t => { t with came := t.came++s.bytes }
  | .read buf => do
    let (read,buf) ← onBuf (BytesMut.read buf)
    let n := match read with
      | .ok n => n
      | .error _ => 0
    modify fun t => { t with gone := t.gone++buf.take n }
  | .poll_write_buf => do let _ ← writing (AsyncWrite.poll_write_buf (logged poll_write))
  | .poll_write_buf_vectored => do let _ ← writing (AsyncWrite.poll_write_buf_vectored (logged poll_write))
  | .poll_write_all_buf => do let _ ← writing (AsyncWrite.poll_write_all_buf (logged poll_write) ((← get).buf.len+1))
  | .frame n => do
    let front ← onBuf (BytesMut.split_to A n)
    let frame ← onHeap (front.freeze A)
    let bytes ← onHeap frame.as_slice
    modify fun t => { t with frames := t.frames++[(frame,bytes)],gone := t.gone++bytes }
  | .release i => do
    let (frame,_) ← ofOption .stuck (← get).frames[i]?
    modify fun t => { t with frames := t.frames.eraseIdx i }
    onHeap frame.drop
  | .reserve n => onBuf (BytesMut.reserve A n)
  | .try_reclaim n => do let _ ← onBuf (BytesMut.try_reclaim A n)

/-- A call, which returns or panics. -/
def Step (op : Op) (s t : Relay T W) : Prop :=
  (∃ a, exec A tokio_read poll_write op s = (.ok a,t)) ∨ exec A tokio_read poll_write op s = (.error .panic,t)
/-- Calls in any order. -/
def Run : Relay T W → Relay T W → Prop := Relation.ReflTransGen fun s t => ∃ op, Step A tokio_read poll_write op s t

end Relay
end Tcio
