import Tcio.WriteAll

/-!
A vectored write through a writer that has only `poll_write`. Of the slices that a cursor
offers the first is its chunk, so that the writer is called with the same bytes and the
cursor moves on in the same way, whatever was left out among the other slices.
-/
namespace Tcio
open Exec Buf

namespace Buf
variable {H : Heap} {R : List Handle} {buf : Buf}

/-- The chunk is the first piece of the cursor. -/
theorem chunk_front (sound : buf.Sound H R) : buf.chunk H = (.ok (buf.rope H).front,H) := by
  induction buf generalizing R with
  | slice s => rfl
  | bytes b =>
    obtain ⟨v,view⟩ := sound.viewed (h := .bytes b) (List.mem_singleton_self _)
    rw [rope,view]
    exact read_ok view
  | bytesMut m =>
    obtain ⟨v,view⟩ := sound.viewed (h := .bytesMut m) (List.mem_singleton_self _)
    rw [rope,view]
    exact read_ok view
  | chain a b left right =>
    have some' := has_remaining_iff sound.left
    rw [chunk,rope,Rope.front,content_rope]
    by_cases none : a.content H = []
    · rw [if_neg (by simp [some',none]),none]
      exact right sound.left.swap
    · rw [if_pos (some'.mpr none),left sound.left,if_neg (by simpa using none)]
  | take inner limit ih =>
    have same : (inner.rope H).front.take (min (inner.rope H).front.length limit) = (inner.rope H).front.take limit := by
      rw [Nat.min_comm,← List.take_take,List.take_length]
    rw [chunk,ok_bind (ih sound),rope,Rope.front,same]
    rfl
  | refMut t ih => exact ih sound
  | boxed t ih => exact ih sound

end Buf

namespace AsyncWrite
variable {W : Type} {poll_write : PollWrite W} {H : Heap} {R : List Handle} {buf : Buf} {w : W}

/-- One call of `poll_write` with these bytes, after which the cursor is moved on by what
    the writer took; `f` tells what is returned of that. -/
def polled {α : Type} (poll_write : PollWrite W) (bytes : List UInt8) (f : Nat → α) : Exec ((Heap × Buf) × W) (Poll (IoResult α)) := do
  match ← onSnd (poll_write bytes) with
  | .ready (.ok write) =>
    onFst (Method.replace fun buf => buf.advance write)
    return .ready (.ok (f write))
  | .ready (.error err) => return .ready (.error err)
  | .pending => return .pending

/-- What is left of a result when the count is dropped. -/
def forget : Poll (IoResult Nat) → Poll (IoResult Unit)
  | .ready r => .ready (r.map fun _ => ())
  | .pending => .pending

theorem poll_write_buf_eq (sound : buf.Sound H R) :
    poll_write_buf poll_write ((H,buf),w) = polled poll_write (buf.rope H).front id ((H,buf),w) := by
  have chunk : (onFst (do onFst (← Method.self).chunk) : Exec ((Heap × Buf) × W) (List UInt8)) ((H,buf),w) =
      (.ok (buf.rope H).front,(H,buf),w) := by
    refine run_eq ?_
    simp only [sat_onFst,sat_bind,Method.sat_self,sat_of_ok (chunk_front sound)]
    exact ⟨trivial,trivial⟩
  exact ok_bind chunk

theorem poll_write_buf_vectored_eq (sound : buf.Sound H R) :
    poll_write_buf_vectored poll_write ((H,buf),w) = polled poll_write (buf.rope H).front (fun _ => ()) ((H,buf),w) := by
  have slices : (onFst (do onFst ((← Method.self).chunks_vectored 64)) : Exec ((Heap × Buf) × W) (List (List UInt8))) ((H,buf),w) =
      (.ok ((buf.rope H).slices LEN 64),(H,buf),w) := by
    refine run_eq ?_
    simp only [sat_onFst,sat_bind,Method.sat_self,sat_of_ok (chunks_vectored_ok sound)]
    exact ⟨trivial,trivial⟩
  have first := Rope.find_slices (r := buf.rope H) (show 0 < LEN by decide) (show 0 < 64 by decide)
  rw [poll_write_buf_vectored,ok_bind slices,ok_bind (check_ok Rope.length_slices)]
  simp only [poll_write_vectored,first]
  rfl

theorem polled_forget {bytes : List UInt8} : polled poll_write bytes (fun _ => ()) = forget <$> polled poll_write bytes id := by
  simp only [polled,map_bind]
  congr 1
  funext r
  cases r with
  | pending => rfl
  | ready r =>
    cases r with
    | error err => rfl
    | ok write =>
      simp only [map_bind,map_pure]
      rfl

/-- Through a writer that has only `poll_write`, both ways of writing call it once and with
    the same bytes, the chunk of the cursor; they leave the writer and the cursor alike, and
    return alike but for the count. -/
theorem vectored_alike (sound : buf.Sound H R) : ∃ bytes, buf.chunk H = (.ok bytes,H) ∧
    poll_write_buf poll_write ((H,buf),w) = polled poll_write bytes id ((H,buf),w) ∧
    poll_write_buf_vectored poll_write ((H,buf),w) = polled poll_write bytes (fun _ => ()) ((H,buf),w) ∧
    poll_write_buf_vectored poll_write ((H,buf),w) = (forget <$> poll_write_buf poll_write) ((H,buf),w) := by
  have once : poll_write_buf poll_write ((H,buf),w) = polled poll_write (buf.rope H).front id ((H,buf),w) := poll_write_buf_eq sound
  have vectored : poll_write_buf_vectored poll_write ((H,buf),w) = polled poll_write (buf.rope H).front (fun _ => ()) ((H,buf),w) :=
    poll_write_buf_vectored_eq sound
  refine ⟨_,chunk_front sound,once,vectored,?_⟩
  rw [vectored,polled_forget]
  exact (map_congr once).symm

/-- A write of the joined cursor through a writer that takes two bytes at most. -/
theorem vectored_alike_joined : ∃ w, World.JoinableRun (bump 0) (World.start []) w ∧
    poll_write_buf_vectored slow ((w.heap,joined),true) = (forget <$> poll_write_buf slow) ((w.heap,joined),true) := by
  obtain ⟨w,run,_,sound,_⟩ := joined_sound
  refine ⟨w,run,?_⟩
  obtain ⟨_,_,_,_,alike⟩ := vectored_alike sound
  exact alike

end AsyncWrite
end Tcio
