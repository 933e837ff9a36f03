import Tcio.Rope
import Tcio.Puts

/-!
`chunks_vectored`: the slices that a cursor offers for a vectored write, as many as the
destination has entries. `Take` collects those of the cursor it limits in 32 entries of its
own, so it may offer fewer slices than the destination has room for. A `Chain` does not
notice and goes on with its second half: the bytes in between are left out.
-/
namespace Tcio
open Exec

namespace Buf

/-- How many entries `Take` has of its own. -/
def LEN : Nat := 32

/-- The loop of `Take`, over the slices of the inner cursor. -/
def trim : Nat → List (List UInt8) → List (List UInt8)
  | _,[] => []
  | limit,s :: slices => if limit ≤ s.length then [s.take limit] else s :: trim (limit-s.length) slices

/-- The default of the trait. -/
def chunks_vectored_default (self : Buf) (dst : Nat) : Exec Heap (List (List UInt8)) := do
  if dst = 0 then return []
  if self.has_remaining then return [← self.chunk]
  return []
/-- The slices written into a destination of `dst` entries. -/
def chunks_vectored : Buf → Nat → Exec Heap (List (List UInt8))
  | slice s,dst => (slice s).chunks_vectored_default dst
  | bytes b,dst => (bytes b).chunks_vectored_default dst
  | bytesMut m,dst => (bytesMut m).chunks_vectored_default dst
  | chain a b,dst => do
    let first ← a.chunks_vectored dst
    check .panic (first.length ≤ dst)
    return first++(← b.chunks_vectored (dst-first.length))
  | take inner limit,dst => do
    if limit = 0 then return []
    let slices ← inner.chunks_vectored (min dst LEN)
    check .panic (slices.length ≤ dst)
    return trim limit slices
  | refMut t,dst => t.chunks_vectored dst
  | boxed t,dst => t.chunks_vectored dst

/-- The pieces that the cursor is made of. -/
def rope (H : Heap) : Buf → Rope UInt8
  | slice s => .leaf s.bytes
  | bytes b => .leaf (((Handle.bytes b).view H).getD [])
  | bytesMut m => .leaf (((Handle.bytesMut m).view H).getD [])
  | chain a b => .chain (a.rope H) (b.rope H)
  | take inner limit => .take (inner.rope H) limit
  | refMut t => t.rope H
  | boxed t => t.rope H

variable {H : Heap} {R : List Handle} {buf : Buf} {dst limit : Nat} {slices : List (List UInt8)}

theorem content_rope : (buf.rope H).content = buf.content H := by
  induction buf with
  | slice s => rfl
  | bytes b => rfl
  | bytesMut m => rfl
  | chain a b left right => rw [rope,Rope.content,left,right,content]
  | take inner limit ih => rw [rope,Rope.content,ih,content]
  | refMut t ih => exact ih
  | boxed t ih => exact ih

theorem trim_eq (some' : limit ≠ 0) : trim limit slices = Rope.cut limit slices := by
  induction slices generalizing limit with
  | nil => rfl
  | cons s slices ih =>
    rw [trim,Rope.cut_cons,if_neg some']
    split_ifs with inside
    · rfl
    · rw [ih (by omega)]

/-- A contiguous cursor offers all its bytes in one slice. -/
theorem default_ok (sound : buf.Sound H R) (ran : buf.chunk H = (.ok (buf.content H),H)) :
    buf.chunks_vectored_default dst H = (.ok ((Rope.leaf (buf.content H)).slices LEN dst),H) := by
  apply run_eq
  simp only [chunks_vectored_default,sat_ite,sat_pure,sat_bind,sat_of_ok ran,Rope.slices]
  refine ⟨fun none => ⟨by simp [none],trivial⟩,fun room => ⟨fun some' => ?_,fun none => ?_⟩⟩
  · have more := (has_remaining_iff sound).mp some'
    simp [room,more]
  · have empty : buf.content H = [] := by
      by_contra more
      exact none ((has_remaining_iff sound).mpr more)
    simp [empty]

theorem chunks_vectored_ok (sound : buf.Sound H R) : buf.chunks_vectored dst H = (.ok ((buf.rope H).slices LEN dst),H) := by
  induction buf generalizing R dst with
  | slice s => exact default_ok sound rfl
  | bytes b =>
    obtain ⟨v,view⟩ := sound.viewed (h := .bytes b) (List.mem_singleton_self _)
    refine default_ok sound ?_
    rw [content,view]
    exact read_ok view
  | bytesMut m =>
    obtain ⟨v,view⟩ := sound.viewed (h := .bytesMut m) (List.mem_singleton_self _)
    refine default_ok sound ?_
    rw [content,view]
    exact read_ok view
  | chain a b left right =>
    rw [chunks_vectored,ok_bind (left sound.left),ok_bind (check_ok Rope.length_slices),ok_bind (right sound.left.swap)]
    rfl
  | take inner limit ih =>
    rw [chunks_vectored,rope,Rope.slices]
    split_ifs with none
    · rw [none,Rope.cut_zero]
      rfl
    · have room : (Rope.slices LEN (inner.rope H) (min dst LEN)).length ≤ dst := Rope.length_slices.trans (Nat.min_le_left _ _)
      rw [ok_bind (ih sound),ok_bind (check_ok room),trim_eq none]
      rfl
  | refMut t ih => exact ih sound
  | boxed t ih => exact ih sound

/-- The slices are the first bytes of the cursor, and not empty where it is not. -/
def VectoredWell (H : Heap) (buf : Buf) (dst : Nat) : Prop :=
  Sat (buf.chunks_vectored dst) H
    (fun slices _ => slices.flatten <+: buf.content H ∧ (dst ≠ 0 → buf.content H ≠ [] → slices.flatten ≠ [])) (fun _ _ => False)

/-- The slices are right where no chain goes on behind a `Take` that ran out of entries,
    and only there when the bytes of different halves can be told apart. -/
theorem vectored_well_iff (sound : buf.Sound H R) :
    ((buf.rope H).InStep LEN dst (buf.content H).length → VectoredWell H buf dst) ∧
    ((buf.rope H).Distinct → VectoredWell H buf dst → (buf.rope H).InStep LEN dst (buf.content H).length) := by
  have pos : 0 < LEN := by decide
  rw [VectoredWell,sat_of_ok (chunks_vectored_ok sound),← content_rope]
  constructor
  · refine fun step => ⟨step.prefix_content,fun room some' none => ?_⟩
    rw [List.flatten_eq_nil_iff] at none
    obtain ⟨s,ss,listed⟩ := List.exists_cons_of_ne_nil (Rope.slices_ne_nil pos (Nat.pos_of_ne_zero room) some')
    have mem : s ∈ (buf.rope H).slices LEN dst := by
      rw [listed]
      exact List.mem_cons_self
    exact Rope.slices_some mem (none s mem)
  · intro distinct well
    exact Rope.in_step_of_prefix pos distinct ((List.take_prefix _ _).trans well.1)

theorem vectored_well_joined : ∃ w, World.JoinableRun (bump 0) (World.start []) w ∧ VectoredWell w.heap joined 2 := by
  obtain ⟨w,run,_,sound,_⟩ := joined_sound
  refine ⟨w,run,(vectored_well_iff sound).1 ?_⟩
  simp [joined,rope,Rope.InStep,Rope.Stops]

/-- One slice for each byte. -/
def row : List UInt8 → Buf
  | [] => slice ⟨[],Nat.zero_le _⟩
  | b :: v => chain (slice ⟨[b],show 1 ≤ isizeMax by decide⟩) (row v)

/-- The last of 33 bytes before another slice is left out. -/
theorem entry_skipped : ¬ ∀ (H : Heap) (R : List Handle) (buf : Buf) (dst : Nat), buf.Sound H R → VectoredWell H buf dst := by
  intro claim
  have well := claim (World.start []).heap [] (chain (take (row ((List.range 33).map UInt8.ofNat)) 33) (slice ⟨[99],by decide⟩)) 64
    (World.start_initial []).sound
  have ran : (chain (take (row ((List.range 33).map UInt8.ofNat)) 33) (slice ⟨[99],by decide⟩)).chunks_vectored 64 (World.start []).heap =
    (.ok (((List.range 32).map UInt8.ofNat++[99]).map fun b => [b]),(World.start []).heap) := rfl
  rw [VectoredWell,sat_of_ok ran] at well
  exact absurd well.1 (by decide +kernel)

end Buf
end Tcio
