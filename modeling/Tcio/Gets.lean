import Tcio.Integer
import Tcio.Run

/-!
What the integer methods return on any tree of cursors. Where enough bytes are left they
read the value that these encode and consume them. Where too few are left a `try_get_`
method of more than one byte does not return `None`: it fills an array through
`copy_to_slice`, and every implementation of that panics.
-/
namespace Tcio
open Exec

variable {A : Allocator} {target : ByteOrder} {H : Heap} {R : List Handle} {ty : IntTy} {endian : Endian} {n : Nat} {v : List UInt8}

namespace Buf
variable {buf buf' : Buf}

/-- The value that the first bytes encode. -/
def encoded (target : ByteOrder) (ty : IntTy) (endian : Endian) (v : List UInt8) : ty.Value :=
  (endian.order target).from_bytes ty.size (v.take ty.size)

/-- It returns `None` and leaves the cursor as it is where fewer bytes are left than the
    type has, and else the value of the first bytes, which it consumes; it does not panic. -/
def TriesWell (A : Allocator) (target : ByteOrder) (ty : IntTy) (endian : Endian) (H : Heap) (R : List Handle) (buf : Buf) : Prop :=
  Sat (buf.try_get target ty endian) H
    (fun r H' => (buf.remaining < ty.size → r = (none,buf) ∧ H' = H) ∧
      (ty.size ≤ buf.remaining → r.1 = some (encoded target ty endian (buf.content H)) ∧ Moves A H R ty.size buf H' r.2))
    (fun _ _ => False)

/-- The first byte, if there is one. -/
theorem first_spec {α : Type} (A : Allocator) (sound : buf.Sound H R) (f : UInt8 → α) : Sat (do
      match (← buf.chunk).head? with
      | some b => return (some (f b),← buf.advance 1)
      | none => return (none,buf)) H
    (fun r H' => H' = H ∧ ((buf.content H = [] ∧ r = (none,buf)) ∨
      ∃ b rest, buf.content H = b :: rest ∧ r.1 = some (f b) ∧ Moves A H R 1 buf H r.2)) (fun _ _ => False) := by
  obtain ⟨c,ran,_,begins,more⟩ := chunk_ok sound
  rw [sat_bind,sat_of_ok ran]
  cases c with
  | nil =>
    simp only [List.head?_nil,sat_pure]
    exact ⟨trivial,.inl ⟨by_contra fun some' => more some' rfl,trivial⟩⟩
  | cons b c =>
    obtain ⟨rest,whole⟩ := begins
    simp only [List.head?_cons,sat_bind,sat_pure]
    refine (advance_spec A sound (n := 1) (by decide)).mono ?_ ?_
    · rintro buf' _ ⟨rfl,moves⟩
      exact ⟨rfl,.inr ⟨b,c++rest,whole.symm,rfl,moves⟩⟩
    · rintro k _ ⟨_,_,short⟩
      simp [← whole] at short

/-- The methods of the macro read the value, or they panic. -/
theorem try_get_int_spec (A : Allocator) (sound : buf.Sound H R) : Sat (buf.try_get_int target ty endian) H
    (fun r H' => H' = H ∧ ty.size ≤ (buf.content H).length ∧ r.1 = some (encoded target ty endian (buf.content H)) ∧
      Moves A H R ty.size buf H r.2)
    (fun k _ => k = .panic ∧ (buf.content H).length < ty.size) := by
  have word : (List.replicate ty.size (0 : UInt8)).length ≤ usizeMax := by
    rw [List.length_replicate]
    exact ty.size_small.trans (by decide)
  simp only [try_get_int,sat_bind,sat_pure]
  refine (copy_to_slice_spec A sound word).mono ?_ ?_
  · rintro r _ ⟨rfl,inside,filled,moves⟩
    rw [List.length_replicate] at inside filled moves
    exact ⟨rfl,inside,by rw [filled]; rfl,moves⟩
  · rintro k _ ⟨panic,_,short⟩
    rw [List.length_replicate] at short
    exact ⟨panic,short⟩

theorem encoded_byte (target : ByteOrder) (endian : Endian) (b : UInt8) (rest : List UInt8) :
    (endian.order target).from_bytes 1 ((b :: rest).take 1) = b.toBitVec := by
  cases endian.order target <;> simp [ByteOrder.from_bytes,ByteOrder.from_le_bytes]

/-- A method that finds enough bytes reads the value. One that does not returns `None` if
    the type has a single byte and else panics. -/
theorem try_get_spec (A : Allocator) (sound : buf.Sound H R) : Sat (buf.try_get target ty endian) H
    (fun r H' => H' = H ∧ ((ty.size = 1 ∧ buf.content H = [] ∧ r = (none,buf)) ∨
      (ty.size ≤ (buf.content H).length ∧ r.1 = some (encoded target ty endian (buf.content H)) ∧ Moves A H R ty.size buf H r.2)))
    (fun k _ => k = .panic ∧ ty.size ≠ 1 ∧ (buf.content H).length < ty.size) := by
  have macro_ : 1 < ty.size → Sat (buf.try_get_int target ty endian) H
      (fun r H' => H' = H ∧ ((ty.size = 1 ∧ buf.content H = [] ∧ r = (none,buf)) ∨
        (ty.size ≤ (buf.content H).length ∧ r.1 = some (encoded target ty endian (buf.content H)) ∧ Moves A H R ty.size buf H r.2)))
      (fun k _ => k = .panic ∧ ty.size ≠ 1 ∧ (buf.content H).length < ty.size) := fun more =>
    (try_get_int_spec A sound).mono (fun r H' ⟨same,inside,value,moves⟩ => ⟨same,.inr ⟨inside,value,moves⟩⟩)
      (fun k _ ⟨panic,short⟩ => ⟨panic,by omega,short⟩)
  cases ty with
  | u8 =>
    simp only [try_get,sat_bind,sat_pure]
    refine (first_spec A sound id).mono ?_ (fun _ _ => False.elim)
    rintro r _ ⟨rfl,⟨none,rfl⟩ | ⟨b,rest,whole,value,moves⟩⟩
    · exact ⟨rfl,.inl ⟨rfl,none,rfl⟩⟩
    · refine ⟨rfl,.inr ⟨?_,?_,moves⟩⟩
      · simp [whole,IntTy.size]
      · rw [value,whole]
        exact congrArg some (encoded_byte target endian b rest).symm
  | i8 =>
    simp only [try_get,sat_bind,sat_pure]
    refine (first_spec A sound UInt8.toInt8).mono ?_ (fun _ _ => False.elim)
    rintro r _ ⟨rfl,⟨none,rfl⟩ | ⟨b,rest,whole,value,moves⟩⟩
    · exact ⟨rfl,.inl ⟨rfl,none,rfl⟩⟩
    · refine ⟨rfl,.inr ⟨?_,?_,moves⟩⟩
      · simp [whole,IntTy.size]
      · rw [value,whole]
        exact congrArg some (encoded_byte target endian b rest).symm
  | _ => exact macro_ (by decide)

/-- A `try_get_` method does what it promises for the types of a single byte, and where
    enough bytes are left. -/
theorem tries_well_iff (sound : buf.Sound H R) :
    TriesWell A target ty endian H R buf ↔ ty.size = 1 ∨ ty.size ≤ buf.remaining := by
  have rem := remaining_eq sound
  have small := ty.size_small
  have word : 16 ≤ usizeMax := by decide
  have spec : Sat (buf.try_get target ty endian) H _ _ := try_get_spec A sound
  constructor
  · intro well
    obtain ⟨r,H',ran,_,found⟩ | ⟨k,H',ran,no⟩ := spec.cases
    · rcases found with ⟨single,_⟩ | ⟨inside,_⟩
      · exact .inl single
      · exact .inr (by omega)
    · exact ((sat_of_error ran).mp well).elim
  · intro enough
    refine spec.mono ?_ ?_
    · rintro r _ ⟨rfl,⟨single,none,rfl⟩ | ⟨inside,value,moves⟩⟩
      · refine ⟨fun _ => ⟨rfl,rfl⟩,fun inside => ?_⟩
        rw [rem,none,single] at inside
        simp at inside
      · exact ⟨fun short => absurd short (by omega),fun _ => ⟨value,moves⟩⟩
    · rintro k _ ⟨_,other,short⟩
      omega

/-- Cursors over the handles of a state that a run reaches. -/
theorem Sound.of_run {w₀ w : World} (initial : w₀.Initial) (run : World.JoinableRun A w₀ w)
    (handles : w.handles.Perm (buf.handles++R)) : buf.Sound w.heap R :=
  (World.run_sound initial run).perm handles

/-- A `Bytes` and a `BytesMut`, which a chain puts together. -/
def fragments : List Op := [.bytes_copy_from_slice [1,2,3],.bytes_mut_copy_from_slice [4,5]]

theorem fragments_handles : (World.play (bump 0) fragments (World.start [])).map World.handles =
    some [.bytes ⟨⟨16,2⟩,3,⟨1,0⟩⟩,.bytesMut ⟨⟨19,3⟩,2,2,⟨1,0⟩⟩] := by
  decide +kernel

theorem fragments_sound : ∃ w, World.play (bump 0) fragments (World.start []) = some w ∧
    World.JoinableRun (bump 0) (World.start []) w ∧ w.handles = [.bytes ⟨⟨16,2⟩,3,⟨1,0⟩⟩,.bytesMut ⟨⟨19,3⟩,2,2,⟨1,0⟩⟩] := by
  obtain ⟨w,played,handles⟩ := Option.map_eq_some_iff.mp fragments_handles
  refine ⟨w,played,World.play_run (fun op mem w w' step => ⟨op,?_,step⟩) played,handles⟩
  simp only [fragments,List.mem_cons,List.not_mem_nil,or_false] at mem
  rcases mem with rfl | rfl <;> trivial

theorem tries_well_fragments : ∃ w, World.JoinableRun (bump 0) (World.start []) w ∧
    TriesWell (bump 0) .little .u32 .native w.heap []
      (chain (bytes ⟨⟨16,2⟩,3,⟨1,0⟩⟩) (take (boxed (bytesMut ⟨⟨19,3⟩,2,2,⟨1,0⟩⟩)) 1)) := by
  obtain ⟨w,_,run,handles⟩ := fragments_sound
  refine ⟨w,run,(tries_well_iff (Sound.of_run (World.start_initial []) run ?_)).mpr (.inr (by decide))⟩
  rw [handles]
  exact List.Perm.refl _

/-- A slice that is too short for the type. -/
theorem short_panics : ¬ ∀ (A : Allocator) (target : ByteOrder) (ty : IntTy) (endian : Endian) (H : Heap) (R : List Handle) (buf : Buf),
    buf.Sound H R → TriesWell A target ty endian H R buf := by
  intro claim
  have well := claim (bump 0) .little .u16 .big (World.start []).heap [] (slice ⟨[1],by decide⟩) (World.start_initial []).sound
  have ran : (slice ⟨[1],by decide⟩).try_get .little .u16 .big (World.start []).heap = (.error .panic,(World.start []).heap) := rfl
  exact (sat_of_error ran).mp well

end Buf
end Tcio
