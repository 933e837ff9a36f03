import Tcio.WriteSpec
import Tcio.Puts

/-!
Writing into `&mut [u8]`. The writer counts the bytes that fit but copies the whole slice
that it is given, so a slice that is longer than the space left panics instead of being
cut. What is written therefore has to fit as a whole.
-/
namespace Tcio
open Exec Buf

namespace MutSlice
variable {d d' d'' : MutSlice UInt8} {s v : List UInt8} {ss : List (List UInt8)}

/-- The slice has taken the bytes: they lie behind it, and it covers the rest as before. -/
structure Took (d : MutSlice UInt8) (v : List UInt8) (d' : MutSlice UInt8) : Prop where
  behind : d'.behind = d.behind++v
  rest : d'.rest = d.rest.drop v.length

theorem Took.refl : Took d [] d := ⟨(List.append_nil _).symm,rfl⟩
theorem Took.trans (one : Took d v d') (two : Took d' s d'') : Took d (v++s) d'' := by
  refine ⟨?_,?_⟩
  · rw [two.behind,one.behind,List.append_assoc]
  · rw [two.rest,one.rest,List.drop_drop,List.length_append]
theorem Took.space (took : Took d v d') : d'.len = d.len-v.length := by simp only [len,took.rest,List.length_drop]

/-- A slice that fits is taken, and another panics with the writer left empty. -/
theorem poll_write_spec : Sat (poll_write s) d
    (fun r d' => s.length ≤ d.len ∧ r = .ready (.ok s.length) ∧ Took d s d')
    (fun k d' => k = .panic ∧ d.len < s.length ∧ d' = d.skip d.len) := by
  simp only [poll_write,sat_bind,sat_get,sat_set,sat_check,sat_pure]
  refine ⟨fun whole => ?_,fun cut => ⟨trivial,by omega,trivial⟩⟩
  have inside : s.length ≤ d.rest.length := by
    rw [whole]
    exact Nat.min_le_left _ _
  obtain ⟨d₁,ran,behind,rest⟩ := fill_ok (t := d.skip d.len) inside
  rw [sat_of_ok ran,← whole]
  refine ⟨inside,rfl,?_,?_⟩
  · simp only [skip,behind,rest,List.take_left]
  · simp only [skip,rest,List.drop_left]

/-- Each write returns how many of its bytes fit and takes these; none panics. -/
def WritesWell : List (List UInt8) → MutSlice UInt8 → Prop
  | [],_ => True
  | s :: ss,d => Sat (poll_write s) d (fun r d' => r = .ready (.ok (min s.length d.len)) ∧
      Took d (s.take (min s.length d.len)) d' ∧ WritesWell ss d') (fun _ _ => False)

theorem writes_well_iff : WritesWell ss d ↔ (ss.map List.length).sum ≤ d.len := by
  induction ss generalizing d with
  | nil => simp [WritesWell]
  | cons s ss ih =>
    rw [WritesWell,List.map_cons,List.sum_cons]
    obtain ⟨r,d',ran,inside,rfl,took⟩ | ⟨k,d',ran,_,outside,_⟩ := (poll_write_spec (d := d) (s := s)).cases
    · rw [sat_of_ok ran,min_eq_left inside,List.take_length,ih,took.space]
      constructor
      · rintro ⟨_,_,fits⟩
        omega
      · intro fits
        exact ⟨rfl,took,by omega⟩
    · rw [sat_of_error ran,false_iff]
      omega

end MutSlice

/-! ### A whole cursor -/

variable {A : Allocator} {H : Heap} {R : List Handle} {buf : Buf} {d : MutSlice UInt8} {rounds : Nat} {ss : List (List UInt8)}

open MutSlice AsyncWrite

/-- All bytes of the cursor are taken where they fit, and else the first ones, which fill
    the slice, before `WriteZero` is returned; nothing panics. -/
def WritesAllWell (A : Allocator) (H : Heap) (R : List Handle) (buf : Buf) (d : MutSlice UInt8) (rounds : Nat) : Prop :=
  Sat (poll_write_all_buf MutSlice.poll_write rounds) ((H,buf),d)
    (fun r p => ∃ v, Taken A H R buf v p.1 ∧ Took d v p.2 ∧
      if (buf.content H).length ≤ d.len then r = .ready (.ok ()) ∧ v = buf.content H
      else r = .ready (.error .WriteZero) ∧ v = (buf.content H).take d.len)
    (fun _ _ => False)

/-- The loop takes everything, or a chunk is too long. -/
theorem write_into_slice (sound : buf.Sound H R) (enough : (buf.content H).length < rounds) :
    Sat (poll_write_all_buf MutSlice.poll_write rounds) ((H,buf),d)
      (fun r p => (buf.content H).length ≤ d.len ∧ r = .ready (.ok ()) ∧ Taken A H R buf (buf.content H) p.1 ∧ Took d (buf.content H) p.2)
      (fun k _ => k = .panic ∧ d.len < (buf.content H).length) := by
  refine (write_all_spec (A := A) (w := d) (I := fun v d' => Took d v d' ∧ v.length ≤ d.len) (F := fun _ _ _ => False)
    (E := fun k _ => k = .panic ∧ d.len < (buf.content H).length) sound enough (fun v s d' some' first inv => ?_) ⟨.refl,Nat.zero_le _⟩).mono
    ?_ (fun _ _ => id)
  · have length := first.length_le
    rw [List.length_append] at length
    have left := inv.1.space
    refine poll_write_spec.mono ?_ (fun k _ ⟨panic,outside,_⟩ => ⟨panic,by omega⟩)
    rintro r d'' ⟨inside,rfl,took⟩
    refine Responds.taken (List.length_pos_iff.mpr some') (Nat.le_refl _) ?_
    rw [List.take_length,List.length_append]
    exact ⟨inv.1.trans took,by omega⟩
  · rintro r p ⟨v,taken,⟨rfl,rfl,took,inside⟩ | ⟨_,bad⟩⟩
    · exact ⟨inside,rfl,taken,took⟩
    · exact bad.elim

/-- Writes into a slice do what they promise as long as what is written fits. -/
theorem writes_iff (sound : buf.Sound H R) (enough : (buf.content H).length < rounds) :
    (WritesWell ss d ↔ (ss.map List.length).sum ≤ d.len) ∧
    (WritesAllWell A H R buf d rounds ↔ (buf.content H).length ≤ d.len) := by
  refine ⟨writes_well_iff,?_⟩
  obtain ⟨r,p,ran,inside,rfl,taken,took⟩ | ⟨k,p,ran,_,outside⟩ := (write_into_slice (A := A) (d := d) sound enough).cases
  · refine ⟨fun _ => inside,fun _ => ?_⟩
    rw [WritesAllWell,sat_of_ok ran]
    refine ⟨_,taken,took,?_⟩
    rw [if_pos inside]
    exact ⟨rfl,rfl⟩
  · rw [WritesAllWell,sat_of_error ran,false_iff]
    omega

/-- Four bytes of memory. -/
def four : MutSlice UInt8 := ⟨[],[0,0,0,0],by decide⟩

theorem writes_four : ∃ w, World.JoinableRun (bump 0) (World.start []) w ∧
    (WritesWell [[1,2],[],[3]] four ↔ ([[1,2],[],[3]].map List.length).sum ≤ four.len) ∧
    (WritesAllWell (bump 0) w.heap [] joined four 5 ↔ (joined.content w.heap).length ≤ four.len) := by
  obtain ⟨w,run,_,sound,_,same⟩ := joined_sound
  exact ⟨w,run,writes_iff sound (by rw [same]; decide)⟩

/-- A slice of three bytes written into two. -/
theorem write_panics : ¬ ∀ (A : Allocator) (H : Heap) (R : List Handle) (buf : Buf) (ss : List (List UInt8)) (d : MutSlice UInt8)
    (rounds : Nat), buf.Sound H R → (buf.content H).length < rounds → WritesWell ss d ∧ WritesAllWell A H R buf d rounds := by
  intro claim
  have well := (claim (bump 0) (World.start []).heap [] (slice ⟨[1,2,3],by decide⟩) [[1,2,3]] ⟨[],[0,0],by decide⟩ 4
    (World.start_initial []).sound (by decide)).1
  rw [writes_well_iff] at well
  exact absurd well (by decide)

end Tcio
