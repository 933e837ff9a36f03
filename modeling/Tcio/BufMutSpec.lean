import Tcio.BufMut
import Tcio.BytesMutSpec

/-!
What the methods of `BufMut` do to a buffer that grows. A vector holds its buffer as an
unpromoted `BytesMut` does, so what is known of one carries over to the other.
-/
namespace Tcio
open Exec

variable {A : Allocator} {H H' : Heap} {C : List Own} {R : List Handle} {L : List (Handle × List UInt8)} {h : Handle}
variable {v w : List UInt8} {n : Nat} {vec : Vec}

/-- There is no room for `n` bytes, and the capacity that `asked` bytes ask for, or twice that of
    the buffer, is more than a buffer may have. -/
def Handle.Overflows (H : Heap) (h : Handle) (n asked : Nat) : Prop :=
  h.room-h.len < n ∧ (isizeMax < asked+h.room ∨ H.Vast h.ptr)

theorem Handle.Overflows.mono {j k : Nat} (overflows : h.Overflows H n j) (le : j ≤ k) : h.Overflows H n k := by
  obtain ⟨less,large | vast⟩ := overflows
  · exact ⟨less,.inl (by omega)⟩
  · exact ⟨less,.inr vast⟩

/-! ### Vectors -/

/-- The same buffer held by a vector. -/
theorem Turns.as_vec (turns : Turns A H R H' C ((.bytesMut (BytesMut.from_vec vec),v) :: L)) :
    Turns A H R H' C ((.vec vec,v) :: L) := by
  have word : hold (Handle.bytesMut (BytesMut.from_vec vec)).data = .unpromoted 0 := Shared.hold_new_unpromoted
  have taken := turns.take
  rw [claim_own word,Nat.zero_add] at taken
  obtain ⟨_,spans⟩ := turns.placed.of_unpromoted word
  rw [Nat.zero_add] at spans
  exact taken.put_vec spans Shared.hold_new_unpromoted rfl (Nat.zero_add _) turns.placed.fits turns.view

theorem Sound.spans_vec (sound : Sound H [] (.vec vec :: R)) : Spans H vec.ptr vec.cap := by
  have placed := (sound_cons.mp sound).2.1
  have word : hold (Handle.vec vec).data = .unpromoted 0 := Shared.hold_new_unpromoted
  obtain ⟨_,spans⟩ := placed.of_unpromoted word
  rw [Nat.zero_add] at spans
  exact spans

namespace Vec

theorem reserve_spec (sound : Sound H [] (.vec vec :: R)) (view : (Handle.vec vec).view H = some v) :
    Sat (reserve A n) (H,vec)
      (fun _ p => Turns A H R p.1 [] [(.vec p.2,v)] ∧ p.2.len = vec.len ∧ vec.cap ≤ p.2.cap ∧ n ≤ p.2.cap-vec.len)
      (fun k p => k = .panic ∧ p = (H,vec) ∧ (Handle.vec vec).Overflows H n n) := by
  have turns := Turns.start (A := A) sound view
  have fits : vec.len ≤ vec.cap := turns.placed.fits
  have spans := Sound.spans_vec sound
  simp only [reserve,sat_bind,Method.sat_self,sat_ite,sat_onFst,Method.sat_put,sat_pure]
  refine ⟨fun more => ?_,fun enough => ⟨turns,trivial,Nat.le_refl _,by omega⟩⟩
  have owner := BytesMut.from_vec_spec (A := A) sound view
  refine (BytesMut.regrow_spec owner.sound owner.view (m := BytesMut.from_vec vec) (by simp only [BytesMut.from_vec]; omega)
    Shared.hold_new_unpromoted).mono ?_ ?_
  · intro new_vec H₁ copy
    refine copy.mono ?_ (fun _ _ => False.elim)
    rintro _ H₂ ⟨large,grown⟩
    have old := grown.swap.as_vec
    have taken := old.take
    rw [claim_vec] at taken
    have spans' : Spans H₂ vec.ptr vec.cap := Sound.spans_vec (R := _ :: R) old.sound
    refine (vec_drop_spec A taken.sound spans').mono ?_ (fun _ _ => False.elim)
    rintro _ H₃ ⟨goes,_⟩
    have grown : Turns A H R H₃ [] [(.vec { new_vec with len := vec.len },v)] := (taken.step goes).as_vec
    exact ⟨grown,trivial,by omega,by omega⟩
  · rintro k H' ⟨panic,large,rfl⟩
    refine ⟨panic,rfl,more,?_⟩
    by_cases double : isizeMax < 2*vec.cap
    · exact .inr ⟨_,spans.live (by omega),double⟩
    · refine .inl ?_
      have : 8 ≤ isizeMax := by decide
      simp only [Handle.room]
      omega

/-- What was written behind the view becomes part of it. -/
theorem write_behind (A : Allocator) (sound : Sound H [] (.vec vec :: R)) (view : (Handle.vec vec).view H = some v)
    (room : w.length ≤ vec.cap-vec.len) : Sat (vec.spare_capacity_mut w) H
      (fun _ H' => Turns A H R H' [] [(.vec { vec with len := vec.len+w.length },v++w)]) (fun _ _ => False) := by
  have owner := BytesMut.from_vec_spec (A := A) sound view
  have fits : vec.len ≤ vec.cap := owner.placed.fits
  simp only [spare_capacity_mut,sat_bind,sat_usize_sub,fits,forall_const,not_true_eq_false,false_implies,and_true,
    sat_check,room]
  refine (BytesMut.write_behind A owner.sound owner.view (m := BytesMut.from_vec vec) room).mono ?_ (fun _ _ => False.elim)
  intro _ H' turns
  have grown : Turns A H R H' [] [(.vec { vec with len := vec.len+w.length },v++w)] := (owner.trans turns).as_vec
  exact grown

theorem extend_from_slice_spec (sound : Sound H [] (.vec vec :: R)) (view : (Handle.vec vec).view H = some v) :
    Sat (extend_from_slice A w) (H,vec) (fun _ p => Turns A H R p.1 [] [(.vec p.2,v++w)] ∧ vec.cap ≤ p.2.cap)
      (fun k p => k = .panic ∧ p = (H,vec) ∧ (Handle.vec vec).Overflows H w.length w.length) := by
  simp only [extend_from_slice,sat_bind,Method.sat_self,sat_onFst,set_len,Method.sat_put]
  refine (reserve_spec sound view).mono ?_ (fun _ _ stops => stops)
  rintro _ ⟨H₁,vec'⟩ ⟨turns,len,wide,room⟩
  simp only at turns len wide room ⊢
  refine (write_behind A turns.sound turns.view (by omega)).mono (fun _ H' written => ⟨turns.trans written,wide⟩) (fun _ _ => False.elim)

end Vec

/-! ### Buffers that grow -/

namespace BufMut
variable {dst : BufMut} {b : UInt8}

/-- A buffer that grows, and the handle that it is. -/
inductive Grows : BufMut → Handle → Prop
  | vec (x : Vec) : Grows (.vec x) (.vec x)
  | bytesMut (m : BytesMut) : Grows (.bytesMut m) (.bytesMut m)

/-- A buffer that grows has come to hold `v`, beside other handles, and has `cap` bytes or more. -/
def Holds (A : Allocator) (H : Heap) (R : List Handle) (cap : Nat) (v : List UInt8) (p : Heap × BufMut) : Prop :=
  ∃ h, Grows p.2 h ∧ cap ≤ h.room ∧ Turns A H R p.1 [] [(h,v)]

theorem Holds.trans {q : Heap × BufMut} {H₁ : Heap} {cap : Nat} (turns : Turns A H R H₁ [] L) (holds : Holds A H₁ R cap v q) :
    Holds A H R cap v q := by
  obtain ⟨h,grows,wide,more⟩ := holds
  exact ⟨h,grows,wide,turns.trans more⟩
theorem Holds.mono {p : Heap × BufMut} {cap least : Nat} (le : least ≤ cap) (holds : Holds A H R cap v p) : Holds A H R least v p := by
  obtain ⟨h,grows,wide,turns⟩ := holds
  exact ⟨h,grows,le.trans wide,turns⟩

theorem Grows.small (grows : Grows dst h) (sound : Sound H [] (h :: R)) : h.room ≤ isizeMax := by
  cases grows with
  | vec x => exact (Sound.spans_vec sound).small
  | bytesMut m => exact BytesMut.cap_small sound

/-- A buffer that had no room for `n` bytes and could not grow by `asked` holds what it held, in the
    same allocation. -/
structure Stays (A : Allocator) (H : Heap) (R : List Handle) (v : List UInt8) (h : Handle) (n asked : Nat) (p : Heap × BufMut) : Prop where
  held : ∃ h', Grows p.2 h' ∧ h.room ≤ h'.room ∧ Turns A H R p.1 [] [(h',v)] ∧ h'.ptr.prov = h.ptr.prov
  same : p.1 = H
  large : h.Overflows H n asked

theorem Stays.holds {p : Heap × BufMut} {asked : Nat} (stays : Stays A H R v h n asked p) : Holds A H R h.room v p := by
  obtain ⟨h',grows,wide,turns,_⟩ := stays.held
  exact ⟨h',grows,wide,turns⟩

theorem put_slice_grows (grows : Grows dst h) (sound : Sound H [] (h :: R)) (view : h.view H = some v) (small : w.length ≤ isizeMax) :
    Sat (put_slice A w) (H,dst) (fun _ p => Holds A H R h.room (v++w) p)
      (fun k p => k = .panic ∧ Stays A H R v h w.length w.length p) := by
  cases grows with
  | vec x =>
    simp only [put_slice,sat_bind,Method.sat_self,Method.sat_within]
    refine (Vec.extend_from_slice_spec sound view).mono (fun _ _ post => ⟨_,.vec _,post.2,post.1⟩) ?_
    rintro k p ⟨panic,rfl,why⟩
    exact ⟨panic,⟨_,.vec x,Nat.le_refl _,.start sound view,rfl⟩,rfl,why⟩
  | bytesMut m =>
    simp only [put_slice,sat_bind,Method.sat_self,Method.sat_within]
    refine (BytesMut.extend_from_slice_spec sound view small).mono (fun _ _ post => ⟨_,.bytesMut _,post.2,post.1⟩) ?_
    rintro k p ⟨panic,turns,⟨same,prov,wide⟩,why⟩
    exact ⟨panic,⟨_,.bytesMut _,wide,turns,prov⟩,same,why⟩

/-- A chunk of a buffer that grows is never empty; 64 bytes are reserved where none are left. -/
theorem chunk_mut_grows (grows : Grows dst h) (sound : Sound H [] (h :: R)) (view : h.view H = some v) :
    Sat (dst.chunk_mut A) (H,dst)
      (fun n p => ∃ h', Grows p.2 h' ∧ h.room ≤ h'.room ∧ Turns A H R p.1 [] [(h',v)] ∧ n = h'.room-h'.len ∧ 0 < n)
      (fun k p => k = .panic ∧ Stays A H R v h 1 64 p) := by
  have turns := Turns.start (A := A) sound view
  have fits := turns.placed.fits
  cases grows with
  | vec x =>
    simp only [Handle.len,Handle.room] at fits
    simp only [chunk_mut,Method.sat_within,sat_bind,sat_ite,Method.sat_self,sat_usize_sub]
    refine ⟨fun full => ?_,fun more => ⟨fun _ => ⟨_,.vec x,Nat.le_refl _,turns,rfl,by omega⟩,fun bad => absurd fits bad⟩⟩
    have none : (Handle.vec x).room-(Handle.vec x).len < 1 := Nat.lt_one_iff.mpr (Nat.sub_eq_zero_of_le (Nat.le_of_eq full))
    refine (Vec.reserve_spec sound view).mono ?_ ?_
    · rintro _ ⟨H',x'⟩ ⟨grown,len,wide,room⟩
      have fits' : x'.len ≤ x'.cap := grown.placed.fits
      simp only at len room
      have some' : 0 < x'.cap-x'.len := by omega
      exact ⟨fun _ => ⟨_,.vec x',wide,grown,rfl,some'⟩,fun bad => absurd fits' bad⟩
    · rintro k p ⟨panic,rfl,why⟩
      exact ⟨panic,⟨_,.vec x,Nat.le_refl _,turns,rfl⟩,rfl,none,why.2⟩
  | bytesMut m =>
    have small := BytesMut.cap_small sound
    simp only [Handle.len,Handle.room] at fits
    simp only [chunk_mut,Method.sat_within,sat_bind,sat_ite,Method.sat_self,sat_usize_sub]
    refine ⟨fun full => ?_,fun more => ⟨fun _ => ⟨_,.bytesMut m,Nat.le_refl _,turns,rfl,by omega⟩,fun bad => absurd fits bad⟩⟩
    have none : (Handle.bytesMut m).room-(Handle.bytesMut m).len < 1 := Nat.lt_one_iff.mpr (Nat.sub_eq_zero_of_le (Nat.le_of_eq full))
    refine (BytesMut.reserve_spec sound view).mono ?_ ?_
    · rintro _ ⟨H',m'⟩ ⟨grown,len,wide,room⟩
      have fits' : m'.len ≤ m'.cap := grown.placed.fits
      simp only at len room
      have enough := room (by rw [isizeMax] at small; omega)
      have some' : 0 < m'.cap-m'.len := by omega
      exact ⟨fun _ => ⟨_,.bytesMut m',wide,grown,rfl,some'⟩,fun bad => absurd fits' bad⟩
    · rintro k p ⟨panic,grown,⟨same,prov,wide⟩,why⟩
      exact ⟨panic,⟨_,.bytesMut _,wide,grown,prov⟩,same,none,why.2⟩

/-- Bytes that fit in the chunk become the last of the view. -/
theorem fill_chunk_grows (A : Allocator) (grows : Grows dst h) (sound : Sound H [] (h :: R)) (view : h.view H = some v)
    (room : w.length ≤ h.room-h.len) : Sat (dst.write_chunk w) H
      (fun dst' H₁ => Sat (dst'.advance_mut w.length) H₁ (fun dst'' H' => Holds A H R h.room (v++w) (H',dst'')) (fun _ _ => False))
      (fun _ _ => False) := by
  cases grows with
  | vec x =>
    simp only [write_chunk,advance_mut,sat_bind,sat_pure,sat_lend,Vec.set_len,Method.sat_self,Method.sat_put]
    exact (Vec.write_behind A sound view room).mono (fun _ _ turns => ⟨_,.vec _,Nat.le_refl _,turns⟩) (fun _ _ => id)
  | bytesMut m =>
    have fits : m.len ≤ m.cap := (Turns.start (A := A) sound view).placed.fits
    simp only [Handle.room,Handle.len] at room
    simp only [write_chunk,advance_mut,sat_bind,sat_pure,sat_lend,BytesMut.set_len,Method.sat_self,Method.sat_put,
      BytesMut.spare_capacity_mut,sat_usize_sub,sat_check,fits,room,forall_const,not_true_eq_false,false_implies,and_true]
    exact (BytesMut.write_behind A sound view room).mono (fun _ _ turns => ⟨_,.bytesMut _,Nat.le_refl _,turns⟩) (fun _ _ => id)

theorem put_byte_grows (grows : Grows dst h) (sound : Sound H [] (h :: R)) (view : h.view H = some v) :
    Sat (put_byte A b) (H,dst) (fun _ p => Holds A H R h.room (v++[b]) p)
      (fun k p => k = .panic ∧ Holds A H R h.room v p ∧ p.1 = H ∧ h.Overflows H 1 64) := by
  have turns := Turns.start (A := A) sound view
  have fits := turns.placed.fits
  have remaining : dst.remaining_mut = isizeMax-h.len := by cases grows <;> rfl
  simp only [put_byte,sat_bind,Method.sat_self,sat_check,Method.sat_replace]
  refine ⟨fun _ => ?_,fun none => ⟨trivial,⟨h,grows,Nat.le_refl _,turns⟩,trivial,?_⟩⟩
  · refine (chunk_mut_grows grows sound view).mono ?_ (fun _ _ stops => ⟨stops.1,stops.2.holds,stops.2.same,stops.2.large⟩)
    rintro n ⟨H₁,dst'⟩ ⟨h',grows',wide,grown,rfl,some'⟩
    refine ⟨fun _ => ?_,fun bad => absurd some' bad⟩
    refine (fill_chunk_grows A grows' grown.sound grown.view (w := [b]) some').mono ?_ (fun _ _ => False.elim)
    intro dst'' H₂ advance
    exact advance.mono (fun _ _ holds => (holds.trans grown).mono wide) (fun _ _ => False.elim)
  · rw [has_remaining_mut,remaining,decide_eq_true_iff] at none
    have small := grows.small sound
    exact ⟨by omega,.inl (by omega)⟩

end BufMut
end Tcio
