import Tcio.Puts
import Tcio.Read

/-!
`io::Write` and `io::Read` in portions. However the bytes are cut up that are written, and
however those are that they are read in, what is read is what was written, in its order, also
across `freeze`.
-/
namespace Tcio.Portions
open Exec

variable {S α : Type} {A : Allocator} {H : Heap} {R : List Handle} {b : Bytes} {m : BytesMut} {vec : Vec} {s : S} {v : List UInt8}

/-! ### Reading -/

/-- Read into buffers, one after the other, which come back with what each call returns. -/
def read_all (read : List UInt8 → Method S (IoResult Nat × List UInt8)) : List (List UInt8) → Method S (List (IoResult Nat × List UInt8))
  | [] => return []
  | buf :: bufs => do
    let portion ← read buf
    return portion :: (← read_all read bufs)

/-- What becomes of a buffer that bytes are read into: its first ones are the bytes, and what
    they do not fill is as before. -/
def portion (v buf : List UInt8) : IoResult Nat × List UInt8 := (.ok (min buf.length v.length),v.take buf.length++buf.drop v.length)
def portions : List UInt8 → List (List UInt8) → List (IoResult Nat × List UInt8)
  | _,[] => []
  | v,buf :: bufs => portion v buf :: portions (v.drop buf.length) bufs
/-- The bytes that a call has read. -/
def got (p : IoResult Nat × List UInt8) : List UInt8 :=
  match p.1 with
  | .ok n => p.2.take n
  | .error _ => []
/-- As many bytes as the buffers have. -/
def capacities (bufs : List (List UInt8)) : Nat := (bufs.map List.length).sum

theorem got_portion {buf : List UInt8} : got (portion v buf) = v.take buf.length := by
  simp only [got,portion]
  refine List.take_left' ?_
  rw [List.length_take]

/-- All portions together are the first bytes. -/
theorem got_portions {bufs : List (List UInt8)} : (portions v bufs).flatMap got = v.take (capacities bufs) := by
  induction bufs generalizing v with
  | nil => rfl
  | cons buf bufs ih =>
    rw [portions,List.flatMap_cons,got_portion,ih,capacities,capacities,List.map_cons,List.sum_cons,List.take_add]

example : portions [1,2,3] [[0,0],[0,0]] = [(.ok 2,[1,2]),(.ok 1,[3,0])] := rfl

/-- `read` takes the front out of a handle, and does not stop. -/
def Reads (inj : S → Handle) (read : List UInt8 → Method S (IoResult Nat × List UInt8)) : Prop :=
  ∀ (A : Allocator) (H : Heap) (R : List Handle) (s : S) (v buf : List UInt8), Sound H [] (inj s :: R) → (inj s).view H = some v →
    Sat (read buf) (H,s) (fun p q => p = portion v buf ∧ Turns A H R q.1 [] [(inj q.2,v.drop buf.length)]) (fun _ _ => False)

/-- As many bytes as there are, and as the buffer has. -/
theorem portion_of_min {n : Nat} (v buf : List UInt8) (least : n = min buf.length v.length) :
    portion v buf = (.ok n,v.take n++buf.drop n) ∧ v.drop n = v.drop buf.length := by
  have front : v.take buf.length = v.take n := List.take_eq_take_iff.mpr (by omega)
  have rest : buf.drop v.length = buf.drop n := List.drop_eq_drop_iff.mpr (by omega)
  have behind : v.drop n = v.drop buf.length := List.drop_eq_drop_iff.mpr (by omega)
  exact ⟨by rw [portion,front,rest,← least],behind⟩

theorem bytes_reads : Reads Handle.bytes Bytes.read := by
  intro A H R b v buf sound view
  have length : v.length = b.len := length_of_view view
  obtain ⟨first,rest⟩ := portion_of_min (n := min buf.length b.len) v buf (by omega)
  simp only [Bytes.read,sat_bind,Method.sat_self,sat_onFst,sat_pure]
  rw [sat_of_ok (show b.as_slice H = (.ok v,H) from read_ok view)]
  refine (Bytes.advance_spec (A := A) sound view).mono ?_ ?_
  · rintro _ q ⟨_,turns⟩
    exact ⟨first.symm,rest ▸ turns⟩
  · rintro k _ ⟨_,short,_⟩
    omega

theorem bytesMut_reads : Reads Handle.bytesMut BytesMut.read := by
  intro A H R m v buf sound view
  have length : v.length = m.len := length_of_view view
  obtain ⟨first,rest⟩ := portion_of_min (n := min buf.length m.len) v buf (by omega)
  simp only [BytesMut.read,sat_bind,Method.sat_self,sat_onFst,sat_pure]
  rw [sat_of_ok (show m.as_slice H = (.ok v,H) from read_ok view)]
  refine (BytesMut.advance_spec (A := A) sound view).mono ?_ ?_
  · rintro _ q ⟨_,turns⟩
    exact ⟨first.symm,rest ▸ turns⟩
  · rintro k _ ⟨_,short,_⟩
    omega

theorem Reads.all {inj : S → Handle} {read : List UInt8 → Method S (IoResult Nat × List UInt8)} {bufs : List (List UInt8)}
    (reads : Reads inj read) (sound : Sound H [] (inj s :: R)) (view : (inj s).view H = some v) : Sat (read_all read bufs) (H,s)
      (fun ps q => ps = portions v bufs ∧ Turns A H R q.1 [] [(inj q.2,v.drop (capacities bufs))]) (fun _ _ => False) := by
  induction bufs generalizing H s v with
  | nil => exact ⟨rfl,.start sound view⟩
  | cons buf bufs ih =>
    simp only [read_all,sat_bind,sat_pure]
    refine (reads A H R s v buf sound view).mono ?_ (fun _ _ => id)
    rintro _ q ⟨rfl,turns⟩
    refine (ih turns.sound turns.view).mono ?_ (fun _ _ => id)
    rintro _ q ⟨rfl,more⟩
    refine ⟨rfl,?_⟩
    rw [capacities,List.map_cons,List.sum_cons,← List.drop_drop]
    exact turns.trans more

/-! ### Writing -/

/-- Write slices, one after the other. -/
def write_all (write : List UInt8 → Method S α) : List Slice → Method S (List α)
  | [] => return []
  | slice :: slices => do
    let written ← write slice.bytes
    return written :: (← write_all write slices)

/-- `write` puts a slice behind what a handle holds, or panics where the handle has to grow and
    cannot, and leaves that as it is. -/
def Appends (A : Allocator) (inj : S → Handle) (ok : Nat → α) (write : List UInt8 → Method S α) : Prop :=
  ∀ (H : Heap) (R : List Handle) (s : S) (v : List UInt8) (slice : Slice), Sound H [] (inj s :: R) → (inj s).view H = some v →
    Sat (write slice.bytes) (H,s) (fun r q => r = ok slice.len ∧ Turns A H R q.1 [] [(inj q.2,v++slice.bytes)])
      (fun k q => k = .panic ∧ q.1 = H ∧ (inj s).Overflows H slice.len slice.len)

theorem bytesMut_appends : Appends A Handle.bytesMut Except.ok (BytesMut.write A) := by
  intro H R m v slice sound view
  simp only [BytesMut.write,sat_bind,sat_pure]
  refine (BytesMut.extend_from_slice_spec sound view slice.small).mono ?_ ?_
  · exact fun _ q post => ⟨rfl,post.1⟩
  · rintro k q ⟨panic,_,⟨same,_⟩,why⟩
    exact ⟨panic,same,why⟩

theorem vec_appends : Appends A Handle.vec (fun n => .ready (.ok n)) (Vec.poll_write A) := by
  intro H R vec v slice sound view
  simp only [Vec.poll_write,sat_bind,sat_pure]
  refine (Vec.extend_from_slice_spec sound view).mono ?_ ?_
  · exact fun _ q post => ⟨rfl,post.1⟩
  · rintro k q ⟨panic,rfl,why⟩
    exact ⟨panic,rfl,why⟩

/-- The bytes of slices. -/
def joined (slices : List Slice) : List UInt8 := slices.flatMap Slice.bytes

/-- A slice had no room behind those before it, which are written, and the handle could not grow. -/
def Stuck (A : Allocator) (H : Heap) (R : List Handle) (inj : S → Handle) (v : List UInt8) (slices : List Slice) (H' : Heap) : Prop :=
  ∃ front last rest s, slices = front++last :: rest ∧ Turns A H R H' [] [(inj s,v++joined front)] ∧
    (inj s).Overflows H' last.len last.len

theorem Appends.all {inj : S → Handle} {ok : Nat → α} {write : List UInt8 → Method S α} {slices : List Slice}
    (appends : Appends A inj ok write) (sound : Sound H [] (inj s :: R)) (view : (inj s).view H = some v) : Sat (write_all write slices) (H,s)
      (fun rs q => rs = slices.map (fun slice => ok slice.len) ∧ Turns A H R q.1 [] [(inj q.2,v++joined slices)])
      (fun k q => k = .panic ∧ Stuck A H R inj v slices q.1) := by
  induction slices generalizing H s v with
  | nil =>
    refine ⟨rfl,?_⟩
    rw [joined,List.flatMap_nil,List.append_nil]
    exact .start sound view
  | cons slice slices ih =>
    simp only [write_all,sat_bind,sat_pure]
    refine (appends H R s v slice sound view).mono ?_ ?_
    · rintro _ q ⟨rfl,turns⟩
      refine (ih turns.sound turns.view).mono ?_ ?_
      · rintro _ q ⟨rfl,more⟩
        refine ⟨rfl,?_⟩
        rw [joined,List.flatMap_cons,← List.append_assoc]
        exact turns.trans more
      · rintro k q ⟨panic,front,last,rest,s',rfl,more,why⟩
        refine ⟨panic,slice :: front,last,rest,s',rfl,?_,why⟩
        rw [joined,List.flatMap_cons,← List.append_assoc]
        exact turns.trans more
    · rintro k ⟨_,s'⟩ ⟨panic,rfl,why⟩
      refine ⟨panic,[],slice,slices,s,rfl,?_,why⟩
      rw [joined,List.flatMap_nil,List.append_nil]
      exact .start sound view

/-! ### Both -/

/-- Slices are written into a `BytesMut`, which is frozen and read into buffers. -/
def carry (A : Allocator) (m : BytesMut) (slices : List Slice) (bufs : List (List UInt8)) : Exec Heap (List (IoResult Nat × List UInt8) × Bytes) := do
  let (_,m) ← lend m (write_all (BytesMut.write A) slices)
  lend (← m.freeze A) (read_all Bytes.read bufs)
/-- Slices are written into a vector, and read from the `BytesMut` that it is made. -/
def carry_vec (A : Allocator) (vec : Vec) (slices : List Slice) (bufs : List (List UInt8)) :
    Exec Heap (List (IoResult Nat × List UInt8) × BytesMut) := do
  let (_,vec) ← lend vec (write_all (Vec.poll_write A) slices)
  lend (BytesMut.from_vec vec) (read_all BytesMut.read bufs)

/-- Bytes were read into buffers, and the rest is held. -/
structure Carried (A : Allocator) (H : Heap) (R : List Handle) (inj : S → Handle) (v : List UInt8) (bufs : List (List UInt8))
    (r : List (IoResult Nat × List UInt8) × S) (H' : Heap) : Prop where
  portions : r.1 = portions v bufs
  read : r.1.flatMap got = v.take (capacities bufs)
  turns : Turns A H R H' [] [(inj r.2,v.drop (capacities bufs))]

/-- However bytes are cut up to be written and to be read, they are read as they were written,
    behind what was there at first; a panic comes of a slice alone that does not fit. -/
theorem carries {slices : List Slice} {bufs : List (List UInt8)} :
    (∀ m, Sound H [] (.bytesMut m :: R) → (Handle.bytesMut m).view H = some v →
      Sat (carry A m slices bufs) H (Carried A H R Handle.bytes (v++joined slices) bufs)
        (fun k H' => k = .panic ∧ Stuck A H R Handle.bytesMut v slices H')) ∧
    (∀ vec, Sound H [] (.vec vec :: R) → (Handle.vec vec).view H = some v →
      Sat (carry_vec A vec slices bufs) H (Carried A H R Handle.bytesMut (v++joined slices) bufs)
        (fun k H' => k = .panic ∧ Stuck A H R Handle.vec v slices H')) := by
  constructor
  · intro m sound view
    simp only [carry,sat_bind,sat_lend]
    refine (bytesMut_appends.all sound view).mono ?_ (fun _ _ => id)
    rintro _ ⟨H₁,m'⟩ ⟨_,written⟩
    refine (BytesMut.freeze_spec written.sound written.view).mono ?_ (fun _ _ => False.elim)
    intro b H₂ frozen
    refine (bytes_reads.all (A := A) frozen.sound frozen.view).mono ?_ (fun _ _ => False.elim)
    rintro _ q ⟨rfl,read⟩
    exact ⟨rfl,got_portions,written.trans (frozen.trans read)⟩
  · intro vec sound view
    simp only [carry_vec,sat_bind,sat_lend]
    refine (vec_appends.all sound view).mono ?_ (fun _ _ => id)
    rintro _ ⟨H₁,vec'⟩ ⟨_,written⟩
    have owner := BytesMut.from_vec_spec (A := A) written.sound written.view
    refine (bytesMut_reads.all (A := A) owner.sound owner.view).mono ?_ (fun _ _ => False.elim)
    rintro _ q ⟨rfl,read⟩
    exact ⟨rfl,got_portions,written.trans (owner.trans read)⟩

/-- Three bytes in two slices, which are read into buffers of two. -/
def cut : List Slice := [⟨[1,2],by decide⟩,⟨[3],by decide⟩]
def buffers : List (List UInt8) := [[0,0],[0,0],[0,0]]

theorem carries_cut :
    (∃ w, World.JoinableRun (bump 0) (World.start []) w ∧ Sat (carry (bump 0) ⟨⟨19,3⟩,2,2,⟨1,0⟩⟩ cut buffers) w.heap
      (Carried (bump 0) w.heap [.bytes ⟨⟨16,2⟩,3,⟨1,0⟩⟩] Handle.bytes [4,5,1,2,3] buffers)
      (fun k H' => k = .panic ∧ Stuck (bump 0) w.heap [.bytes ⟨⟨16,2⟩,3,⟨1,0⟩⟩] Handle.bytesMut [4,5] cut H')) ∧
    ∃ H vec, (Handle.vec vec).view H = some [4,5] ∧ Sat (carry_vec (bump 0) vec cut buffers) H
      (Carried (bump 0) H [] Handle.bytesMut [4,5,1,2,3] buffers)
      (fun k H' => k = .panic ∧ Stuck (bump 0) H [] Handle.vec [4,5] cut H') := by
  obtain ⟨w,run,_,sound,view,_⟩ := Buf.joined_sound
  obtain ⟨H,vec,sound',view'⟩ := Buf.vector_of (v := [4,5]) (by decide)
  exact ⟨⟨w,run,carries.1 _ (Tcio.Sound.perm sound (List.Perm.swap ..)) view⟩,H,vec,view',carries.2 vec sound' view'⟩

end Tcio.Portions
