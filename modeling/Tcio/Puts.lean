import Tcio.BufMutSpec
import Tcio.Gets
import Tcio.Refinement

/-!
Sequences of integers of any types and byte orders, written into a buffer that grows and
read back from a cursor. Each `put_` method appends the bytes of its value, or it panics
where the capacity overflows; the `get_` methods find the values again wherever these
bytes come from.
-/
namespace Tcio
open Exec

/-- An integer with the type and the byte order of the methods that write and read it. -/
structure Typed where
  ty : IntTy
  endian : Endian
  n : ty.Value
  deriving DecidableEq

namespace Typed
/-- What the methods are told by their names. -/
def method (t : Typed) : IntTy × Endian := (t.ty,t.endian)
def bytes (target : ByteOrder) (t : Typed) : List UInt8 := (t.endian.order target).to_bytes t.n
def encode (target : ByteOrder) (ts : List Typed) : List UInt8 := ts.flatMap (bytes target)
end Typed

/-- Write the values in order. -/
def BufMut.put_all (A : Allocator) (target : ByteOrder) : List Typed → Method BufMut Unit
  | [] => pure ()
  | t :: ts => do
    put_value A target t.ty t.endian t.n
    put_all A target ts

namespace Buf

/-- Read in order what each method reads. -/
def read_all {α : Type} (read : IntTy × Endian → Buf → Exec Heap (α × Buf)) : List (IntTy × Endian) → Buf → Exec Heap (List α × Buf)
  | [],self => return ([],self)
  | method :: methods,self => do
    let (a,self) ← read method self
    let (as,self) ← read_all read methods self
    return (a :: as,self)

variable (target : ByteOrder)

def get_all : List (IntTy × Endian) → Buf → Exec Heap (List Typed × Buf) :=
  read_all fun (ty,endian) self => do
    let (n,self) ← self.get target ty endian
    return (⟨ty,endian,n⟩,self)
def try_get_all : List (IntTy × Endian) → Buf → Exec Heap (List (Option Typed) × Buf) :=
  read_all fun (ty,endian) self => do
    let (n,self) ← self.try_get target ty endian
    return (n.map (fun n => ⟨ty,endian,n⟩),self)
end Buf

variable {A : Allocator} {target : ByteOrder} {H H₁ H' : Heap} {R R₁ : List Handle} {h : Handle} {v rest : List UInt8}
variable {t : Typed} {ts : List Typed}

open Typed

theorem length_bytes : (t.bytes target).length = t.ty.size := ByteOrder.length_to_bytes

/-! ### Writing -/

namespace BufMut
variable {dst : BufMut}

/-- A single byte is the same in any order. -/
theorem bytes_single {order : ByteOrder} {n : BitVec (8*1)} : order.to_bytes n = [UInt8.ofBitVec n] := by
  have low : UInt8.ofNat n.toNat = UInt8.ofBitVec n := by
    apply UInt8.toNat_inj.mp
    simp
  cases order <;> simp [ByteOrder.to_bytes,ByteOrder.to_le_bytes,low]

/-- Each method appends the bytes of its value. -/
theorem put_value_grows (grows : Grows dst h) (sound : Sound H [] (h :: R)) (view : h.view H = some v) :
    Sat (put_value A target t.ty t.endian t.n) (H,dst) (fun _ p => Holds A H R h.room (v++t.bytes target) p)
      (fun k p => k = .panic ∧ Holds A H R h.room v p ∧ p.1 = H ∧ h.Overflows H t.ty.size 64) := by
  have macro_ : Sat (put_int A target t.ty t.endian t.n) (H,dst) (fun _ p => Holds A H R h.room (v++t.bytes target) p)
      (fun k p => k = .panic ∧ Holds A H R h.room v p ∧ p.1 = H ∧ h.Overflows H t.ty.size 64) := by
    have length : ((t.endian.order target).to_bytes t.n).length = t.ty.size := ByteOrder.length_to_bytes
    have small := t.ty.size_small
    refine (put_slice_grows grows sound view ?_).mono (fun _ _ => id) ?_
    · rw [isizeMax]
      omega
    · rintro k p ⟨panic,stays⟩
      have large := stays.large
      rw [length] at large
      exact ⟨panic,stays.holds,stays.same,large.mono (by omega)⟩
  obtain ⟨ty,endian,n⟩ := t
  cases ty with
  | u8 =>
    have same : Typed.bytes target ⟨.u8,endian,n⟩ = [UInt8.ofBitVec n] := bytes_single
    rw [same]
    exact put_byte_grows grows sound view
  | i8 =>
    have same : Typed.bytes target ⟨.i8,endian,n⟩ = [UInt8.ofBitVec n] := bytes_single
    rw [same]
    exact put_byte_grows grows sound view
  | _ => exact macro_

/-- A write panicked: the values before it are in the buffer, the memory is as it found it, where
    there was no room for the value, and 64 bytes more than the capacity, or twice the buffer, is
    more than a buffer may have. -/
def Overran (A : Allocator) (target : ByteOrder) (H : Heap) (R : List Handle) (cap : Nat) (v : List UInt8) (ts : List Typed)
    (p : Heap × BufMut) : Prop :=
  ∃ before t after h, before++t :: after = ts ∧ Holds A H R cap (v++encode target before) p ∧ cap ≤ h.room ∧
    Turns A H R p.1 [] [(h,v++encode target before)] ∧ h.Overflows p.1 t.ty.size 64

theorem put_all_grows (grows : Grows dst h) (sound : Sound H [] (h :: R)) (view : h.view H = some v) :
    Sat (put_all A target ts) (H,dst) (fun _ p => Holds A H R h.room (v++encode target ts) p)
      (fun k p => k = .panic ∧ Overran A target H R h.room v ts p) := by
  induction ts generalizing dst h H v with
  | nil =>
    rw [put_all,encode,List.flatMap_nil,List.append_nil,sat_pure]
    exact ⟨h,grows,Nat.le_refl _,.start sound view⟩
  | cons t ts ih =>
    rw [put_all,sat_bind]
    refine (put_value_grows grows sound view).mono ?_ ?_
    · rintro _ ⟨H₁,dst'⟩ ⟨h',grows',wide,turns⟩
      refine (ih grows' turns.sound turns.view).mono ?_ ?_
      · intro _ p holds
        rw [encode,List.flatMap_cons,← List.append_assoc]
        exact (holds.trans turns).mono wide
      · rintro k p ⟨panic,before,t₂,after,h₂,whole,holds,wide₂,more,why⟩
        have joined : v++t.bytes target++encode target before = v++encode target (t :: before) := List.append_assoc ..
        rw [joined] at holds more
        exact ⟨panic,t :: before,t₂,after,h₂,congrArg (t :: ·) whole,(holds.trans turns).mono wide,wide.trans wide₂,
          turns.trans more,why⟩
    · rintro k ⟨_,dst'⟩ ⟨panic,holds,rfl,why⟩
      refine ⟨panic,[],t,ts,h,rfl,?_,Nat.le_refl _,?_,why⟩
      · rwa [encode,List.flatMap_nil,List.append_nil]
      · rw [encode,List.flatMap_nil,List.append_nil]
        exact .start sound view

end BufMut

/-! ### Reading -/

namespace Buf
variable {buf : Buf}

theorem encoded_bytes : encoded target t.ty t.endian (t.bytes target++rest) = t.n := by
  have first : (t.bytes target++rest).take t.ty.size = t.bytes target := List.take_left' length_bytes
  rw [encoded,first]
  exact ByteOrder.from_to_bytes

/-- A method that finds the bytes of a value reads that value. -/
theorem try_get_reads (A : Allocator) (sound : buf.Sound H R) (found : buf.content H = t.bytes target++rest) :
    Sat (buf.try_get target t.ty t.endian) H
      (fun r H' => H' = H ∧ r.1 = some t.n ∧ Moves A H R t.ty.size buf H r.2 ∧ r.2.content H = rest) (fun _ _ => False) := by
  have enough : t.ty.size ≤ (buf.content H).length := by
    rw [found,List.length_append,length_bytes]
    exact Nat.le_add_right _ _
  have some' : 0 < t.ty.size := by cases t.ty <;> decide
  refine (try_get_spec A sound).mono ?_ ?_
  · rintro r _ ⟨rfl,⟨_,none,_⟩ | ⟨_,value,moves⟩⟩
    · rw [none,List.length_nil] at enough
      omega
    · refine ⟨rfl,?_,moves,?_⟩
      · rw [value,found,encoded_bytes]
      · rw [moves.consumed.content.2,found]
        exact List.drop_left' length_bytes
  · rintro k _ ⟨_,_,short⟩
    omega

theorem get_reads (A : Allocator) (sound : buf.Sound H R) (found : buf.content H = t.bytes target++rest) :
    Sat (buf.get target t.ty t.endian) H
      (fun r H' => H' = H ∧ r.1 = t.n ∧ Moves A H R t.ty.size buf H r.2 ∧ r.2.content H = rest) (fun _ _ => False) := by
  rw [get,sat_bind]
  refine (try_get_reads A sound found).mono ?_ (fun _ _ => False.elim)
  rintro ⟨_,buf'⟩ _ ⟨rfl,rfl,moves,left⟩
  exact ⟨rfl,rfl,moves,left⟩

/-- Where each method reads the value whose bytes it finds, all values are read. -/
theorem read_all_reads {α : Type} {read : IntTy × Endian → Buf → Exec Heap (α × Buf)} {f : Typed → α}
    (each : ∀ t buf rest, buf.Sound H R → buf.content H = t.bytes target++rest → Sat (read t.method buf) H
      (fun r H' => H' = H ∧ r.1 = f t ∧ Moves A H R t.ty.size buf H r.2 ∧ r.2.content H = rest) (fun _ _ => False))
    (sound : buf.Sound H R) (found : buf.content H = encode target ts++rest) : Sat (read_all read (ts.map method) buf) H
      (fun r H' => H' = H ∧ r.1 = ts.map f ∧ Moves A H R (encode target ts).length buf H r.2 ∧ r.2.content H = rest)
      (fun _ _ => False) := by
  induction ts generalizing buf with
  | nil => exact ⟨rfl,rfl,.refl sound,found⟩
  | cons t ts ih =>
    rw [encode,List.flatMap_cons,List.append_assoc] at found
    simp only [List.map_cons,read_all,sat_bind,sat_pure]
    refine (each t buf _ sound found).mono ?_ (fun _ _ => False.elim)
    rintro ⟨_,buf'⟩ _ ⟨rfl,rfl,moves,left⟩
    refine (ih moves.sound left).mono ?_ (fun _ _ => False.elim)
    rintro ⟨_,buf''⟩ _ ⟨rfl,rfl,more,left'⟩
    refine ⟨rfl,rfl,?_,left'⟩
    rw [encode,List.flatMap_cons,List.length_append,length_bytes]
    exact moves.trans more

theorem get_all_reads (A : Allocator) (sound : buf.Sound H R) (found : buf.content H = encode target ts) :
    Sat (get_all target (ts.map method) buf) H (fun r H' => r.1 = ts ∧ r.2.content H' = []) (fun _ _ => False) := by
  have found' : buf.content H = encode target ts++[] := by rw [found,List.append_nil]
  refine (read_all_reads (A := A) (f := id) (fun t buf rest sound found => ?_) sound found').mono ?_ (fun _ _ => id)
  · simp only [method,sat_bind,sat_pure]
    refine (get_reads A sound found).mono ?_ (fun _ _ => id)
    rintro ⟨_,buf'⟩ _ ⟨rfl,rfl,moves,left⟩
    exact ⟨rfl,rfl,moves,left⟩
  · rintro r _ ⟨rfl,values,_,left⟩
    exact ⟨by rw [values,List.map_id],left⟩

theorem try_get_all_reads (A : Allocator) (sound : buf.Sound H R) (found : buf.content H = encode target ts) :
    Sat (try_get_all target (ts.map method) buf) H (fun r H' => r.1 = ts.map some ∧ r.2.content H' = []) (fun _ _ => False) := by
  have found' : buf.content H = encode target ts++[] := by rw [found,List.append_nil]
  refine (read_all_reads (A := A) (f := some) (fun t buf rest sound found => ?_) sound found').mono ?_ (fun _ _ => id)
  · simp only [method,sat_bind,sat_pure]
    refine (try_get_reads A sound found).mono ?_ (fun _ _ => id)
    rintro ⟨_,buf'⟩ _ ⟨rfl,rfl,moves,left⟩
    exact ⟨rfl,rfl,moves,left⟩
  · rintro r _ ⟨rfl,values,_,left⟩
    exact ⟨values,left⟩

/-- What is written into a buffer that grows is read back from any cursor that stands for
    the bytes that were appended, and nothing is left of the cursor. A write that does
    not return panics because the buffer has to grow and the capacity overflows. -/
theorem reads_back {dst : BufMut} (grows : dst.Grows h) (sound : Tcio.Sound H [] (h :: R)) (view : h.view H = some v)
    (source : buf.Sound H₁ R₁) (same : buf.content H₁ = encode target ts) :
    Sat (BufMut.put_all A target ts) (H,dst) (fun _ p => BufMut.Holds A H R h.room (v++encode target ts) p)
      (fun k p => k = .panic ∧ BufMut.Overran A target H R h.room v ts p) ∧
    Sat (get_all target (ts.map method) buf) H₁ (fun r H' => r.1 = ts ∧ r.2.content H' = []) (fun _ _ => False) ∧
    Sat (try_get_all target (ts.map method) buf) H₁ (fun r H' => r.1 = ts.map some ∧ r.2.content H' = []) (fun _ _ => False) :=
  ⟨BufMut.put_all_grows grows sound view,get_all_reads A source same,try_get_all_reads A source same⟩

/-- The fragments one behind the other, without the last byte. -/
def joined : Buf := chain (bytes ⟨⟨16,2⟩,3,⟨1,0⟩⟩) (take (boxed (bytesMut ⟨⟨19,3⟩,2,2,⟨1,0⟩⟩)) 1)
/-- What is read from there; the second value lies in both fragments' bytes. -/
def split_values : List Typed := [⟨.i16,.little,0x0201#16⟩,⟨.u16,.big,0x0304#16⟩]

theorem joined_content : (World.play (bump 0) fragments (World.start [])).map (fun w =>
    [(Handle.bytesMut ⟨⟨19,3⟩,2,2,⟨1,0⟩⟩).view w.heap,some (joined.content w.heap)]) = some [some [4,5],some [1,2,3,4]] := by
  decide +kernel

/-- A run that leaves the fragments. -/
theorem joined_sound : ∃ w, World.JoinableRun (bump 0) (World.start []) w ∧
    w.handles = [.bytes ⟨⟨16,2⟩,3,⟨1,0⟩⟩,.bytesMut ⟨⟨19,3⟩,2,2,⟨1,0⟩⟩] ∧ joined.Sound w.heap [] ∧
    (Handle.bytesMut ⟨⟨19,3⟩,2,2,⟨1,0⟩⟩).view w.heap = some [4,5] ∧ joined.content w.heap = [1,2,3,4] := by
  obtain ⟨w,played,run,handles⟩ := fragments_sound
  have content := joined_content
  rw [played,Option.map_some,Option.some.injEq,List.cons.injEq,List.cons.injEq] at content
  obtain ⟨view,same,_⟩ := content
  have sound := World.run_sound (World.start_initial []) run
  rw [World.Sound,handles] at sound
  exact ⟨w,run,handles,sound,view,Option.some.inj same⟩

theorem reads_back_joined : ∃ w, World.JoinableRun (bump 0) (World.start []) w ∧
    Sat (BufMut.put_all (bump 0) .little split_values) (w.heap,.bytesMut ⟨⟨19,3⟩,2,2,⟨1,0⟩⟩)
      (fun _ p => BufMut.Holds (bump 0) w.heap [.bytes ⟨⟨16,2⟩,3,⟨1,0⟩⟩] 2 ([4,5]++encode .little split_values) p)
      (fun k p => k = .panic ∧ BufMut.Overran (bump 0) .little w.heap [.bytes ⟨⟨16,2⟩,3,⟨1,0⟩⟩] 2 [4,5] split_values p) ∧
    Sat (get_all .little (split_values.map method) joined) w.heap (fun r H' => r.1 = split_values ∧ r.2.content H' = [])
      (fun _ _ => False) ∧
    Sat (try_get_all .little (split_values.map method) joined) w.heap
      (fun r H' => r.1 = split_values.map some ∧ r.2.content H' = []) (fun _ _ => False) := by
  obtain ⟨w,run,_,sound,view,same⟩ := joined_sound
  exact ⟨w,run,reads_back (.bytesMut _) (Tcio.Sound.perm sound (List.Perm.swap ..)) view sound (same.trans (by decide))⟩

/-- There is a vector of any bytes that a vector may have. -/
theorem vector_of (small : v.length ≤ isizeMax) : ∃ H x, Tcio.Sound H [] [.vec x] ∧ (Handle.vec x).view H = some v := by
  obtain ⟨x,H,_,goes,spans,len,fits,loaded⟩ | ⟨k,_,_,_,large,_⟩ := (to_vec_spec (A := bump 0) (v := v) (World.start_initial []).sound).cases
  · have turns := (Turns.of_goes goes).put_vec (h := .vec x) spans Shared.hold_new_unpromoted rfl (Nat.zero_add _) fits loaded
    exact ⟨H,x,turns.sound,loaded⟩
  · exact absurd small (Nat.not_le_of_lt large)

/-- A vector that is full cannot take another byte. -/
theorem full_panics : ¬ ∀ (A : Allocator) (target : ByteOrder) (dst : BufMut) (h : Handle) (H : Heap) (R : List Handle)
    (v : List UInt8) (ts : List Typed), dst.Grows h → Tcio.Sound H [] (h :: R) → h.view H = some v →
    Sat (BufMut.put_all A target ts) (H,dst) (fun _ p => BufMut.Holds A H R 0 (v++encode target ts) p) (fun _ _ => False) := by
  intro claim
  obtain ⟨H,x,sound,view⟩ := vector_of (v := List.replicate isizeMax 0) (Nat.le_of_eq List.length_replicate)
  have full : x.len = isizeMax := (length_of_view view).symm.trans List.length_replicate
  have none : (BufMut.vec x).has_remaining_mut = false := by
    rw [BufMut.has_remaining_mut,BufMut.remaining_mut,full,Nat.sub_self]
    rfl
  have well := claim (bump 0) .little (.vec x) (.vec x) H [] _ [⟨.u8,.big,0#8⟩] (.vec x) sound view
  rw [BufMut.put_all,sat_bind] at well
  simp only [BufMut.put_value,BufMut.put_u8,BufMut.put_byte,sat_bind,Method.sat_self,sat_check,none] at well
  exact well.2 nofun

end Buf
end Tcio
