import Tcio.Capacity

/-!
Cutting a part out of the view of a `Bytes`, by a range or by an address: exactly the parts
that lie inside come out, and everything else is refused with nothing changed.
-/
namespace Tcio
open Exec Ledger

namespace World
variable {A : Allocator} {w₀ w : World} {b : Bytes} {v : List UInt8} {i : Nat}

/-- A reference count that is too large counts that many handles. -/
theorem Sound.many (sound : w.Sound) (crowded : Crowded w.heap) : isizeMax < w.handles.length := by
  obtain ⟨k,boxed,live,large⟩ := crowded
  have node : entry w.heap k = some (boxed.shared.ref_count,blockOf boxed.shared.ptr boxed.shared.cap) :=
    entry_eq_some.mpr ⟨boxed,live,rfl,rfl⟩
  have count := (sound.ledger.counted _ _ _ node).1
  have fewer := List.count_le_length (a := Claim.share k) (l := []++w.handles.map Handle.claim)
  rw [List.nil_append,List.length_map] at fewer
  rw [List.nil_append] at count
  omega

/-- What comes out: the bytes of the part, within the old handle, which keeps its view. -/
def Part (b : Bytes) (v : List UInt8) (k n : Nat) (c : Bytes) (p : Heap × Bytes) : Prop :=
  k+n ≤ v.length ∧ (Handle.bytes c).view p.1 = some ((v.drop k).take n) ∧ (Handle.bytes p.2).view p.1 = some v ∧
    c.ptr = b.ptr.add k ∧ c.len = n ∧ b.ptr.addr ≤ c.ptr.addr ∧ c.ptr.addr+c.len ≤ b.ptr.addr+b.len
/-- The part from `k` on of `n` bytes comes out if and only if it lies `inside`; else the call
    panics and changes nothing. Where it lies inside, the process is aborted if there are more
    handles than can be counted. -/
def CutsOut (w : World) (b : Bytes) (v : List UInt8) (inside : Prop) (k n : Nat) (x : Method Bytes Bytes) : Prop :=
  Sat x (w.heap,b) (fun c p => inside ∧ Part b v k n c p)
    (fun stop p => stop = .panic ∧ ¬ inside ∧ p = (w.heap,b) ∨ stop = .abort ∧ inside ∧ isizeMax < w.handles.length)

theorem part_of_turns {H : Heap} {R : List Handle} {k n : Nat} {c : Bytes} {p : Heap × Bytes} (length : v.length = b.len)
    (bound : k+n ≤ v.length) (ptr : c.ptr = b.ptr.add k) (len : c.len = n)
    (turns : Turns A H R p.1 [] [(.bytes p.2,v),(.bytes c,(v.drop k).take n)]) : Part b v k n c p := by
  have part := turns.views (.bytes c,_) (List.mem_cons_of_mem _ List.mem_cons_self)
  have whole := turns.views (.bytes p.2,v) List.mem_cons_self
  refine ⟨bound,part,whole,ptr,len,?_⟩
  rw [ptr,Ptr.add]
  simp only
  omega

/-- A slice is returned exactly where its range is in order and in bounds, read as integers. -/
theorem cuts_exactly (initial : w₀.Initial) (run : JoinableRun A w₀ w) (here : w.slot i = some (.bytes b))
    (view : (Handle.bytes b).view w.heap = some v) (fits : b.ptr.addr+v.length < 2^64) :
    (∀ lo hi, w.CutsOut b v (Bytes.first lo ≤ Bytes.last v.length hi ∧ Bytes.last v.length hi ≤ v.length)
      (Bytes.first lo) (Bytes.last v.length hi-Bytes.first lo) (Bytes.slice A lo hi)) ∧
    ∀ addr n, w.CutsOut b v (b.ptr.addr ≤ addr ∧ addr+n ≤ b.ptr.addr+v.length) (addr-b.ptr.addr) n (Bytes.slice_from_raw A addr n) ∧
      w.CutsOut b v (b.ptr.addr ≤ addr ∧ addr+n ≤ b.ptr.addr+v.length) (addr-b.ptr.addr) n (Bytes.slice_ref A addr n) := by
  have sound := run_sound initial run
  obtain ⟨v',_,view',focused⟩ := sound.focus here
  cases view.symm.trans view'
  have length : v.length = b.len := length_of_view view
  have raw (addr n : Nat) : w.CutsOut b v (b.ptr.addr ≤ addr ∧ addr+n ≤ b.ptr.addr+v.length) (addr-b.ptr.addr) n
      (Bytes.slice_from_raw A addr n) := by
    refine (Bytes.slice_from_raw_spec focused view).mono ?_ ?_
    · rintro c p ⟨⟨_,low,high⟩,⟨ptr,len⟩,turns⟩
      exact ⟨⟨low,high⟩,part_of_turns length (by omega) ptr len turns⟩
    · rintro _ _ (⟨rfl,crowded,_,inside⟩ | ⟨rfl,rfl,outside⟩)
      · exact .inr ⟨rfl,inside,sound.many crowded⟩
      · exact .inl ⟨rfl,fun inside => outside ⟨by omega,inside⟩,rfl⟩
  refine ⟨fun lo hi => (Bytes.slice_spec focused view).mono ?_ ?_,fun addr n => ⟨raw addr n,raw addr n⟩⟩
  · rintro c p ⟨⟨order,bound⟩,⟨ptr,len⟩,turns⟩
    exact ⟨⟨order,bound⟩,part_of_turns length (by omega) ptr len turns⟩
  · rintro _ _ (⟨rfl,crowded,inside⟩ | ⟨rfl,rfl,outside⟩)
    · exact .inr ⟨rfl,inside,sound.many crowded⟩
    · exact .inl ⟨rfl,outside,rfl⟩

/-- A `Bytes` of three bytes and a slice that shares them. -/
theorem shared_slots : (play (bump 1) [.bytes_copy_from_slice [1,2,3],.slice 0 (.Excluded 0) .Unbounded] (start [])).map (fun w =>
    (w.slot 1,w.heap.mem.load ⟨18,2⟩ 2)) = some (some (.bytes ⟨⟨18,2⟩,2,⟨8,0⟩⟩),some [2,3]) := by
  decide +kernel

/-- The last byte of the slice comes out of it, and no range goes beyond it. -/
theorem cuts_shared : ∃ w : World, w.CutsOut ⟨⟨18,2⟩,2,⟨8,0⟩⟩ [2,3] (1 ≤ 2 ∧ 2 ≤ 2) 1 1 (Bytes.slice (bump 1) (.Included 1) .Unbounded) := by
  obtain ⟨w,played,slots⟩ := Option.map_eq_some_iff.mp shared_slots
  obtain ⟨here,view⟩ := Prod.mk.inj slots
  have run : JoinableRun (bump 1) (start []) w := plain_run (by decide) played
  exact ⟨w,(cuts_exactly (start_initial []) run here view (by decide)).1 (.Included 1) .Unbounded⟩

end World
end Tcio
