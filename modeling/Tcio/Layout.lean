import Tcio.Ownership

/-!
Where the handles lie in every state a run reaches, where the allocator never places
two buffers next to each other.
-/
namespace Tcio
open Exec Ledger

namespace World
variable {A : Allocator} {w₀ w : World} {i j : Nat} {h r : Handle}

/-- Every handle lies in its buffer, and those that may write lie apart from the others
    of the same node. -/
structure LaidOut (w : World) : Prop where
  /-- An unpromoted `BytesMut` reaches to the end of its allocation, and its offset tells
      where that begins. -/
  bytesMut : ∀ m, .bytesMut m ∈ w.handles → m.len ≤ m.cap ∧ match hold m.data with
    | .null => False
    | .unpromoted offset => offset ≤ m.ptr.addr ∧ Spans w.heap (m.ptr.sub offset) (offset+m.cap)
    | .promoted => InNode w.heap m.data ⟨m.ptr.prov,m.ptr.addr,m.ptr.addr+m.cap⟩
  /-- So does an unpromoted `Bytes`. -/
  bytes : ∀ b, .bytes b ∈ w.handles → match hold b.data with
    | .null => True
    | .unpromoted offset => offset ≤ b.ptr.addr ∧ Spans w.heap (b.ptr.sub offset) (offset+b.len)
    | .promoted => InNode w.heap b.data ⟨b.ptr.prov,b.ptr.addr,b.ptr.addr+b.len⟩
  disjoint : ∀ i j m h, i ≠ j → w.slot i = some (.bytesMut m) → w.slot j = some h →
    hold m.data = .promoted → hold h.data = .promoted → m.data = h.data →
    ∀ a, ¬ ((m.ptr.addr ≤ a ∧ a < m.ptr.addr+m.cap) ∧ h.ptr.addr ≤ a ∧ a < h.ptr.addr+h.room)
  written : ∀ h ∈ w.handles, ∃ v, v.length = h.len ∧ h.view w.heap = some v

/-- The other handles are those of the other slots. -/
theorem mem_rest (other : i ≠ j) (there : w.slot j = some h) : h ∈ w.rest i := by
  refine List.mem_filterMap.mpr ⟨some h,?_,rfl⟩
  rw [slot_eq_some] at there
  exact List.mem_of_getElem? (by rw [List.getElem?_set_ne other]; exact there)

theorem Sound.apart_slots (sound : w.Sound) (other : i ≠ j) (here : w.slot i = some h) (there : w.slot j = some r) : h.Apart r := by
  obtain ⟨_,_,_,focused⟩ := sound.focus here
  exact (List.pairwise_cons.mp focused.apart).1 r (mem_rest other there)

theorem mem_of_slot (here : w.slot i = some h) : h ∈ w.handles :=
  (handles_perm here).mem_iff.mpr List.mem_cons_self

theorem Sound.laid_out (sound : w.Sound) : w.LaidOut := by
  constructor
  · intro m mem
    have placed := sound.placed _ mem
    refine ⟨placed.fits,?_⟩
    rcases placed.bytesMut with ⟨offset,word,low,spans⟩ | ⟨word,inside⟩
    · rw [word]
      exact ⟨low,spans⟩
    · rw [word]
      exact inside
  · intro b mem
    have placed := sound.placed _ mem
    cases word : hold b.data with
    | null => trivial
    | unpromoted offset => exact placed.of_unpromoted word
    | promoted => exact placed.of_promoted word
  · intro i j m h other here there word word' same a
    obtain ⟨boxed,live,_,one⟩ := (sound.placed _ (mem_of_slot here)).of_promoted word
    obtain ⟨boxed',live',_,two⟩ := (sound.placed _ (mem_of_slot there)).of_promoted word'
    rw [show (Handle.bytesMut m).data = h.data from same] at live
    cases live.symm.trans live'
    exact Region.apart_iff.mp (sound.apart_slots other here there (.inl trivial)) a (one.1.trans two.1.symm)
  · intro h mem
    obtain ⟨v,view⟩ := Option.ne_none_iff_exists'.mp (sound.placed h mem).viewed
    exact ⟨v,Memory.load_length view,view⟩

/-- No operation of a run subtracts more than there is or rebuilds a vector from anything
    but its whole allocation: that would be a fault. -/
theorem run_laid_out (spaced : A.Spaced 1) (initial : w₀.Initial) (run : Run A w₀ w) :
    w.LaidOut ∧ ∀ op w', exec A op w ≠ (.error .fault,w') := by
  obtain ⟨sound,spread⟩ := run_spaced spaced initial run
  refine ⟨sound.laid_out,fun op w' ran => ?_⟩
  have refines := exec_refines A sound op (joinable_of_spread sound spread op)
  rwa [Refines,sat_of_error ran] at refines

theorem run_laid_out_halves : ∃ w, Run (bump 1) (start []) w ∧ w.handles.length = 2 ∧ w.LaidOut := by
  obtain ⟨w,run,two⟩ := halves_spaced
  exact ⟨w,run,two,(run_laid_out (bump_spaced 1) (start_initial []) run).1⟩

end World
end Tcio
