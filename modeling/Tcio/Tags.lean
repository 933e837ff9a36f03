import Tcio.Capacity

/-!
What a data word says. The word of an offset gives the offset back to every decoder, the
address of a node gives that address, and null gives neither. In every state that a run
reaches, the offset of a handle and any way it can still be moved forward leave the top
bit free, so that nothing is shifted out.
-/
namespace Tcio
open Exec

namespace Shared
variable {data word : Ptr} {value : Nat} {H : Heap}

/-- Every decoder gives the offset, without a look at the heap. -/
structure Decodes (word : Ptr) (value : Nat) : Prop where
  is_unpromoted : is_unpromoted word = true
  to_unpromoted : to_unpromoted word = some value
  as_unpromoted : ∀ H, as_unpromoted word H = (.ok (.ok value),H)
  as_unpromoted_mut : ∀ H, as_unpromoted_mut word H = (.ok (.ok value),H)
  into_unpromoted : ∀ H, into_unpromoted word H = (.ok (.ok value),H)

end Shared

namespace World
open Shared
variable {A : Allocator} {w₀ w : World}

/-- Whatever is added to the offset of a handle within its room leaves the top bit free. -/
structure Clear (w : World) (h : Handle) (offset : Nat) : Prop where
  /-- The offset is the distance from the start of the allocation. -/
  spans : offset ≤ h.ptr.addr ∧ Spans w.heap (h.ptr.sub offset) (offset+h.room)
  free : ∀ count ≤ h.room, (offset+count) &&& MSB = 0 ∧ wrap ((offset+count) <<< RESERVED_BIT_DATA) = (offset+count) <<< RESERVED_BIT_DATA
  bytes : ∀ b, h = .bytes b → ∀ count ≤ b.len, ∃ b', Bytes.advance_unchecked count (w.heap,b) = (.ok (),w.heap,b') ∧
    Decodes b'.data (offset+count)
  bytesMut : ∀ m, h = .bytesMut m → ∀ count ≤ m.cap, ∃ m', BytesMut.advance_unchecked count (w.heap,m) = (.ok (),w.heap,m') ∧
    Decodes m'.data (offset+count)

end World
end Tcio
