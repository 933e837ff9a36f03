import Mathlib.Tactic.Common
import Mathlib.Data.Nat.Basic
import Mathlib.Algebra.Group.Nat.Defs

/-!
Fixed-width words as bytes, from the least or from the most significant byte on. Taking
the bytes of a word and putting them together again are inverse to each other.
-/
namespace Tcio

namespace ByteOrder

/-- The bytes of a number, the least significant first; what lies above them is lost. -/
def to_le_bytes : Nat → Nat → List UInt8
  | 0,_ => []
  | size+1,n => UInt8.ofNat n :: to_le_bytes size (n/256)
/-- The number with the given bytes, the least significant first. -/
def from_le_bytes : List UInt8 → Nat
  | [] => 0
  | b :: bytes => b.toNat+256*from_le_bytes bytes

variable {size n : Nat} {bytes : List UInt8}

@[simp] theorem length_to_le_bytes : (to_le_bytes size n).length = size := by
  induction size generalizing n with
  | zero => rfl
  | succ size ih => rw [to_le_bytes,List.length_cons,ih]

theorem from_to_le_bytes : from_le_bytes (to_le_bytes size n) = n % 256^size := by
  induction size generalizing n with
  | zero => simp [to_le_bytes,from_le_bytes,Nat.mod_one]
  | succ size ih =>
    have split : n % 256^(size+1) = n % 256+256*(n/256 % 256^size) := by rw [Nat.pow_succ',Nat.mod_mul]
    rw [to_le_bytes,from_le_bytes,ih,UInt8.toNat_ofNat',split]

end ByteOrder

/-- Which byte of a word comes first. -/
inductive ByteOrder where
  | big
  | little
  deriving DecidableEq, Repr

namespace ByteOrder
variable {size : Nat} {bytes : List UInt8}

def to_bytes (order : ByteOrder) (word : BitVec (8*size)) : List UInt8 :=
  match order with
  | big => (to_le_bytes size word.toNat).reverse
  | little => to_le_bytes size word.toNat
def from_bytes (order : ByteOrder) (size : Nat) (bytes : List UInt8) : BitVec (8*size) :=
  match order with
  | big => BitVec.ofNat _ (from_le_bytes bytes.reverse)
  | little => BitVec.ofNat _ (from_le_bytes bytes)

@[simp] theorem length_to_bytes {order : ByteOrder} {word : BitVec (8*size)} : (order.to_bytes word).length = size := by
  cases order <;> simp [to_bytes]

/-- A word is read back as it was written. -/
theorem from_to_bytes {order : ByteOrder} {word : BitVec (8*size)} : order.from_bytes size (order.to_bytes word) = word := by
  have low : word.toNat % 256^size = word.toNat := by
    have bound := word.isLt
    rw [Nat.pow_mul] at bound
    exact Nat.mod_eq_of_lt bound
  cases order <;> simp [to_bytes,from_bytes,from_to_le_bytes,low]

end ByteOrder
end Tcio
