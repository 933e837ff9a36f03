import Tcio.ByteOrder
import Tcio.BufSpec

/-!
Reading integers from a cursor. The methods for integers of more than one byte come from
one macro, over the type and the byte order; those for single bytes are written out.
-/
namespace Tcio
open Exec

/-- The integer types that `Buf` and `BufMut` have methods for. -/
inductive IntTy where
  | u8 | i8 | u16 | i16 | u32 | i32 | u64 | i64 | u128 | i128
  deriving DecidableEq, Repr

namespace IntTy
/-- `size_of` -/
def size : IntTy → Nat
  | u8 => 1
  | i8 => 1
  | u16 => 2
  | i16 => 2
  | u32 => 4
  | i32 => 4
  | u64 => 8
  | i64 => 8
  | u128 => 16
  | i128 => 16
/-- The bits of a value; those of a signed integer are its two's complement. -/
abbrev Value (ty : IntTy) : Type := BitVec (8*ty.size)

theorem size_small (ty : IntTy) : ty.size ≤ 16 := by cases ty <;> decide
end IntTy

/-- The byte order that a method names; that of the target for the native one. -/
inductive Endian where
  | big | little | native
  deriving DecidableEq, Repr

def Endian.order (target : ByteOrder) : Endian → ByteOrder
  | big => .big
  | little => .little
  | native => target

namespace Buf
variable (target : ByteOrder)

def try_get_u8 (self : Buf) : Exec Heap (Option UInt8 × Buf) := do
  match (← self.chunk).head? with
  | some b => return (some b,← self.advance 1)
  | none => return (none,self)
/-- The byte as a signed integer of the same bits. -/
def try_get_i8 (self : Buf) : Exec Heap (Option Int8 × Buf) := do
  match (← self.chunk).head? with
  | some b => return (some b.toInt8,← self.advance 1)
  | none => return (none,self)
/-- The `try_get_` methods of the macro. -/
def try_get_int (ty : IntTy) (endian : Endian) (self : Buf) : Exec Heap (Option ty.Value × Buf) := do
  let (chunk,self) ← self.copy_to_slice (List.replicate ty.size 0)
  return (some ((endian.order target).from_bytes ty.size chunk),self)
/-- The `try_get_` method for a type and a byte order. -/
def try_get (ty : IntTy) (endian : Endian) (self : Buf) : Exec Heap (Option ty.Value × Buf) :=
  match ty with
  | .u8 => do
    let (n,self) ← self.try_get_u8
    return (n.map UInt8.toBitVec,self)
  | .i8 => do
    let (n,self) ← self.try_get_i8
    return (n.map Int8.toBitVec,self)
  | ty => self.try_get_int target ty endian
/-- The `get_` methods; `remaining_fail` panics. -/
def get (ty : IntTy) (endian : Endian) (self : Buf) : Exec Heap (ty.Value × Buf) := do
  match ← self.try_get target ty endian with
  | (some ok,self) => return (ok,self)
  | (none,_) => stop .panic

end Buf
end Tcio
