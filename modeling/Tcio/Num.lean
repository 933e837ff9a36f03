import Tcio.Checked
import Mathlib.Data.Nat.Digits.Lemmas
import Mathlib.Data.FinEnum

/-!
Parsing integers from ASCII. Operators that check nothing are taken with the check that
debug builds put there, so that it is seen whether they can ever overflow. The characters
are `b'0'` = 48, `b'+'` = 43 and `b'-'` = 45.
-/
namespace Tcio
open Machine

instance : Machine UInt64 where
  int n := n.toNat
  fit v := if 0 ≤ v ∧ v < 2^64 then some (UInt64.ofNat v.toNat) else none
  fit_iff {v n} := by
    have small := n.toNat_lt
    split
    · rw [Option.some.injEq,← UInt64.toNat_inj,UInt64.toNat_ofNat']
      omega
    · simp only [reduceCtorEq,false_iff]
      omega
  between {x y v} above below := by
    have small := y.toNat_lt
    exact ⟨UInt64.ofNat v.toNat,by rw [UInt64.toNat_ofNat']; omega⟩

instance : Machine Int64 where
  int n := n.toInt
  fit v := if -2^63 ≤ v ∧ v < 2^63 then some (Int64.ofInt v) else none
  fit_iff {v n} := by
    have low := n.le_toInt
    have high := n.toInt_lt
    split
    · rename_i inside
      rw [Option.some.injEq,← Int64.toInt_inj,Int64.toInt_ofInt_of_le inside.1 inside.2,eq_comm]
    · simp only [reduceCtorEq,false_iff]
      omega
  between {x y v} above below := by
    have low := x.le_toInt
    have high := y.toInt_lt
    exact ⟨Int64.ofInt v,Int64.toInt_ofInt_of_le (by omega) (by omega)⟩

instance : Machine Int8 where
  int n := n.toInt
  fit v := if -2^7 ≤ v ∧ v < 2^7 then some (Int8.ofInt v) else none
  fit_iff {v n} := by
    have low := n.le_toInt
    have high := n.toInt_lt
    split
    · rename_i inside
      rw [Option.some.injEq,← Int8.toInt_inj,Int8.toInt_ofInt_of_le inside.1 inside.2,eq_comm]
    · simp only [reduceCtorEq,false_iff]
      omega
  between {x y v} above below := by
    have low := x.le_toInt
    have high := y.toInt_lt
    exact ⟨Int8.ofInt v,Int8.toInt_ofInt_of_le (by omega) (by omega)⟩

@[simp] theorem int_u64 {n : UInt64} : int n = (n.toNat : Int) := rfl
@[simp] theorem int_i64 {n : Int64} : int n = n.toInt := rfl
@[simp] theorem int_i8 {n : Int8} : int n = n.toInt := rfl

namespace Num

def U64_MAX_CH : Nat := 20
def I64_MAX_CH : Nat := 20

/-- An operator went past the ends of its type. -/
inductive Overflow where
  | overflow
  deriving DecidableEq, Repr

/-- What an operator gives that checks nothing by itself. -/
def unchecked {α : Type} : Option α → Except Overflow α
  | some x => .ok x
  | none => .error .overflow
/-- `-x` -/
def neg (x : Int8) : Except Overflow Int8 := unchecked (fit (-int x))
/-- `x * y` -/
def mul (x y : Int8) : Except Overflow Int8 := unchecked (checked_mul x y)

def atou (bytes : List UInt8) : Option UInt64 :=
  if bytes.length > U64_MAX_CH ∨ bytes = [] then none
  else bytes.foldlM (fun acc next =>
    let b := next-48
    if b ≤ 9 then (checked_mul acc 10).bind fun n => checked_add n b.toUInt64 else none) 0

def wrapping_atou (bytes : List UInt8) : Option UInt64 :=
  bytes.foldlM (fun acc next =>
    let b := next-48
    if b ≤ 9 then some (acc*10+b.toUInt64) else none) 0

/-- What `atoi` does with one byte; the outer level is the check of the operator. -/
def atoi_step (sign : Int8) (acc : Int64) (next : UInt8) : OptionT (Except Overflow) Int64 :=
  let b := (next-48).toInt8
  if 0 ≤ b ∧ b ≤ 9 then OptionT.mk do
    match checked_mul acc 10 with
    | none => return none
    | some n => return checked_add n (← mul b sign).toInt64
  else OptionT.mk (pure none)

def atoi (bytes : List UInt8) : Except Overflow (Option Int64) :=
  if bytes.length > I64_MAX_CH then .ok none
  else match bytes with
    | [] => .ok none
    | head :: rest =>
      if head = 43 ∨ head = 45 then
        if rest = [] then .ok none
        else do (rest.foldlM (atoi_step (← neg (head.toInt8-0x2C))) (0 : Int64)).run
      else (bytes.foldlM (atoi_step 1) (0 : Int64)).run

end Num
end Tcio
