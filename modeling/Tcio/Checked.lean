import Mathlib.Tactic.Common
import Mathlib.Tactic.Linarith
import Mathlib.Data.Int.Order.Basic
import Mathlib.Algebra.Order.Ring.Int

/-!
Machine integers by the integers they hold, and positional numbers read into them with a
check at every step. A check fails at some prefix exactly when the whole number does not fit.
-/
namespace Tcio

/-- A fold that stops at the first element of the wrong kind looks at them all, where steps may stop it too. -/
theorem foldlM_kind {α β : Type} (kind : β → Prop) [DecidablePred kind] (f : β → α) (step : α → α → Option α) {acc : α} {s : List β} :
    s.foldlM (fun acc b => if kind b then step acc (f b) else none) acc =
      if ∀ b ∈ s, kind b then (s.map f).foldlM step acc else none := by
  induction s generalizing acc with
  | nil => simp
  | cons b s ih =>
    rw [List.foldlM_cons]
    by_cases here : kind b
    · rw [if_pos here,List.map_cons,List.foldlM_cons]
      cases step acc (f b) with
      | none => simp
      | some next => simp [ih,here]
    · rw [if_neg here]
      simp [here]

/-- A type that holds some integers, and with any two of them those between. -/
class Machine (α : Type) where
  int : α → Int
  fit : Int → Option α
  fit_iff {v : Int} {x : α} : fit v = some x ↔ int x = v
  between {x y : α} {v : Int} : int x ≤ v → v ≤ int y → ∃ z, int z = v

namespace Machine
variable {α : Type} [Machine α]

/-- The product, unless the type does not hold it. -/
def checked_mul (x y : α) : Option α := fit (int x*int y)
/-- The sum, unless the type does not hold it. -/
def checked_add (x y : α) : Option α := fit (int x+int y)
/-- One digit more. -/
def checked_step (base acc d : α) : Option α := (checked_mul acc base).bind fun n => checked_add n d
/-- The digits in turn, each after what came before it times the base. -/
def horner (base acc : Int) (digits : List Int) : Int := digits.foldl (fun acc d => acc*base+d) acc

@[simp] theorem fit_int {x : α} : fit (int x) = some x := fit_iff.2 rfl

theorem fit_cases (v : Int) : (fit v : Option α) = none ∨ ∃ x : α, fit v = some x ∧ int x = v := by
  cases fits : (fit v : Option α) with
  | none => exact Or.inl rfl
  | some x => exact Or.inr ⟨x,rfl,fit_iff.1 fits⟩

/-- What lies between two held integers is held, in either direction. -/
theorem fit_between {x : α} {sign v w : Int} (unit : sign = 1 ∨ sign = -1) (after : sign*int x ≤ sign*v) (before : sign*v ≤ sign*w)
    (lost : (fit v : Option α) = none) : (fit w : Option α) = none := by
  rcases fit_cases (α := α) w with none | ⟨y,_,rfl⟩
  · exact none
  · have held : ∃ z : α, int z = v := by
      rcases unit with rfl | rfl
      · exact between (x := x) (y := y) (by omega) (by omega)
      · exact between (x := y) (y := x) (by omega) (by omega)
    obtain ⟨z,rfl⟩ := held
    simp at lost

@[simp] theorem horner_cons {base acc d : Int} {digits : List Int} :
    horner base acc (d :: digits) = horner base (acc*base+d) digits := rfl

theorem grows {base sign acc : Int} (big : 1 ≤ base) (start : 0 ≤ sign*acc) : sign*acc ≤ sign*(acc*base) := by
  have more : sign*acc*1 ≤ sign*acc*base := mul_le_mul_of_nonneg_left big start
  rwa [mul_one,mul_assoc] at more
/-- Digits of one sign only take a number further from zero. -/
theorem horner_grows {base sign acc : Int} {digits : List Int} (big : 1 ≤ base) (start : 0 ≤ sign*acc)
    (same : ∀ d ∈ digits, 0 ≤ sign*d) : sign*acc ≤ sign*horner base acc digits := by
  induction digits generalizing acc with
  | nil => exact le_refl _
  | cons d digits ih =>
    have first := same d List.mem_cons_self
    have next := grows big start
    have total : sign*(acc*base+d) = sign*(acc*base)+sign*d := mul_add _ _ _
    have positive : 0 ≤ sign*(acc*base+d) := by omega
    have rest := ih positive fun d mem => same d (List.mem_cons_of_mem _ mem)
    rw [horner_cons]
    omega

theorem horner_mul {base sign acc : Int} {digits : List Int} :
    horner base (sign*acc) (digits.map (sign*·)) = sign*horner base acc digits := by
  induction digits generalizing acc with
  | nil => rfl
  | cons d digits ih => rw [List.map_cons,horner_cons,horner_cons,← ih,mul_add,mul_assoc]

/-- Reading with checks fails exactly when the whole number does not fit. -/
theorem checked_fold {base acc : α} {digits : List α} {sign : Int} (unit : sign = 1 ∨ sign = -1) (big : 1 ≤ int base)
    (start : 0 ≤ sign*int acc) (same : ∀ d ∈ digits, 0 ≤ sign*int d) :
    digits.foldlM (checked_step base) acc = fit (horner (int base) (int acc) (digits.map int)) := by
  induction digits generalizing acc with
  | nil => simp [horner]
  | cons d digits ih =>
    have first := same d List.mem_cons_self
    have rest : ∀ d ∈ digits, 0 ≤ sign*int d := fun d mem => same d (List.mem_cons_of_mem _ mem)
    have signs : ∀ v ∈ digits.map int, 0 ≤ sign*v := by
      intro v mem
      obtain ⟨d,inside,rfl⟩ := List.mem_map.1 mem
      exact rest d inside
    have next := grows big start
    have total : sign*(int acc*int base+int d) = sign*(int acc*int base)+sign*int d := mul_add _ _ _
    have positive : 0 ≤ sign*(int acc*int base+int d) := by omega
    have last := horner_grows big positive signs
    rw [List.foldlM_cons,List.map_cons,horner_cons,checked_step,checked_mul]
    rcases fit_cases (α := α) (int acc*int base) with lost | ⟨n,fits,value⟩
    · rw [lost,fit_between unit next (by omega) lost]
      rfl
    · rw [fits,Option.bind_some,checked_add,value]
      rcases fit_cases (α := α) (int acc*int base+int d) with lost | ⟨n',fits',value'⟩
      · rw [lost,fit_between (x := acc) unit (by omega) last lost]
        rfl
      · rw [fits',← value']
        exact ih (by rw [value']; omega) rest

end Machine
end Tcio
