import Mathlib.Data.List.Count

/-!
Allocations by identity. An identity is given out once and never again, and the
arena records the identities it has taken back, so "freed exactly once" is a fact
about the record (`Arena.once`) that every arena carries.
-/
namespace Tcio

/-- Live allocations by identity, with the record of those taken back. -/
@[ext] structure Arena (ν : Type) where
  get : Nat → Option ν
  /-- The identity the next allocation gets. -/
  bound : Nat
  freed : List Nat
  fresh : ∀ i, bound ≤ i → get i = none
  once : ∀ i, freed.count i = if i < bound ∧ get i = none then 1 else 0

namespace Arena
variable {ν : Type}

def empty : Arena ν where
  get _ := none
  bound := 0
  freed := []
  fresh _ _ := rfl
  once _ := by simp

/-- A new allocation, whose identity is the bound. -/
def insert (a : Arena ν) (v : ν) : Arena ν where
  get i := if i = a.bound then some v else a.get i
  bound := a.bound+1
  freed := a.freed
  fresh i high := by
    have other : i ≠ a.bound := by omega
    simp only [other,↓reduceIte]
    exact a.fresh i (by omega)
  once i := by
    rw [a.once i]
    by_cases new : i = a.bound
    · simp [new]
    · have same : i < a.bound+1 ↔ i < a.bound := by omega
      simp [new,same]

/-- Change what a live allocation holds. -/
def update (a : Arena ν) (i : Nat) (f : ν → ν) : Arena ν where
  get j := if j = i then (a.get j).map f else a.get j
  bound := a.bound
  freed := a.freed
  fresh j high := by simp [a.fresh j high]
  once j := by
    rw [a.once j]
    by_cases here : j = i <;> simp [here]

/-- Take a live allocation back. -/
def free (a : Arena ν) (i : Nat) : Arena ν where
  get j := if j = i then none else a.get j
  bound := a.bound
  freed := if (a.get i).isSome then i :: a.freed else a.freed
  fresh j high := by simp [a.fresh j high]
  once j := by
    have before := a.once j
    cases live : a.get i with
    | none =>
      by_cases here : j = i
      · simp_all
      · simp [here,before]
    | some v =>
      have low : i < a.bound := by
        by_contra high
        have := a.fresh i (by omega)
        simp [this] at live
      by_cases here : j = i
      · subst here
        simp_all
      · simp [here,before,Ne.symm here]

variable {a : Arena ν} {v : ν} {i j : Nat} {f : ν → ν}

theorem lt_bound (live : a.get i = some v) : i < a.bound := by
  by_contra high
  have := a.fresh i (by omega)
  simp [this] at live

@[simp] theorem get_bound : a.get a.bound = none := a.fresh _ (Nat.le_refl _)
@[simp] theorem insert_bound : (a.insert v).bound = a.bound+1 := rfl
theorem get_insert : (a.insert v).get i = if i = a.bound then some v else a.get i := rfl
theorem get_update : (a.update i f).get j = if j = i then (a.get j).map f else a.get j := rfl
theorem get_free : (a.free i).get j = if j = i then none else a.get j := rfl
@[simp] theorem get_insert_bound : (a.insert v).get a.bound = some v := by simp [get_insert]
@[simp] theorem get_update_self : (a.update i f).get i = (a.get i).map f := by simp [get_update]
@[simp] theorem get_free_self : (a.free i).get i = none := by simp [get_free]
theorem get_insert_ne (other : i ≠ a.bound) : (a.insert v).get i = a.get i := by simp [get_insert,other]
theorem get_update_ne (other : j ≠ i) : (a.update i f).get j = a.get j := by simp [get_update,other]
theorem get_free_ne (other : j ≠ i) : (a.free i).get j = a.get j := by simp [get_free,other]

/-- What is live stays what it was when another allocation is made. -/
theorem get_insert_of_live {w : ν} (live : a.get i = some w) : (a.insert v).get i = some w := by
  rw [get_insert_ne (Nat.ne_of_lt (lt_bound live)),live]

/-! ### An arena and what it became -/

/-- No identity is given out again. -/
structure Later (a b : Arena ν) : Prop where
  bound : a.bound ≤ b.bound
  gone : ∀ i, i < a.bound → a.get i = none → b.get i = none

namespace Later
variable {b c : Arena ν}

theorem refl (a : Arena ν) : Later a a := ⟨Nat.le_refl _,fun _ _ => id⟩
theorem trans (one : Later a b) (two : Later b c) : Later a c where
  bound := Nat.le_trans one.bound two.bound
  gone i low none := two.gone i (Nat.lt_of_lt_of_le low one.bound) (one.gone i low none)

theorem insert (a : Arena ν) (v : ν) : Later a (a.insert v) where
  bound := Nat.le_succ _
  gone i low none := by rw [get_insert_ne (Nat.ne_of_lt low),none]
theorem update (a : Arena ν) (i : Nat) (f : ν → ν) : Later a (a.update i f) where
  bound := Nat.le_refl _
  gone j _ none := by simp [get_update,none]
theorem free (a : Arena ν) (i : Nat) : Later a (a.free i) where
  bound := Nat.le_refl _
  gone j _ none := by simp [get_free,none]

/-- What was there and is no longer was taken back once in between, and nothing else was. -/
theorem count (later : Later a b) (low : i < a.bound) :
    b.freed.count i = a.freed.count i+(if a.get i ≠ none ∧ b.get i = none then 1 else 0) := by
  rw [a.once i,b.once i]
  have low' : i < b.bound := Nat.lt_of_lt_of_le low later.bound
  by_cases before : a.get i = none
  · simp [low,low',before,later.gone i low before]
  · simp [low',before]

end Later
end Arena
end Tcio
