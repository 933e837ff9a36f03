import Mathlib.Data.List.Basic
import Mathlib.Tactic.Common

/-!
Space that is written from the front: cells that are there already, what grows up to a
limit, and one space behind another. What is written fills the first space until no room
is left in it and goes on in the second; nothing else changes.
-/
namespace Tcio

/-- Some cells may hold nothing yet; those behind the position are never written again. -/
inductive Space (β : Type) where
  | fixed (behind rest : List (Option β))
  | grows (limit : Nat) (v : List β)
  | chain (a b : Space β)

namespace Space
variable {β : Type}

/-- How much may still be written. -/
def room : Space β → Nat
  | fixed _ rest => rest.length
  | grows limit v => limit-v.length
  | chain a b => a.room+b.room
/-- Write at the position, and move it behind what was written. -/
def write : Space β → List β → Space β
  | fixed behind rest,w => fixed (behind++w.map some) (rest.drop w.length)
  | grows limit v,w => grows limit (v++w)
  | chain a b,w => chain (a.write (w.take a.room)) (b.write (w.drop a.room))
/-- The cells that are there, wherever the position is, and what has grown. -/
def cells : Space β → List (Option β)
  | fixed behind rest => behind++rest
  | grows _ v => v.map some
  | chain a b => a.cells++b.cells

variable {s a b : Space β} {w u : List β}

@[simp] theorem write_nil : s.write [] = s := by
  induction s with
  | fixed behind rest => simp [write]
  | grows limit v => simp [write]
  | chain a b left right => rw [write,List.take_nil,List.drop_nil,left,right]

/-- What fits in the first space does not reach the second. -/
theorem write_front (le : w.length ≤ a.room) : (chain a b).write w = chain (a.write w) b := by
  rw [write,List.take_of_length_le le,List.drop_of_length_le le,write_nil]
/-- Where the first space is full, the second is written. -/
theorem write_back (none : a.room = 0) : (chain a b).write w = chain a (b.write w) := by
  rw [write,none,List.take_zero,List.drop_zero,write_nil]

theorem room_write (le : w.length ≤ s.room) : (s.write w).room = s.room-w.length := by
  induction s generalizing w with
  | fixed behind rest => rw [write,room,room,List.length_drop]
  | grows limit v =>
    rw [write,room,room,List.length_append]
    omega
  | chain a b left right =>
    rw [room] at le
    rw [write,room,room,left (List.length_take_le _ _),right (by rw [List.length_drop]; omega),List.length_take,List.length_drop]
    omega

/-- Two writes are one write of both. -/
theorem write_write (le : w.length ≤ s.room) : (s.write w).write u = s.write (w++u) := by
  induction s generalizing w u with
  | fixed behind rest => simp [write]
  | grows limit v => rw [write,write,write,List.append_assoc]
  | chain a b left right =>
    rw [room] at le
    have first := List.length_take_le a.room w
    have second : (w.drop a.room).length ≤ b.room := by
      rw [List.length_drop]
      omega
    have rest : a.room-(w.take a.room).length = a.room-w.length := by
      rw [List.length_take]
      omega
    rw [write,write,write,room_write first,left first,right second,rest,List.take_append,List.drop_append]

end Space
end Tcio
