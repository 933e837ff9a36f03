import Tcio.Pool

/-!
An allocator that always allocates behind everything that is live, leaving a gap of
the given size, and runs on it that can be evaluated.
-/
namespace Tcio
open Exec

/-- The first address behind all blocks, and behind the dangling address. -/
def Memory.top {β : Type} (m : Memory β) : Nat := ((List.range m.bound).map fun i =>
  ((m.extent i).map fun e => e.base+e.size).getD 0).foldr max 1

theorem Memory.top_pos {β : Type} (m : Memory β) : 1 ≤ m.top := by
  unfold top
  generalize (List.range m.bound).map _ = ends
  induction ends with
  | nil => exact Nat.le_refl 1
  | cons a ends ih => exact Nat.le_trans ih (Nat.le_max_right _ _)

theorem foldr_max_mem {ends : List Nat} {a : Nat} (mem : a ∈ ends) : a ≤ ends.foldr max 1 := by
  induction ends with
  | nil => cases mem
  | cons b ends ih =>
    rcases List.mem_cons.mp mem with rfl | later
    · exact Nat.le_max_left _ _
    · exact Nat.le_trans (ih later) (Nat.le_max_right _ _)

theorem Memory.le_top {β : Type} {m : Memory β} {i : Nat} {e : Extent} (live : m.extent i = some e) :
    e.base+e.size ≤ m.top := by
  obtain ⟨b,found,_⟩ := extent_eq_some.mp live
  refine foldr_max_mem (List.mem_map.mpr ⟨i,List.mem_range.mpr (Arena.lt_bound found),?_⟩)
  simp [live]

/-- Buffers are allocated in order of address, `gap` bytes apart. -/
def bump (gap : Nat) : Allocator where
  buffer H n := (H.mem.top+gap,n)
  node H := 8*(H.nodes.bound+1)
  room _ _ small := ⟨Nat.le_refl _,small⟩
  nonnull H _ := Nat.le_trans H.mem.top_pos (Nat.le_add_right _ _)
  separate H _ _ _ live := .inl (Nat.le_trans (Memory.le_top live) (Nat.le_add_right _ _))
  aligned H := ⟨by omega,by omega⟩

theorem bump_spaced (gap : Nat) : (bump gap).Spaced gap where
  low H _ := Nat.add_le_add_right H.mem.top_pos gap
  apart _ _ _ _ live _ := .inl (Nat.add_le_add_right (Memory.le_top live) gap)

namespace World

/-- Static memory that holds the given bytes. -/
def start (static : List UInt8) : World where
  heap := ⟨(Arena.empty.insert ⟨dangling,fun _ => none⟩).insert ⟨⟨16,static.length,true⟩,fun a => static[a-16]?⟩,.empty⟩
  pool := []

theorem start_initial (static : List UInt8) : (start static).Initial where
  pool := rfl
  nodes _ := rfl
  static i e live := by
    simp only [start,Memory.extent,Arena.get_insert,Arena.empty] at live
    split_ifs at live <;> cases live <;> rfl
  dangling := rfl

/-- A list of operations that all return. -/
def play (A : Allocator) : List Op → World → Option World
  | [],w => some w
  | op :: ops,w => match exec A op w with
    | (.ok _,w') => play A ops w'
    | _ => none

theorem play_run {A : Allocator} {w w' : World} {R : World → World → Prop} {ops : List Op} (steps : ∀ op ∈ ops, ∀ w w', Step A op w w' → R w w')
    (played : play A ops w = some w') : Relation.ReflTransGen R w w' := by
  induction ops generalizing w with
  | nil =>
    cases played
    exact .refl
  | cons op ops ih =>
    unfold play at played
    split at played
    · next out w₁ ran =>
      refine .head (steps op List.mem_cons_self w w₁ (.inl ⟨out,ran⟩)) ?_
      exact ih (fun op mem => steps op (List.mem_cons_of_mem _ mem)) played
    · cases played

end World
end Tcio
