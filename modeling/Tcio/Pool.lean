import Tcio.Invariant
import Mathlib.Logic.Relation

/-!
A single-threaded run over any number of handles. A pool of slots holds the values
that are alive; an operation names the slots of its operands, and a new handle gets
a slot of its own. An operation that panics unwinds, so the run goes on with what the
handles have become; an abort ends the run.
-/
namespace Tcio
open Exec

/-- The heap and the values on it. A slot whose value was moved out is empty. -/
structure World where
  heap : Heap
  pool : List (Option Handle)

/-- The public operations, with the slots of their operands. -/
inductive Op where
  /-- A vector with the given bytes and spare capacity behind them. -/
  | vec (v : List UInt8) (spare : Nat)
  | bytes_new
  | bytes_from_static (p : Ptr) (len : Nat)
  | bytes_from_vec (i : Nat)
  | bytes_from_box (i : Nat)
  | bytes_copy_from_slice (v : List UInt8)
  | bytes_mut_new
  | bytes_mut_with_capacity (n : Nat)
  | bytes_mut_from_vec (i : Nat)
  | bytes_mut_copy_from_slice (v : List UInt8)
  | clone (i : Nat)
  | slice (i : Nat) (lo hi : Bound)
  | slice_from_raw (i addr len : Nat)
  | advance (i n : Nat)
  | truncate (i n : Nat)
  | truncate_off (i n : Nat)
  | clear (i : Nat)
  | split (i : Nat)
  | split_to (i at_ : Nat)
  | split_off (i at_ : Nat)
  | try_split_to (i at_ : Nat)
  | try_split_off (i at_ : Nat)
  | split_to_ptr (i addr : Nat)
  | split_off_ptr (i addr : Nat)
  | unsplit (i j : Nat)
  | try_unsplit (i j : Nat)
  | extend_from_slice (i : Nat) (v : List UInt8)
  | as_mut_slice (i at_ : Nat) (v : List UInt8)
  | reserve (i n : Nat)
  | try_reclaim (i n : Nat)
  | try_reclaim_full (i : Nat)
  | freeze (i : Nat)
  | into_mut (i : Nat)
  | into_vec (i : Nat)
  | drop (i : Nat)

/-- What an operation returns besides handles. -/
inductive Outcome where
  | done
  /-- `None` or `Err` of a `try_` method. -/
  | refused
  | flag (b : Bool)
  deriving DecidableEq, Repr

namespace World

/-! ### Slots -/

def slot (w : World) (i : Nat) : Option Handle := (w.pool[i]?).join
def handles (w : World) : List Handle := w.pool.filterMap id
/-- What `as_slice` returns in each slot. -/
def views (w : World) : List (Option (List UInt8)) := w.pool.map fun o => o.bind (·.view w.heap)

/-- The value in a slot; a program that names an empty slot does not compile. -/
def handle (i : Nat) : Exec World Handle := do ofOption .stuck ((← get).slot i)
def store (i : Nat) (o : Option Handle) : Exec World Unit := modify fun w => { w with pool := w.pool.set i o }
def push (h : Handle) : Exec World Unit := modify fun w => { w with pool := w.pool++[some h] }
def onHeap {α : Type} (x : Exec Heap α) : Exec World α := zoom World.heap (fun w H => { w with heap := H }) x
/-- Call a method on the value in a slot. -/
def method {S α : Type} (i : Nat) (inj : S → Handle) (self : S) (x : Method S α) : Exec World α :=
  zoom (fun w => (w.heap,self)) (fun w p => ⟨p.1,w.pool.set i (some (inj p.2))⟩) x
/-- Call the method of the type that is in a slot. -/
def call {α : Type} (i : Nat) (bytes : Method Bytes α) (bytesMut : Method BytesMut α) : Exec World α := do
  match ← handle i with
  | .bytes b => method i .bytes b bytes
  | .bytesMut m => method i .bytesMut m bytesMut
  | .vec _ => stop .stuck
/-- A method that only one of the types has. -/
def missing {S α : Type} : Method S α := stop .stuck
/-- Move a value out of its slot. -/
def move (i : Nat) : Exec World Handle := do
  let h ← handle i
  store i none
  return h
def move_vec (i : Nat) : Exec World Vec := do
  match ← move i with
  | .vec v => return v
  | _ => stop .stuck
def move_bytes (i : Nat) : Exec World Bytes := do
  match ← move i with
  | .bytes b => return b
  | _ => stop .stuck
def move_bytes_mut (i : Nat) : Exec World BytesMut := do
  match ← move i with
  | .bytesMut m => return m
  | _ => stop .stuck

/-! ### Operations -/

variable (A : Allocator)

/-- A vector that the caller fills. -/
def new_vec (v : List UInt8) (spare : Nat) : Exec Heap Vec := do
  let vec ← Vec.with_capacity A (v.length+spare)
  Heap.write vec.ptr v
  return { vec with len := v.length }

/-- A static slice: initialized bytes that are never written nor freed. -/
def IsStatic (H : Heap) (p : Ptr) (len : Nat) : Prop :=
  len ≤ isizeMax ∧ (H.mem.extent p.prov).any Extent.frozen = true ∧ (H.mem.load p len).isSome = true
instance (H : Heap) (p : Ptr) (len : Nat) : Decidable (IsStatic H p len) := inferInstanceAs (Decidable (_ ∧ _))

def drop_handle : Handle → Exec Heap Unit
  | .bytes b => b.drop
  | .bytesMut m => m.drop
  | .vec v => v.drop

/-- Put the handle that a `try_` method returns in a slot. -/
def push_some : Option Handle → Exec World Outcome
  | some h => do
    push h
    return .done
  | none => return .refused

def exec : Op → Exec World Outcome
  | .vec v spare => do
    push (.vec (← onHeap (new_vec A v spare)))
    return .done
  | .bytes_new => do
    push (.bytes Bytes.new)
    return .done
  | .bytes_from_static p len => do
    check .stuck (IsStatic (← get).heap p len)
    push (.bytes (Bytes.from_static p len))
    return .done
  | .bytes_from_vec i => do
    let v ← move_vec i
    push (.bytes (← onHeap (Bytes.from_vec A v)))
    return .done
  | .bytes_from_box i => do
    let v ← move_vec i
    check .stuck (v.len = v.cap)
    push (.bytes (Bytes.from_box v))
    return .done
  | .bytes_copy_from_slice v => do
    push (.bytes (← onHeap (Bytes.copy_from_slice A v)))
    return .done
  | .bytes_mut_new => do
    push (.bytesMut BytesMut.new)
    return .done
  | .bytes_mut_with_capacity n => do
    push (.bytesMut (← onHeap (BytesMut.with_capacity A n)))
    return .done
  | .bytes_mut_from_vec i => do
    let v ← move_vec i
    push (.bytesMut (BytesMut.from_vec v))
    return .done
  | .bytes_mut_copy_from_slice v => do
    push (.bytesMut (← onHeap (BytesMut.copy_from_slice A v)))
    return .done
  | .clone i => do
    push (← call i (.bytes <$> Bytes.clone A) (do return .bytesMut (← onFst ((← Method.self).clone A))))
    return .done
  | .slice i lo hi => do
    push (← call i (.bytes <$> Bytes.slice A lo hi) missing)
    return .done
  | .slice_from_raw i addr len => do
    push (← call i (.bytes <$> Bytes.slice_from_raw A addr len) missing)
    return .done
  | .advance i n => do
    call i (Bytes.advance n) (BytesMut.advance n)
    return .done
  | .truncate i n => do
    call i (Bytes.truncate A n) (BytesMut.truncate n)
    return .done
  | .truncate_off i n => do
    call i (Bytes.truncate_off A n) (BytesMut.truncate_off n)
    return .done
  | .clear i => do
    call i Bytes.clear BytesMut.clear
    return .done
  | .split i => do
    push (← call i missing (.bytesMut <$> BytesMut.split A))
    return .done
  | .split_to i at_ => do
    push (← call i (.bytes <$> Bytes.split_to A at_) (.bytesMut <$> BytesMut.split_to A at_))
    return .done
  | .split_off i at_ => do
    push (← call i (.bytes <$> Bytes.split_off A at_) (.bytesMut <$> BytesMut.split_off A at_))
    return .done
  | .try_split_to i at_ => do
    push_some (← call i (Option.map .bytes <$> Bytes.try_split_to A at_)
      (Option.map .bytesMut <$> BytesMut.try_split_to A at_))
  | .try_split_off i at_ => do
    push_some (← call i (Option.map .bytes <$> Bytes.try_split_off A at_)
      (Option.map .bytesMut <$> BytesMut.try_split_off A at_))
  | .split_to_ptr i addr => do
    push (← call i missing (.bytesMut <$> BytesMut.split_to_ptr A addr))
    return .done
  | .split_off_ptr i addr => do
    push (← call i missing (.bytesMut <$> BytesMut.split_off_ptr A addr))
    return .done
  | .unsplit i j => do
    let other ← move_bytes_mut j
    call i missing (BytesMut.unsplit A other)
    return .done
  | .try_unsplit i j => do
    let other ← move_bytes_mut j
    match ← call i missing (BytesMut.try_unsplit other) with
    | .ok () => return .done
    | .error other =>
      store j (some (.bytesMut other))
      return .refused
  | .extend_from_slice i v => do
    check .stuck (v.length ≤ isizeMax)
    call i missing (BytesMut.extend_from_slice A v)
    return .done
  | .as_mut_slice i at_ v => do
    call i missing (do onFst ((← Method.self).as_mut_slice at_ v))
    return .done
  | .reserve i n => do
    call i missing (BytesMut.reserve A n)
    return .done
  | .try_reclaim i n => return .flag (← call i missing (BytesMut.try_reclaim A n))
  | .try_reclaim_full i => return .flag (← call i missing (BytesMut.try_reclaim_full A))
  | .freeze i => do
    let m ← move_bytes_mut i
    push (.bytes (← onHeap (m.freeze A)))
    return .done
  | .into_mut i => do
    let b ← move_bytes i
    push (.bytesMut (← onHeap (b.into_mut A)))
    return .done
  | .into_vec i => do
    let b ← move_bytes i
    push (.vec (← onHeap (b.into_vec A)))
    return .done
  | .drop i => do
    let h ← move i
    onHeap (drop_handle h)
    return .done

/-- An operation of a run, which returns or panics. -/
def Step (op : Op) (w w' : World) : Prop := (∃ out, exec A op w = (.ok out,w')) ∨ exec A op w = (.error .panic,w')
/-- A finite run. -/
def Run : World → World → Prop := Relation.ReflTransGen fun w w' => ∃ op, Step A op w w'

/-- Nothing is allocated yet; static memory is there. -/
structure Initial (w : World) : Prop where
  pool : w.pool = []
  nodes : ∀ k, w.heap.nodes.get k = none
  static : ∀ i e, w.heap.mem.extent i = some e → e.frozen = true
  dangling : w.heap.mem.extent 0 = some dangling

end World
end Tcio
