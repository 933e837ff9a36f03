import Tcio.Utf8
import Tcio.PoolSpec
import Mathlib.Data.Nat.Find

/-!
`ByteStr`: a `Bytes` that holds UTF-8. Its conversions to strings are unchecked, and are
undefined behaviour where the bytes are not UTF-8. The runs are those of the pool, where
some of the slots hold a `ByteStr`.
-/
namespace Tcio
open Exec Method

/-- A `&str`: where its bytes are. -/
structure Str where
  ptr : Ptr
  len : Nat
  deriving DecidableEq, Repr

/-- How far the bytes are UTF-8. -/
structure Utf8Error where
  valid_up_to : Nat
  deriving DecidableEq, Repr

namespace Str

/-- `str::from_utf8`. -/
def from_utf8 (v : List UInt8) : Except Utf8Error Unit :=
  if Utf8 v then .ok () else .error ⟨Nat.findGreatest (fun n => Utf8 (v.take n)) v.length⟩
/-- `str::from_utf8_unchecked`. -/
def from_utf8_unchecked (v : List UInt8) : Exec Heap (List UInt8) := do
  check .fault (Utf8 v)
  return v

/-- The bytes are there and are UTF-8, as every `&str` promises. -/
def Valid (H : Heap) (s : Str) : Prop := (H.mem.load s.ptr s.len).any (fun v => Utf8 v) = true
instance (H : Heap) (s : Str) : Decidable (s.Valid H) := inferInstanceAs (Decidable (_ = true))

end Str

/-- INVARIANT: `bytes` is a valid utf8. -/
structure ByteStr where
  bytes : Bytes
  deriving DecidableEq, Repr

structure FromUtf8Error where
  bytes : Bytes
  error : Utf8Error
  deriving DecidableEq, Repr

/-- A string that is borrowed for good, or a `String`. -/
inductive Cow (Owned : Type) where
  | Borrowed (s : Str)
  | Owned (s : Owned)

namespace ByteStr
variable (A : Allocator)

/-- A method of `Bytes` on the bytes. -/
def inner {α : Type} (x : Method Bytes α) : Method ByteStr α := zoom (fun p => (p.1,p.2.bytes)) (fun _ q => (q.1,⟨q.2⟩)) x

/-! ### Constructors -/

def new : ByteStr := ⟨Bytes.new⟩
def from_utf8 (bytes : Bytes) : Exec Heap (Except FromUtf8Error ByteStr) := do
  match Str.from_utf8 (← bytes.as_slice) with
  | .ok () => return .ok ⟨bytes⟩
  | .error error => return .error ⟨bytes,error⟩
def from_slice_of (subset : Str) : Method Bytes ByteStr := do
  return ⟨← Bytes.slice_from_raw A subset.ptr.addr subset.len⟩
def copy_from_str (string : List UInt8) : Exec Heap ByteStr := do
  return ⟨← Bytes.copy_from_slice A string⟩
def from_static (string : Str) : ByteStr := ⟨Bytes.from_static string.ptr string.len⟩
def from_boxed_str (value : Vec) : ByteStr := ⟨Bytes.from_box value⟩
def from_string (value : Vec) : Exec Heap ByteStr := do
  return ⟨← Bytes.from_vec A value⟩
def from_cow : Cow Vec → Exec Heap ByteStr
  | .Borrowed s => return from_static s
  | .Owned s => from_string A s

/-! ### Methods -/

def as_str (self : ByteStr) : Exec Heap (List UInt8) := do
  Str.from_utf8_unchecked (← self.bytes.as_slice)
def is_unique (self : ByteStr) : Exec Heap Bool := self.bytes.is_unique
def clone : Method ByteStr ByteStr := do
  return ⟨← inner (Bytes.clone A)⟩
/-- The length and the boundaries of characters are those of the `str`. -/
def truncate (new_len : Nat) : Method ByteStr Unit := do
  let str ← onFst (← self).as_str
  if new_len ≤ str.length then
    let str ← onFst (← self).as_str
    check .panic (Utf8.is_char_boundary str new_len)
    inner (Bytes.truncate A new_len)
def clear : Method ByteStr Unit := inner Bytes.clear
def slice_ref (subset : Str) : Method ByteStr ByteStr := do
  return ⟨← inner (Bytes.slice_ref A subset.ptr.addr subset.len)⟩
def into_string (self : ByteStr) : Exec Heap Vec := do
  let vec ← self.bytes.into_vec A
  let _ ← Str.from_utf8_unchecked (← Heap.read vec.ptr vec.len)
  return vec
def into_bytes (self : ByteStr) : Bytes := self.bytes

end ByteStr

/-! ### Runs -/

/-- The slots of the operands. -/
def Op.operands : Op → List Nat
  | .bytes_from_vec i | .bytes_from_box i | .bytes_mut_from_vec i => [i]
  | .clone i | .slice i _ _ | .slice_from_raw i _ _ | .advance i _ | .truncate i _ | .truncate_off i _ | .clear i => [i]
  | .split i | .split_to i _ | .split_off i _ | .try_split_to i _ | .try_split_off i _ => [i]
  | .split_to_ptr i _ | .split_off_ptr i _ => [i]
  | .unsplit i j | .try_unsplit i j => [i,j]
  | .extend_from_slice i _ | .as_mut_slice i _ _ | .reserve i _ | .try_reclaim i _ | .try_reclaim_full i => [i]
  | .freeze i | .into_mut i | .into_vec i | .drop i => [i]
  | .vec _ _ | .bytes_new | .bytes_from_static _ _ | .bytes_copy_from_slice _ => []
  | .bytes_mut_new | .bytes_mut_with_capacity _ | .bytes_mut_copy_from_slice _ => []

/-- The public operations of `ByteStr`, and those on the other values. -/
inductive StrOp where
  | new
  | from_utf8 (i : Nat)
  | from_slice_of (i : Nat) (subset : Str)
  | copy_from_str (v : List UInt8)
  | from_static (s : Str)
  | from_boxed_str (i : Nat)
  | from_string (i : Nat)
  | from_cow (s : Cow Nat)
  | clone (i : Nat)
  | truncate (i n : Nat)
  | clear (i : Nat)
  | slice_ref (i : Nat) (subset : Str)
  | into_string (i : Nat)
  | into_bytes (i : Nat)
  | drop (i : Nat)
  | other (op : Op)

/-- The pool, and which of its slots hold a `ByteStr`. -/
structure Strings where
  world : World
  texts : List Nat

namespace Strings

def onWorld {α : Type} (x : Exec World α) : Exec Strings α := zoom Strings.world (fun t w => { t with world := w }) x
def onHeap {α : Type} (x : Exec Heap α) : Exec Strings α := onWorld (World.onHeap x)
def is_text (i : Nat) : Exec Strings Unit := do check .stuck (i ∈ (← get).texts)
def is_other (i : Nat) : Exec Strings Unit := do check .stuck (i ∉ (← get).texts)
/-- A new `ByteStr` gets a slot of its own. -/
def push (s : ByteStr) : Exec Strings Unit := do
  let t ← get
  onWorld (World.push (.bytes s.bytes))
  modify fun u => { u with texts := t.world.pool.length :: t.texts }
/-- Call a method on the `Bytes` in a slot, or on the `ByteStr` made of it. -/
def method {S α : Type} (i : Nat) (of : Bytes → S) (back : S → Bytes) (x : Method S α) : Exec Strings α := do
  match ← onWorld (World.handle i) with
  | .bytes b => onWorld (World.method i (fun s => .bytes (back s)) (of b) x)
  | _ => stop .stuck
def call {α : Type} (i : Nat) (x : Method ByteStr α) : Exec Strings α := do
  is_text i
  method i ByteStr.mk ByteStr.bytes x
def move (i : Nat) : Exec Strings ByteStr := do
  is_text i
  let b ← onWorld (World.move_bytes i)
  modify fun t => { t with texts := t.texts.filter (· ≠ i) }
  return ⟨b⟩
/-- A `String`, which is a vector that holds UTF-8. -/
def move_string (i : Nat) : Exec Strings Vec := do
  let vec ← onWorld (World.move_vec i)
  check .stuck (Str.Valid (← get).world.heap ⟨vec.ptr,vec.len⟩)
  return vec

variable (A : Allocator)

def exec : StrOp → Exec Strings Outcome
  | .new => do
    push ByteStr.new
    return .done
  | .from_utf8 i => do
    is_other i
    let bytes ← onWorld (World.move_bytes i)
    match ← onHeap (ByteStr.from_utf8 bytes) with
    | .ok s =>
      push s
      return .done
    | .error error =>
      onWorld (World.push (.bytes error.bytes))
      return .refused
  | .from_slice_of i subset => do
    is_other i
    check .stuck (subset.Valid (← get).world.heap)
    push (← method i id id (ByteStr.from_slice_of A subset))
    return .done
  | .copy_from_str v => do
    check .stuck (Utf8 v)
    push (← onHeap (ByteStr.copy_from_str A v))
    return .done
  | .from_static s => do
    let H := (← get).world.heap
    check .stuck (World.IsStatic H s.ptr s.len ∧ s.Valid H)
    push (ByteStr.from_static s)
    return .done
  | .from_boxed_str i => do
    let vec ← move_string i
    check .stuck (vec.len = vec.cap)
    push (ByteStr.from_boxed_str vec)
    return .done
  | .from_string i => do
    let vec ← move_string i
    push (← onHeap (ByteStr.from_string A vec))
    return .done
  | .from_cow (.Borrowed s) => do
    let H := (← get).world.heap
    check .stuck (World.IsStatic H s.ptr s.len ∧ s.Valid H)
    push (← onHeap (ByteStr.from_cow A (.Borrowed s)))
    return .done
  | .from_cow (.Owned i) => do
    let vec ← move_string i
    push (← onHeap (ByteStr.from_cow A (.Owned vec)))
    return .done
  | .clone i => do
    push (← call i (ByteStr.clone A))
    return .done
  | .truncate i n => do
    call i (ByteStr.truncate A n)
    return .done
  | .clear i => do
    call i ByteStr.clear
    return .done
  | .slice_ref i subset => do
    check .stuck (subset.Valid (← get).world.heap)
    push (← call i (ByteStr.slice_ref A subset))
    return .done
  | .into_string i => do
    let s ← move i
    onWorld (World.push (.vec (← onHeap (s.into_string A))))
    return .done
  | .into_bytes i => do
    let s ← move i
    onWorld (World.push (.bytes s.into_bytes))
    return .done
  | .drop i => do
    let s ← move i
    onHeap s.bytes.drop
    return .done
  | .other op => do
    check .stuck (∀ i ∈ op.operands, i ∉ (← get).texts)
    onWorld (World.exec A op)

/-- An operation of a run, which returns or panics. -/
def Step (op : StrOp) (t t' : Strings) : Prop := (∃ out, exec A op t = (.ok out,t')) ∨ exec A op t = (.error .panic,t')

/-- Equal addresses hold equal bytes: where the string and the handle in a slot lie at the same
    addresses, they have the same bytes. -/
def Agrees (t : Strings) (i : Nat) (s : Str) : Prop :=
  ∀ b, t.world.slot i = some (.bytes b) → ∀ k < s.len, ∀ l < b.len, s.ptr.addr+k = b.ptr.addr+l →
    t.world.heap.mem.load (s.ptr.add k) 1 = t.world.heap.mem.load (b.ptr.add l) 1

/-- What is promised of the operands beside their types. -/
def Allowed (t : Strings) : StrOp → Prop
  | .from_slice_of i s => t.Agrees i s
  | .slice_ref i s => t.Agrees i s
  | .other op => t.world.Joinable op
  | _ => True

/-- A finite run. -/
def Run : Strings → Strings → Prop := Relation.ReflTransGen fun t t' => ∃ op, t.Allowed op ∧ Step A op t t'

end Strings
end Tcio
