import Tcio.Views

/-!
One handle lent to many threads that clone it at the same time. A call on a borrowed handle
is cut into its atomic steps: the load of the data word, the allocation of a candidate node,
the exchange of the word, and the changes of a count. Handles are dropped only while no call
borrows them, in steps as well. What was installed, returned and freed is recorded as events.
-/
namespace Tcio
open Exec Method

/-! ### Giving a reference up -/

/-- The release of a node, before one of its steps. -/
inductive Release where
  | fetch_sub (shared : Ptr)
  /-- The buffer is about to be freed. -/
  | free (vec : Vec)
  deriving DecidableEq, Repr

namespace Release

/-- The box of a node is freed with the step that took the last reference, since no one else
    can reach it. -/
def step : Release → Exec Heap (Option Release)
  | .fetch_sub shared => do
    if (← Shared.fetch_sub shared) ≠ 1 then return none
    let node ← Shared.deref shared
    let vec ← Vec.from_raw_parts node.ptr 0 node.cap
    Shared.free shared
    return some (.free vec)
  | .free vec => do
    vec.drop
    return none

end Release

/-- What is left to do of `drop_inner` after it read the data word. -/
def Bytes.drop_begin (self : Bytes) : Exec Heap (Option Release) := do
  let shared := self.data
  if Shared.is_null shared then return none
  match ← Shared.into_unpromoted shared with
  | .ok offset => return some (.free (← self.build_unpromoted_vec offset))
  | .error shared => return some (.fetch_sub shared)

/-! ### Cloning -/

/-- `clone_inner` on a borrowed handle, before one of its steps. -/
inductive Cloning where
  | load
  /-- `promote_ref` is about to build its candidate. -/
  | promote (offset : Nat) (shared : Ptr)
  | compare_exchange (shared new_shared : Ptr)
  /-- Another thread was faster, and the candidate is being released. -/
  | release (r : Release) (promoted_shared : Ptr)
  | increment (shared : Ptr)
  deriving DecidableEq, Repr

namespace Cloning

/-- A step, with the call that is left or the handle it returns. -/
def step (A : Allocator) : Cloning → Method Bytes (Except Cloning Bytes)
  | .load => do
    let me ← self
    let shared := me.data
    if Shared.is_null shared then return .ok { me with data := Shared.null }
    match ← onFst (Shared.as_unpromoted shared) with
    | .ok offset => return .error (.promote offset shared)
    | .error shared_ref => return .error (.increment shared_ref)
  | .promote offset shared => do
    let me ← self
    let vec ← onFst (me.build_unpromoted_vec offset)
    let new_shared ← onFst (Shared.promote_with_vec A vec 2)
    return .error (.compare_exchange shared new_shared)
  | .compare_exchange shared new_shared => do
    let me ← self
    if me.data = shared then
      put { me with data := new_shared }
      return .ok { me with data := new_shared }
    return .error (.release (.fetch_sub new_shared) me.data)
  | .release r promoted_shared => do
    match ← onFst r.step with
    | some r' => return .error (.release r' promoted_shared)
    | none => return .error (.increment promoted_shared)
  | .increment shared => do
    onFst (Shared.increment shared)
    return .ok { ← self with data := shared }

end Cloning

/-- What a thread may ask of a borrowed handle. -/
inductive Request where
  | clone
  | slice (begin_ end_ : Nat)
  deriving DecidableEq, Repr

/-- The view the result is to have. A slice out of range panics, and an empty one takes no
    reference. -/
def Request.view (b : Bytes) : Request → Option (Ptr × Nat)
  | .clone => some (b.ptr,b.len)
  | .slice begin_ end_ => if begin_ < end_ ∧ end_ ≤ b.len then some (b.ptr.add begin_,end_-begin_) else none

/-- A call in progress: the handle it borrows, the view of its result, and what is left of it. -/
structure Clone where
  handle : Nat
  ptr : Ptr
  len : Nat
  next : Cloning
  deriving DecidableEq, Repr

/-! ### The race -/

/-- Handles by the order they came to be, where a dropped one leaves its place, and what is in
    progress. -/
structure Race where
  heap : Heap
  handles : List (Option Bytes)
  clones : List Clone
  drops : List Release

inductive Event where
  /-- The data word of a handle becomes another. -/
  | installs (handle : Nat) (shared : Ptr)
  | returns (b : Bytes)
  | frees (vec : Vec)
  deriving DecidableEq, Repr

inductive Turn where
  | borrow (i : Nat) (r : Request)
  | tick (c : Clone)
  | drop (i : Nat)
  | finish (r : Release)
  deriving DecidableEq, Repr

/-- The handle and the node of an install. -/
def Event.installed : Event → Option (Nat × Ptr)
  | .installs i shared => some (i,shared)
  | _ => none
def Event.isFree : Event → Bool
  | .frees _ => true
  | _ => false

def Release.events : Release → List Event
  | .fetch_sub _ => []
  | .free vec => [.frees vec]
/-- A step of a call frees a buffer only where it releases a candidate. -/
def Cloning.events : Cloning → List Event
  | .release r _ => r.events
  | _ => []

namespace Race

/-- One handle. -/
def start (H : Heap) (b : Bytes) : Race := ⟨H,[some b],[],[]⟩

/-- What a step of a call on the handle `b` leaves, with the handle now `b'`. -/
def ticked (S : Race) (c : Clone) (b : Bytes) (next : Except Cloning Bytes) (H : Heap) (b' : Bytes) : List Event × Race :=
  let word := if b'.data = b.data then [] else [Event.installs c.handle b'.data]
  let handles := S.handles.set c.handle (some b')
  let clones := S.clones.erase c
  match next with
  | .error next => (word++c.next.events,{ S with heap := H, handles, clones := { c with next } :: clones })
  | .ok r =>
    let r := { r with ptr := c.ptr, len := c.len }
    (word++c.next.events++[.returns r],{ S with heap := H, handles := handles++[some r], clones })

def tick (A : Allocator) (S : Race) (c : Clone) (b : Bytes) : Except Stop (List Event × Race) :=
  match c.next.step A (S.heap,b) with
  | (.ok next,(H,b')) => .ok (S.ticked c b next H b')
  | (.error k,_) => .error k

def drop (S : Race) (i : Nat) (b : Bytes) : Except Stop (List Event × Race) :=
  match b.drop_begin S.heap with
  | (.ok r,H) => .ok ([],{ S with heap := H, handles := S.handles.set i none, drops := r.toList++S.drops })
  | (.error k,_) => .error k

def finish (S : Race) (r : Release) : Except Stop (List Event × Race) :=
  match r.step S.heap with
  | (.ok r',H) => .ok (r.events,{ S with heap := H, drops := r'.toList++S.drops.erase r })
  | (.error k,_) => .error k

/-- A turn that can be taken, and what it leads to. -/
def move (A : Allocator) (S : Race) : Turn → Option (Except Stop (List Event × Race))
  | .borrow i r => do
    let b ← S.handles[i]?.join
    let (ptr,len) ← r.view b
    return .ok ([],{ S with clones := ⟨i,ptr,len,.load⟩ :: S.clones })
  | .tick c => do
    let b ← S.handles[c.handle]?.join
    if c ∈ S.clones then return S.tick A c b else none
  | .drop i => do
    let b ← S.handles[i]?.join
    if ∀ c ∈ S.clones, c.handle ≠ i then return S.drop i b else none
  | .finish r => if r ∈ S.drops then some (S.finish r) else none

/-- The runs of a race, with the events on the way. -/
inductive Run (A : Allocator) (S : Race) : List Event → Race → Prop where
  | start : Run A S [] S
  | step {evs new : List Event} {S' S'' : Race} {t : Turn} : Run A S evs S' → S'.move A t = some (.ok (new,S'')) →
    Run A S (evs++new) S''

/-! ### What is observed -/

/-- The live handles that carry a node. -/
def carrying (S : Race) (shared : Ptr) : Nat := S.handles.countP fun h => h.any fun b => b.data = shared
/-- The count of a node, none of whose references is left once it is freed. -/
def ref_count (S : Race) (shared : Ptr) : Nat := (S.heap.nodes.get shared.prov).elim 0 fun boxed => boxed.shared.ref_count

end Race
end Tcio
