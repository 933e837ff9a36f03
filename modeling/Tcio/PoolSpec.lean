import Tcio.Pool
import Tcio.BytesSpec

/-!
The pool as a list of handles, and what each operation means for their views: what it
does when it returns (`Effect`), when it panics (`Refused`) and what it leaves then, and
which operands it asks for (`Callable`). The one thing that is not seen from the views
is what `try_unsplit` joins (`Joinable`).
-/
namespace Tcio
open Exec

namespace World
variable {A : Allocator} {w w' : World} {H H' : Heap} {h h' r : Handle} {R : List Handle} {i j : Nat}
variable {v v' u : List UInt8} {p q : List (Option Handle)} {L : List (Handle × List UInt8)}

/-- The heap is sound for the handles of the pool. -/
def Sound (w : World) : Prop := Tcio.Sound w.heap [] w.handles

/-- The world goes on soundly, with these views. -/
structure Settles (A : Allocator) (w w' : World) (views : List (Option (List UInt8))) : Prop where
  sound : w'.Sound
  views : w'.views = views
  later : w.heap.Later A w'.heap

/-! ### The pool as a list of handles -/

/-- The handles but the one in a slot. -/
def rest (w : World) (i : Nat) : List Handle := (w.pool.set i none).filterMap id

def viewsOf (H : Heap) (p : List (Option Handle)) : List (Option (List UInt8)) := p.map fun o => o.bind (·.view H)

theorem viewsOf_set (o : Option Handle) : viewsOf H (p.set i o) = (viewsOf H p).set i (o.bind (·.view H)) := by
  simp [viewsOf,List.map_set]
theorem viewsOf_append : viewsOf H (p++q) = viewsOf H p++viewsOf H q := List.map_append
theorem viewsOf_frame (frame : ∀ r ∈ p.filterMap id, r.view H' = r.view H) : viewsOf H' p = viewsOf H p := by
  refine List.map_congr_left fun o mem => ?_
  cases o with
  | none => rfl
  | some r => exact frame r (List.mem_filterMap.mpr ⟨some r,mem,rfl⟩)

theorem slot_eq_some : w.slot i = some h ↔ w.pool[i]? = some (some h) := by
  unfold slot
  cases w.pool[i]? <;> simp

theorem view_of_slot (here : w.slot i = some h) : w.views[i]? = some (h.view w.heap) := by
  rw [slot_eq_some] at here
  simp [views,here]

/-- Filling an empty slot adds a handle. -/
theorem fill_perm (empty : p[i]? = some none) : ((p.set i (some h)).filterMap id).Perm (h :: p.filterMap id) := by
  induction p generalizing i with
  | nil => simp at empty
  | cons o p ih =>
    cases i with
    | zero =>
      simp only [List.getElem?_cons_zero,Option.some.injEq] at empty
      subst empty
      simp
    | succ i =>
      have inner := ih (by simpa using empty)
      cases o with
      | none => simpa using inner
      | some r =>
        simp only [List.set_cons_succ,List.filterMap_cons_some (f := id) rfl]
        exact (inner.cons r).trans (List.Perm.swap ..)

theorem vacated (here : w.slot i = some h) : (w.pool.set i none)[i]? = some none := by
  rw [slot_eq_some] at here
  have := (List.getElem?_eq_some_iff.mp here).1
  simp [this]

theorem set_slot (here : w.slot i = some h) : w.pool.set i (some h) = w.pool := by
  obtain ⟨inside,found⟩ := List.getElem?_eq_some_iff.mp (slot_eq_some.mp here)
  rw [← found]
  exact List.set_getElem_self inside

theorem set_view (viewed : w.views[i]? = some (some v)) : w.views.set i (some v) = w.views := by
  obtain ⟨inside,found⟩ := List.getElem?_eq_some_iff.mp viewed
  rw [← found]
  exact List.set_getElem_self inside

theorem handles_perm (here : w.slot i = some h) : w.handles.Perm (h :: w.rest i) := by
  have filled := fill_perm (h := h) (vacated here)
  rwa [List.set_set,set_slot here] at filled

/-- A handle of the pool, with the bytes it views, beside the others. -/
theorem Sound.focus (sound : w.Sound) (here : w.slot i = some h) :
    ∃ v, w.views[i]? = some (some v) ∧ h.view w.heap = some v ∧ Tcio.Sound w.heap [] (h :: w.rest i) := by
  have focused := Tcio.Sound.perm sound (handles_perm here)
  obtain ⟨v,view⟩ := Option.ne_none_iff_exists'.mp (focused.placed h List.mem_cons_self).viewed
  exact ⟨v,by rw [view_of_slot here,view],view,focused⟩

/-! ### Handles that are put back -/

theorem settle_push (turns : Turns A w.heap w.handles H' [] [(h,v)]) :
    Settles A w ⟨H',w.pool++[some h]⟩ (w.views++[some v]) where
  sound := by
    refine turns.sound.perm ?_
    show (h :: w.handles).Perm ((w.pool++[some h]).filterMap id)
    rw [List.filterMap_append]
    exact (List.perm_append_singleton h w.handles).symm
  views := by
    show viewsOf H' (w.pool++[some h]) = _
    rw [viewsOf_append,viewsOf_frame turns.frame]
    simp [viewsOf,views,turns.view]
  later := turns.later

theorem settle_set (here : w.slot i = some h) (turns : Turns A w.heap (w.rest i) H' [] [(h',v')]) :
    Settles A w ⟨H',w.pool.set i (some h')⟩ (w.views.set i (some v')) where
  sound := by
    have filled := fill_perm (h := h') (vacated here)
    rw [List.set_set] at filled
    exact turns.sound.perm filled.symm
  views := by
    show viewsOf H' (w.pool.set i (some h')) = _
    rw [← List.set_set (a := none),viewsOf_set,viewsOf_frame turns.frame,viewsOf_set,List.set_set]
    simp [viewsOf,views,turns.view]
  later := turns.later

theorem settle_drop (turns : Turns A w.heap (w.rest i) H' [] []) :
    Settles A w ⟨H',w.pool.set i none⟩ (w.views.set i none) where
  sound := turns.sound
  views := by
    show viewsOf H' (w.pool.set i none) = _
    rw [viewsOf_frame turns.frame,viewsOf_set]
    rfl
  later := turns.later

/-- The operand is moved out and a new handle comes. -/
theorem settle_move (turns : Turns A w.heap (w.rest i) H' [] [(h,v)]) :
    Settles A w ⟨H',w.pool.set i none++[some h]⟩ (w.views.set i none++[some v]) where
  sound := by
    refine turns.sound.perm ?_
    show (h :: w.rest i).Perm ((w.pool.set i none++[some h]).filterMap id)
    rw [List.filterMap_append]
    exact (List.perm_append_singleton h (w.rest i)).symm
  views := by
    show viewsOf H' (w.pool.set i none++[some h]) = _
    rw [viewsOf_append,viewsOf_frame turns.frame,viewsOf_set]
    simp [viewsOf,views,turns.view]
  later := turns.later

/-- The operand is changed and a new handle comes. -/
theorem settle_cut (here : w.slot i = some h) (turns : Turns A w.heap (w.rest i) H' [] [(h',v'),(r,u)]) :
    Settles A w ⟨H',w.pool.set i (some h')++[some r]⟩ (w.views.set i (some v')++[some u]) where
  sound := by
    have filled := fill_perm (h := h') (vacated here)
    rw [List.set_set] at filled
    refine turns.sound.perm ?_
    show (h' :: r :: w.rest i).Perm ((w.pool.set i (some h')++[some r]).filterMap id)
    rw [List.filterMap_append]
    refine (List.Perm.swap ..).trans ((filled.symm.cons r).trans ?_)
    exact (List.perm_append_singleton r _).symm
  views := by
    show viewsOf H' (w.pool.set i (some h')++[some r]) = _
    rw [viewsOf_append,← List.set_set (a := none),viewsOf_set,viewsOf_frame turns.frame,viewsOf_set,List.set_set]
    simp [viewsOf,views,turns.view,turns.views (r,u) (by simp)]
  later := turns.later

/-! ### What an operation means for the views -/

/-- The length of the view in a slot. -/
def len (w : World) (i : Nat) : Nat := ((w.slot i).map Handle.len).getD 0
/-- How far a slot may be split off: the length of a `Bytes`, the capacity of a `BytesMut`. -/
def room (w : World) (i : Nat) : Nat := ((w.slot i).map Handle.room).getD 0
/-- The address of the first byte of a slot. -/
def addr (w : World) (i : Nat) : Nat := ((w.slot i).map fun h => h.ptr.addr).getD 0
/-- The second handle is empty, or begins where the first ends on a node. -/
def Unites (w : World) (i j : Nat) : Prop := ∃ m o, w.slot i = some (.bytesMut m) ∧ w.slot j = some (.bytesMut o) ∧
  (o.cap = 0 ∨ m.Joins o)

/-- The views of the pool after the operation on slot `i` alone is `f`. -/
def Acts (w : World) (i : Nat) (f : List UInt8 → List UInt8) (after : List (Option (List UInt8))) : Prop :=
  ∃ v, w.views[i]? = some (some v) ∧ after = w.views.set i (some (f v))
/-- The slot keeps one part of its view and another comes out. -/
def Cuts (w : World) (i : Nat) (keep out : List UInt8 → List UInt8) (after : List (Option (List UInt8))) : Prop :=
  ∃ v, w.views[i]? = some (some v) ∧ after = w.views.set i (some (keep v))++[some (out v)]
/-- The value moves out of its slot and comes out as another type with the same view. -/
def Becomes (w : World) (i : Nat) (after : List (Option (List UInt8))) : Prop :=
  ∃ v, w.views[i]? = some (some v) ∧ after = w.views.set i none++[some v]

/-- What an operation that returns does to the views. -/
def Effect (w : World) : Op → Outcome → List (Option (List UInt8)) → Prop
  | .vec v _,out,after => out = .done ∧ after = w.views++[some v]
  | .bytes_new,out,after => out = .done ∧ after = w.views++[some []]
  | .bytes_from_static p len,out,after => ∃ v, w.heap.mem.load p len = some v ∧ out = .done ∧ after = w.views++[some v]
  | .bytes_from_vec i,out,after => out = .done ∧ w.Becomes i after
  | .bytes_from_box i,out,after => out = .done ∧ w.Becomes i after
  | .bytes_copy_from_slice v,out,after => out = .done ∧ after = w.views++[some v]
  | .bytes_mut_new,out,after => out = .done ∧ after = w.views++[some []]
  | .bytes_mut_with_capacity _,out,after => out = .done ∧ after = w.views++[some []]
  | .bytes_mut_from_vec i,out,after => out = .done ∧ w.Becomes i after
  | .bytes_mut_copy_from_slice v,out,after => out = .done ∧ after = w.views++[some v]
  | .clone i,out,after => out = .done ∧ w.Cuts i id id after
  | .slice i lo hi,out,after => out = .done ∧ (Bytes.first lo ≤ Bytes.last (w.len i) hi ∧ Bytes.last (w.len i) hi ≤ w.len i) ∧
    w.Cuts i id (fun v => (v.drop (Bytes.first lo)).take (Bytes.last (w.len i) hi-Bytes.first lo)) after
  | .slice_from_raw i a len,out,after => out = .done ∧ (w.addr i ≤ a ∧ a+len ≤ w.addr i+w.len i) ∧
    w.Cuts i id (fun v => (v.drop (a-w.addr i)).take len) after
  | .advance i n,out,after => out = .done ∧ n ≤ w.len i ∧ w.Acts i (fun v => v.drop n) after
  | .truncate i n,out,after => out = .done ∧ w.Acts i (fun v => v.take n) after
  | .truncate_off i n,out,after => out = .done ∧
    w.Acts i (fun v => if n ≤ v.length then v.take (v.length-n) else v) after
  | .clear i,out,after => out = .done ∧ w.Acts i (fun _ => []) after
  | .split i,out,after => out = .done ∧ w.Cuts i (fun _ => []) id after
  | .split_to i at_,out,after => out = .done ∧ at_ ≤ w.len i ∧ w.Cuts i (fun v => v.drop at_) (fun v => v.take at_) after
  | .split_off i at_,out,after => out = .done ∧ at_ ≤ w.room i ∧ w.Cuts i (fun v => v.take at_) (fun v => v.drop at_) after
  | .try_split_to i at_,out,after =>
    if at_ ≤ w.len i then out = .done ∧ w.Cuts i (fun v => v.drop at_) (fun v => v.take at_) after
    else out = .refused ∧ after = w.views
  | .try_split_off i at_,out,after =>
    if at_ ≤ w.room i then out = .done ∧ w.Cuts i (fun v => v.take at_) (fun v => v.drop at_) after
    else out = .refused ∧ after = w.views
  | .split_to_ptr i a,out,after => out = .done ∧ (w.addr i ≤ a ∧ a-w.addr i ≤ w.len i) ∧
    w.Cuts i (fun v => v.drop (a-w.addr i)) (fun v => v.take (a-w.addr i)) after
  | .split_off_ptr i a,out,after => out = .done ∧ (w.addr i ≤ a ∧ a-w.addr i ≤ w.room i) ∧
    w.Cuts i (fun v => v.take (a-w.addr i)) (fun v => v.drop (a-w.addr i)) after
  | .unsplit i j,out,after => out = .done ∧ ∃ v u, w.views[i]? = some (some v) ∧ w.views[j]? = some (some u) ∧
    after = (w.views.set j none).set i (some (v++u))
  | .try_unsplit i j,out,after => ∃ v u, w.views[i]? = some (some v) ∧ w.views[j]? = some (some u) ∧
    (w.Unites i j ∧ out = .done ∧ after = (w.views.set j none).set i (some (v++u)) ∨
      ¬ w.Unites i j ∧ out = .refused ∧ after = w.views)
  | .extend_from_slice i u,out,after => out = .done ∧ w.Acts i (fun v => v++u) after
  | .as_mut_slice i at_ u,out,after => out = .done ∧ at_+u.length ≤ w.len i ∧
    w.Acts i (fun v => v.take at_++u++v.drop (at_+u.length)) after
  | .reserve i _,out,after => out = .done ∧ w.Acts i id after
  | .try_reclaim i _,out,after => (∃ b, out = .flag b) ∧ w.Acts i id after
  | .try_reclaim_full i,out,after => (∃ b, out = .flag b) ∧ w.Acts i id after
  | .freeze i,out,after => out = .done ∧ w.Becomes i after
  | .into_mut i,out,after => out = .done ∧ w.Becomes i after
  | .into_vec i,out,after => out = .done ∧ w.Becomes i after
  | .drop i,out,after => out = .done ∧ after = w.views.set i none

/-- When an operation panics. -/
def Refused (w : World) : Op → Prop
  | .vec v spare => isizeMax < v.length+spare
  | .bytes_copy_from_slice v => isizeMax < v.length
  | .bytes_mut_with_capacity n => isizeMax < n
  | .bytes_mut_copy_from_slice v => isizeMax < v.length
  | .slice i lo hi => ¬ (Bytes.first lo ≤ Bytes.last (w.len i) hi ∧ Bytes.last (w.len i) hi ≤ w.len i)
  | .slice_from_raw i a len => ¬ (a+len < 2^64 ∧ w.addr i ≤ a ∧ a+len ≤ w.addr i+w.len i)
  | .advance i n => w.len i < n
  | .split_to i at_ => w.len i < at_
  | .split_off i at_ => w.room i < at_
  | .split_to_ptr i a => a < w.addr i ∨ w.len i < a-w.addr i
  | .split_off_ptr i a => a < w.addr i ∨ w.room i < a-w.addr i
  | .unsplit i j => ∃ m o, w.slot i = some (.bytesMut m) ∧ w.slot j = some (.bytesMut o) ∧ m.Overflows w.heap o.len
  | .extend_from_slice i u => ∃ m, w.slot i = some (.bytesMut m) ∧ m.Overflows w.heap u.length
  | .as_mut_slice i at_ u => w.len i < at_+u.length
  | .reserve i n => ∃ m, w.slot i = some (.bytesMut m) ∧ m.Overflows w.heap n
  | .try_reclaim i n => ∃ m, w.slot i = some (.bytesMut m) ∧ m.cap-m.len < n ∧ isizeMax < n+m.cap
  | .try_reclaim_full i => ∃ m, w.slot i = some (.bytesMut m) ∧ isizeMax < m.beyond w.heap+m.cap
  | _ => False

/-- The views after a panic: an operand that was moved in is dropped by unwinding. -/
def unwound (w : World) : Op → List (Option (List UInt8))
  | .unsplit _ j => w.views.set j none
  | _ => w.views

def HasBytes (w : World) (i : Nat) : Prop := ∃ b, w.slot i = some (.bytes b)
def HasBytesMut (w : World) (i : Nat) : Prop := ∃ m, w.slot i = some (.bytesMut m)
def HasVec (w : World) (i : Nat) : Prop := ∃ v, w.slot i = some (.vec v)

/-- The operands are there and have the types the operation asks for. -/
def Callable (w : World) : Op → Prop
  | .bytes_from_static p len => IsStatic w.heap p len
  | .bytes_from_vec i => w.HasVec i
  | .bytes_mut_from_vec i => w.HasVec i
  | .bytes_from_box i => ∃ v, w.slot i = some (.vec v) ∧ v.len = v.cap
  | .clone i => w.HasBytes i ∨ w.HasBytesMut i
  | .slice i _ _ => w.HasBytes i
  | .slice_from_raw i _ _ => w.HasBytes i
  | .advance i _ => w.HasBytes i ∨ w.HasBytesMut i
  | .truncate i _ => w.HasBytes i ∨ w.HasBytesMut i
  | .truncate_off i _ => w.HasBytes i ∨ w.HasBytesMut i
  | .clear i => w.HasBytes i ∨ w.HasBytesMut i
  | .split i => w.HasBytesMut i
  | .split_to i _ => w.HasBytes i ∨ w.HasBytesMut i
  | .split_off i _ => w.HasBytes i ∨ w.HasBytesMut i
  | .try_split_to i _ => w.HasBytes i ∨ w.HasBytesMut i
  | .try_split_off i _ => w.HasBytes i ∨ w.HasBytesMut i
  | .split_to_ptr i _ => w.HasBytesMut i
  | .split_off_ptr i _ => w.HasBytesMut i
  | .unsplit i j => i ≠ j ∧ w.HasBytesMut i ∧ w.HasBytesMut j
  | .try_unsplit i j => i ≠ j ∧ w.HasBytesMut i ∧ w.HasBytesMut j
  | .extend_from_slice i u => w.HasBytesMut i ∧ u.length ≤ isizeMax
  | .as_mut_slice i _ _ => w.HasBytesMut i
  | .reserve i _ => w.HasBytesMut i
  | .try_reclaim i _ => w.HasBytesMut i
  | .try_reclaim_full i => w.HasBytesMut i
  | .freeze i => w.HasBytesMut i
  | .into_mut i => w.HasBytes i
  | .into_vec i => w.HasBytes i
  | .drop i => ∃ h, w.slot i = some h
  | _ => True

/-- The operation does not join two handles that are not on the same node. -/
def Joinable (w : World) : Op → Prop
  | .try_unsplit i j => ∀ m o, w.slot i = some (.bytesMut m) → w.slot j = some (.bytesMut o) → ¬ m.Misjoins o
  | .unsplit i j => ∀ m o, w.slot i = some (.bytesMut m) → w.slot j = some (.bytesMut o) → m.len = 0 ∨ ¬ m.Misjoins o
  | _ => True

/-- What holds when an operation stops without returning. -/
def Stops (A : Allocator) (w : World) (op : Op) : Stop → World → Prop
  | .panic,w' => Settles A w w' (w.unwound op) ∧ w.Refused op
  | .abort,_ => Crowded w.heap
  | .stuck,_ => ¬ w.Callable op
  | .fault,_ => False
  | .spin,_ => False

/-- The operation refines the operation on the views. -/
def Refines (A : Allocator) (w : World) (op : Op) : Prop :=
  Sat (exec A op) w (fun out w' => ∃ after, Settles A w w' after ∧ w.Effect op out after) (w.Stops A op)

end World
end Tcio
