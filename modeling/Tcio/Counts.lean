import Tcio.Pool

/-!
No node counts less than one handle, in any state of any run: also where handles of
different nodes were joined, since nothing here depends on what a handle views. An
operation that takes the last reference frees the node before anything else can happen.
-/
namespace Tcio
open Exec

variable {A : Allocator} {H : Heap} {p q : Ptr} {v : List UInt8} {n k : Nat} {α : Type}

/-- Every node counts at least one handle. -/
def Positive (H : Heap) : Prop := ∀ k boxed, H.nodes.get k = some boxed → 0 < boxed.shared.ref_count

/-- A program on the heap, or a method, that leaves no node without a handle. -/
abbrev KeepsCounts (x : Exec Heap α) : Prop := Keeps Positive x
abbrev MethodKeepsCounts {S : Type} (x : Method S α) : Prop := Keeps (fun p : Heap × S => Positive p.1) x

/-! ### The heap -/

theorem usize_sub_keeps {σ : Type} {inv : σ → Prop} {a b : Nat} : Keeps inv (usize_sub a b) :=
  .bind .check fun _ => .pure
theorem self_keeps {S : Type} : MethodKeepsCounts (Method.self : Method S S) := fun _ holds => holds
theorem put_keeps {S : Type} {s : S} : MethodKeepsCounts (Method.put s) := fun _ holds => holds

theorem read_keeps : KeepsCounts (Heap.read p n) := .bind .get fun _ => .ofOption
theorem write_keeps : KeepsCounts (Heap.write p v) := by
  intro H holds
  simp only [Heap.write,sat_bind,sat_get,sat_ofOption,sat_set]
  exact ⟨fun _ _ => holds,fun _ _ => holds⟩
theorem copy_keeps : KeepsCounts (Heap.copy p q n) := .bind read_keeps fun _ => write_keeps
theorem copy_nonoverlapping_keeps : KeepsCounts (Heap.copy_nonoverlapping p q n) := .bind .check fun _ => copy_keeps

theorem with_capacity_keeps : KeepsCounts (Vec.with_capacity A n) := by
  intro H holds
  simp only [Vec.with_capacity,sat_bind,sat_check,sat_ite,sat_pure,sat_get,sat_set]
  exact ⟨fun _ => ⟨fun _ => holds,fun _ => holds⟩,fun _ _ => holds⟩
theorem from_raw_parts_keeps {cap : Nat} : KeepsCounts (Vec.from_raw_parts p n cap) :=
  .bind .get fun _ => .bind .check fun _ => .pure
theorem vec_drop_keeps {vec : Vec} : KeepsCounts vec.drop := by
  intro H holds
  simp only [Vec.drop,sat_bind,sat_ite,sat_pure,sat_get,sat_check,sat_set]
  exact ⟨fun _ => holds,fun _ => ⟨fun _ => holds,fun _ _ => holds⟩⟩
theorem to_vec_keeps : KeepsCounts (Vec.to_vec A v) :=
  .bind with_capacity_keeps fun _ => .bind write_keeps fun _ => .pure

/-! ### The nodes -/

namespace Shared
variable {data : Ptr}

/-- A node that is read is live, at the address of the word. -/
theorem sat_deref : Sat (deref data) H (fun shared t => t = H ∧ ∃ boxed, H.nodes.get data.prov = some boxed ∧
    boxed.addr = data.addr ∧ boxed.shared = shared) (fun k _ => k = .fault) := by
  simp only [deref,sat_bind,sat_get]
  cases live : H.nodes.get data.prov with
  | none => exact rfl
  | some boxed =>
    simp only [sat_bind,sat_check,sat_pure]
    exact ⟨fun addr => ⟨trivial,boxed,rfl,addr,rfl⟩,fun _ => trivial⟩

theorem deref_keeps : KeepsCounts (deref data) := fun H holds =>
  sat_deref.mono (fun _ _ ⟨same,_⟩ => same ▸ holds) (fun _ _ fault panic => by simp [fault] at panic)
theorem as_unpromoted_keeps : KeepsCounts (as_unpromoted data) := .ite .pure (.bind deref_keeps fun _ => .pure)
theorem is_unique_keeps : KeepsCounts (is_unique data) := .bind deref_keeps fun _ => .pure
theorem mask_payload_keeps {σ : Type} {inv : σ → Prop} : Keeps inv (mask_payload data n) :=
  .bind .check fun _ => .bind .check fun _ => .pure

theorem promote_keeps {vec : Vec} (some' : 0 < n) : KeepsCounts (promote_with_vec A vec n) := by
  intro H holds
  simp only [promote_with_vec,sat_bind,sat_get,sat_set,sat_pure]
  intro k boxed live
  rw [Arena.get_insert] at live
  split at live
  · cases live
    exact some'
  · exact holds k boxed live

theorem increment_keeps : KeepsCounts (increment data) := by
  intro H holds
  simp only [increment,fetch_add,recount,sat_bind,sat_modify,sat_pure,sat_ite,sat_stop]
  refine sat_deref.mono ?_ (fun _ _ fault panic => by simp [fault] at panic)
  rintro shared _ ⟨rfl,_⟩
  refine ⟨fun _ bad => (by cases bad),fun _ k boxed live => ?_⟩
  rw [Arena.get_update] at live
  split at live
  · obtain ⟨before,found,rfl⟩ := Option.map_eq_some_iff.mp live
    exact Nat.succ_pos _
  · exact holds k boxed live

/-- A reference that is given up is not the last, or the node is freed. -/
theorem less_keeps {H' : Heap} (data : Ptr) (holds : Positive H) (some' : ∀ boxed, H.nodes.get data.prov = some boxed → boxed.shared.ref_count ≠ 1)
    (same : H' = { H with nodes := H.nodes.update data.prov fun boxed =>
      { boxed with shared := { boxed.shared with ref_count := boxed.shared.ref_count-1 } } }) : Positive H' := by
  subst same
  intro k boxed live
  rw [Arena.get_update] at live
  split at live
  · next here =>
    subst here
    obtain ⟨before,found,rfl⟩ := Option.map_eq_some_iff.mp live
    have := holds _ before found
    have := some' before found
    simp only
    omega
  · exact holds k boxed live

theorem freed_keeps {mem : Memory UInt8} {f : Boxed → Boxed} (holds : Positive H) :
    Positive ⟨mem,(H.nodes.update data.prov f).free data.prov⟩ := by
  intro k boxed live
  rw [Arena.get_free] at live
  split at live
  · cases live
  · next other =>
    rw [Arena.get_update_ne other] at live
    exact holds k boxed live

theorem release_keeps : KeepsCounts (release data) := by
  intro H holds
  simp only [release,fetch_sub,recount,free,sat_bind,sat_modify,sat_pure,sat_ite]
  refine sat_deref.mono ?_ (fun _ _ fault panic => by simp [fault] at panic)
  rintro shared _ ⟨rfl,boxed,live,_,rfl⟩
  refine ⟨fun more => ?_,fun _ => ?_⟩
  · refine less_keeps data holds (fun boxed' live' => ?_) rfl
    cases live.symm.trans live'
    exact more
  · refine sat_deref.mono ?_ (fun _ _ fault panic => by simp [fault] at panic)
    rintro node _ ⟨rfl,_⟩
    simp only [Vec.from_raw_parts,Vec.drop,sat_bind,sat_get,sat_check,sat_pure,sat_ite,sat_set]
    exact ⟨fun _ => ⟨fun _ => freed_keeps holds,fun _ => ⟨fun _ => freed_keeps holds,fun _ bad => by cases bad⟩⟩,
      fun _ bad => by cases bad⟩

theorem release_into_vec_keeps : KeepsCounts (release_into_vec data n) := by
  intro H holds
  simp only [release_into_vec,fetch_sub,recount,free,sat_bind,sat_modify,sat_pure,sat_ite]
  refine sat_deref.mono ?_ (fun _ _ fault panic => by simp [fault] at panic)
  rintro shared _ ⟨rfl,boxed,live,_,rfl⟩
  refine ⟨fun more => ?_,fun _ => ?_⟩
  · refine less_keeps data holds (fun boxed' live' => ?_) rfl
    cases live.symm.trans live'
    exact more
  · refine sat_deref.mono ?_ (fun _ _ fault panic => by simp [fault] at panic)
    rintro node _ ⟨rfl,_⟩
    simp only [Vec.from_raw_parts,sat_bind,sat_get,sat_check,sat_pure]
    exact ⟨fun _ => freed_keeps holds,fun _ bad => by cases bad⟩

end Shared

/-! ### `BytesMut` -/

namespace BytesMut
open Shared
variable {m o : BytesMut} {at_ offset : Nat} {allocate : Bool} {data : Ptr}

theorem original_buffer_keeps : KeepsCounts (m.original_buffer offset) := from_raw_parts_keeps

theorem reserve_unpromoted_keeps : MethodKeepsCounts (reserve_unpromoted A offset n allocate) := by
  refine .bind self_keeps fun me => .bind usize_sub_keeps fun spare => .ite ?_ (.ite .pure ?_)
  · exact .bind copy_nonoverlapping_keeps.onFst fun _ => .bind mask_payload_keeps fun _ => .bind put_keeps fun _ => .pure
  · refine .bind with_capacity_keeps.onFst fun vec => .bind copy_nonoverlapping_keeps.onFst fun _ => ?_
    refine .bind (Keeps.onFst (.bind original_buffer_keeps fun _ => vec_drop_keeps)) fun _ => ?_
    exact .bind mask_payload_keeps fun _ => .bind put_keeps fun _ => .pure

theorem reclaim_promoted_keeps : MethodKeepsCounts (reclaim_promoted data n) := by
  refine .bind deref_keeps.onFst fun node => .bind self_keeps fun me => .bind .check fun _ => .bind usize_sub_keeps fun offset => ?_
  refine .bind usize_sub_keeps fun tail => .bind put_keeps fun _ => .ite .pure (.bind usize_sub_keeps fun spare => .ite ?_ .pure)
  exact .bind copy_nonoverlapping_keeps.onFst fun _ => .bind put_keeps fun _ => .pure

theorem reallocate_promoted_keeps : MethodKeepsCounts (reallocate_promoted A data n) :=
  .bind self_keeps fun _ => .bind with_capacity_keeps.onFst fun _ => .bind copy_nonoverlapping_keeps.onFst fun _ =>
    .bind release_keeps.onFst fun _ => put_keeps

theorem reserve_inner_keeps : MethodKeepsCounts (reserve_inner A n allocate) := by
  refine .ite .pure (.bind self_keeps fun me => .bind .check fun _ => .bind as_unpromoted_keeps.onFst fun word => ?_)
  cases word with
  | ok offset => exact reserve_unpromoted_keeps
  | error shared =>
    have rest : MethodKeepsCounts (if (!allocate) = true then pure false
        else do
          reallocate_promoted A shared n
          return true) := .ite .pure (.bind reallocate_promoted_keeps fun _ => .pure)
    exact .bind is_unique_keeps.onFst fun _ => .ite (.bind reclaim_promoted_keeps fun _ => .ite .pure rest) rest

theorem reserve_keeps : MethodKeepsCounts (reserve A n) :=
  .bind self_keeps fun _ => .bind usize_sub_keeps fun _ => .ite .pure (.bind reserve_inner_keeps fun _ => .pure)
theorem try_reclaim_keeps : MethodKeepsCounts (try_reclaim A n) :=
  .bind self_keeps fun _ => .bind usize_sub_keeps fun _ => .ite .pure reserve_inner_keeps
theorem try_reclaim_full_keeps : MethodKeepsCounts (try_reclaim_full A) := by
  refine .bind self_keeps fun me => .bind as_unpromoted_keeps.onFst fun word => ?_
  cases word with
  | ok offset => exact .bind usize_sub_keeps fun _ => .bind .pure fun _ => reserve_inner_keeps
  | error shared => exact .bind deref_keeps.onFst fun _ => .bind usize_sub_keeps fun _ => reserve_inner_keeps

theorem advance_unchecked_keeps : MethodKeepsCounts (advance_unchecked n) := by
  refine .ite .pure (.bind self_keeps fun me => .bind as_unpromoted_keeps.onFst fun word => ?_)
  cases word with
  | ok offset => exact .bind mask_payload_keeps fun _ => .bind usize_sub_keeps fun _ => put_keeps
  | error shared => exact .bind .pure fun _ => .bind usize_sub_keeps fun _ => put_keeps
theorem advance_keeps : MethodKeepsCounts (BytesMut.advance n) :=
  .bind self_keeps fun _ => .bind .check fun _ => advance_unchecked_keeps
theorem truncate_keeps : MethodKeepsCounts (truncate n) := .bind self_keeps fun _ => .ite put_keeps .pure
theorem truncate_off_keeps : MethodKeepsCounts (truncate_off n) := .bind self_keeps fun _ => .ite put_keeps .pure
theorem clear_keeps : MethodKeepsCounts clear := .bind self_keeps fun _ => put_keeps

theorem shallow_clone_keeps : MethodKeepsCounts (shallow_clone A) := by
  refine .bind self_keeps fun me => .bind as_unpromoted_keeps.onFst fun word => ?_
  cases word with
  | ok offset =>
    exact .bind original_buffer_keeps.onFst fun _ => .bind (promote_keeps Nat.two_pos).onFst fun _ => .bind put_keeps fun _ => self_keeps
  | error shared => exact .bind increment_keeps.onFst fun _ => self_keeps
theorem try_split_to_keeps : MethodKeepsCounts (try_split_to A at_) :=
  .bind self_keeps fun _ => .ite .pure (.bind shallow_clone_keeps fun _ => .bind advance_unchecked_keeps fun _ => .pure)
theorem split_to_keeps : MethodKeepsCounts (split_to A at_) := .bind try_split_to_keeps fun _ => .ofOption
theorem split_keeps : MethodKeepsCounts (split A) := .bind self_keeps fun _ => split_to_keeps
theorem split_to_ptr_keeps : MethodKeepsCounts (split_to_ptr A n) :=
  .bind self_keeps fun _ => .bind .check fun _ => split_to_keeps
theorem try_split_off_keeps : MethodKeepsCounts (try_split_off A at_) :=
  .bind self_keeps fun _ => .ite .pure (.bind shallow_clone_keeps fun _ => .bind (Keeps.lend advance_unchecked_keeps).onFst fun _ =>
    .bind self_keeps fun _ => .bind put_keeps fun _ => .pure)
theorem split_off_keeps : MethodKeepsCounts (split_off A at_) := .bind try_split_off_keeps fun _ => .ofOption
theorem split_off_ptr_keeps : MethodKeepsCounts (split_off_ptr A n) :=
  .bind self_keeps fun _ => .bind .check fun _ => split_off_keeps

theorem extend_from_slice_keeps : MethodKeepsCounts (extend_from_slice A v) :=
  .bind reserve_keeps fun _ => .bind self_keeps fun _ =>
    .bind (Keeps.onFst (.bind usize_sub_keeps fun _ => .bind .check fun _ => write_keeps)) fun _ => put_keeps
theorem as_mut_slice_keeps : KeepsCounts (m.as_mut_slice at_ v) := .bind .check fun _ => write_keeps
theorem copy_from_slice_keeps : KeepsCounts (copy_from_slice A v) := .bind to_vec_keeps fun _ => .pure
theorem clone_keeps : KeepsCounts (m.clone A) := .bind read_keeps fun _ => copy_from_slice_keeps

theorem drop_keeps : KeepsCounts m.drop := by
  refine .bind as_unpromoted_keeps fun word => ?_
  cases word with
  | ok offset => exact .bind original_buffer_keeps fun _ => vec_drop_keeps
  | error shared => exact release_keeps
theorem try_unsplit_keeps : MethodKeepsCounts (try_unsplit o) :=
  .ite (.bind drop_keeps.onFst fun _ => .pure) (.bind self_keeps fun _ =>
    .ite (.bind put_keeps fun _ => .bind drop_keeps.onFst fun _ => .pure) .pure)
theorem unsplit_keeps : MethodKeepsCounts (unsplit A o) := by
  refine .bind self_keeps fun me => .ite (.bind drop_keeps.onFst fun _ => put_keeps) (.bind try_unsplit_keeps fun joined => ?_)
  cases joined with
  | ok _ => exact .pure
  | error other => exact .ensure (.bind read_keeps.onFst fun _ => extend_from_slice_keeps) drop_keeps.onFst

end BytesMut

/-! ### `Bytes` -/

namespace Bytes
open Shared
variable {b : Bytes} {at_ offset : Nat} {data : Ptr}

theorem from_vec_keeps {vec : Vec} : KeepsCounts (from_vec A vec) :=
  .ite (.bind vec_drop_keeps fun _ => .pure) (.ite .pure (.bind (promote_keeps Nat.one_pos) fun _ => .pure))
theorem copy_from_slice_keeps : KeepsCounts (copy_from_slice A v) := .bind to_vec_keeps fun _ => from_vec_keeps

theorem promote_ref_keeps : MethodKeepsCounts (promote_ref A offset data) := by
  refine .bind self_keeps fun me => .bind from_raw_parts_keeps.onFst fun vec => .bind (promote_keeps Nat.two_pos).onFst fun node => ?_
  refine .bind self_keeps fun me => .ite (.bind put_keeps fun _ => .pure) ?_
  exact .bind release_keeps.onFst fun _ => .bind increment_keeps.onFst fun _ => .pure
theorem clone_inner_keeps : MethodKeepsCounts (clone_inner A) := by
  refine .bind self_keeps fun me => .ite .pure (.bind as_unpromoted_keeps.onFst fun word => ?_)
  cases word with
  | ok offset => exact promote_ref_keeps
  | error shared => exact .bind increment_keeps.onFst fun _ => .pure
theorem clone_inner_mut_keeps : MethodKeepsCounts (clone_inner_mut A) := by
  refine .bind self_keeps fun me => .ite .pure (.bind as_unpromoted_keeps.onFst fun word => ?_)
  cases word with
  | ok offset =>
    exact .bind from_raw_parts_keeps.onFst fun _ => .bind (promote_keeps Nat.two_pos).onFst fun _ =>
      .bind put_keeps fun _ => .bind .pure fun _ => .bind self_keeps fun _ => .pure
  | error shared => exact .bind increment_keeps.onFst fun _ => .bind .pure fun _ => .bind self_keeps fun _ => .pure
theorem drop_keeps : KeepsCounts b.drop := by
  refine .ite .pure (.bind as_unpromoted_keeps fun word => ?_)
  cases word with
  | ok offset => exact .bind from_raw_parts_keeps fun _ => vec_drop_keeps
  | error shared => exact release_keeps

theorem advance_unchecked_keeps : MethodKeepsCounts (advance_unchecked n) := by
  refine .ite .pure (.bind self_keeps fun me => ?_)
  cases to_unpromoted me.data with
  | some offset => exact .bind mask_payload_keeps fun _ => .bind usize_sub_keeps fun _ => put_keeps
  | none => exact .bind .pure fun _ => .bind usize_sub_keeps fun _ => put_keeps
theorem advance_keeps : MethodKeepsCounts (Bytes.advance n) :=
  .bind self_keeps fun _ => .bind .check fun _ => advance_unchecked_keeps
theorem bound_succ_keeps : MethodKeepsCounts (bound_succ n) := .bind .check fun _ => .pure
theorem slice_keeps {lo hi : Bound} : MethodKeepsCounts (slice A lo hi) := by
  have rest : ∀ (me : Bytes) (begin_ end_ : Nat), MethodKeepsCounts (do
      check .panic (end_ ≤ me.len)
      check .panic (begin_ ≤ end_)
      if end_-begin_ = 0 then return new_empty_with_ptr (me.ptr.add begin_)
      let cloned ← clone_inner A
      return { cloned with ptr := me.ptr.add begin_, len := end_-begin_ }) := fun me begin_ end_ =>
    .bind .check fun _ => .bind .check fun _ => .ite .pure (.bind clone_inner_keeps fun _ => .pure)
  refine .bind self_keeps fun me => ?_
  cases lo with
  | Included n =>
    refine .bind .pure fun begin_ => ?_
    cases hi with
    | Included k => exact .bind bound_succ_keeps fun end_ => rest me begin_ end_
    | Excluded k => exact .bind .pure fun end_ => rest me begin_ end_
    | Unbounded => exact .bind .pure fun end_ => rest me begin_ end_
  | Excluded n =>
    refine .bind bound_succ_keeps fun begin_ => ?_
    cases hi with
    | Included k => exact .bind bound_succ_keeps fun end_ => rest me begin_ end_
    | Excluded k => exact .bind .pure fun end_ => rest me begin_ end_
    | Unbounded => exact .bind .pure fun end_ => rest me begin_ end_
  | Unbounded =>
    refine .bind .pure fun begin_ => ?_
    cases hi with
    | Included k => exact .bind bound_succ_keeps fun end_ => rest me begin_ end_
    | Excluded k => exact .bind .pure fun end_ => rest me begin_ end_
    | Unbounded => exact .bind .pure fun end_ => rest me begin_ end_
theorem slice_from_raw_keeps {addr : Nat} : MethodKeepsCounts (slice_from_raw A addr n) :=
  .bind self_keeps fun _ => .bind .check fun _ => .bind .check fun _ => .bind .check fun _ =>
    .ite .pure (.bind clone_inner_keeps fun _ => .pure)
theorem clear_keeps : MethodKeepsCounts clear := .bind self_keeps fun _ => .bind drop_keeps.onFst fun _ => put_keeps

theorem try_split_off_keeps : MethodKeepsCounts (try_split_off A at_) :=
  .bind self_keeps fun _ => .ite .pure (.ite .pure (.ite (.bind put_keeps fun _ => .pure)
    (.bind clone_inner_mut_keeps fun _ => .bind (Keeps.lend advance_unchecked_keeps).onFst fun _ =>
      .bind self_keeps fun _ => .bind put_keeps fun _ => .pure)))
theorem split_off_keeps : MethodKeepsCounts (split_off A at_) := .bind try_split_off_keeps fun _ => .ofOption
theorem try_split_to_keeps : MethodKeepsCounts (try_split_to A at_) :=
  .bind self_keeps fun _ => .ite .pure (.ite (.bind put_keeps fun _ => .pure) (.ite .pure
    (.bind clone_inner_mut_keeps fun _ => .bind advance_unchecked_keeps fun _ => .pure)))
theorem split_to_keeps : MethodKeepsCounts (split_to A at_) := .bind try_split_to_keeps fun _ => .ofOption
theorem truncate_keeps : MethodKeepsCounts (truncate A n) :=
  .bind self_keeps fun _ => .ite .pure (.ite put_keeps (.bind split_off_keeps fun _ => drop_keeps.onFst))
theorem truncate_off_keeps : MethodKeepsCounts (truncate_off A n) := .bind self_keeps fun _ => .ite truncate_keeps .pure

theorem into_vec_keeps : KeepsCounts (into_vec A b) := by
  have copied : KeepsCounts (do Vec.to_vec A (← b.as_slice)) := .bind read_keeps fun _ => to_vec_keeps
  refine .ite copied (.bind as_unpromoted_keeps fun word => ?_)
  have moved (advanced : Nat) (vec : Vec) : KeepsCounts (do
      let len := b.len
      if advanced ≠ 0 then
        if advanced ≥ len then Heap.copy_nonoverlapping b.ptr vec.ptr len
        else Heap.copy b.ptr vec.ptr len
      return { vec with len }) :=
    .ite (.ite (.bind copy_nonoverlapping_keeps fun _ => .pure) (.bind copy_keeps fun _ => .pure)) .pure
  cases word with
  | ok offset =>
    refine .bind from_raw_parts_keeps fun _ => .bind .pure fun found => ?_
    rcases found with _ | ⟨advanced,vec⟩
    · exact copied
    · exact moved advanced vec
  | error shared =>
    refine .bind deref_keeps fun node => .bind release_into_vec_keeps fun taken => ?_
    cases taken with
    | some vec =>
      refine .bind .check fun _ => .bind usize_sub_keeps fun _ => .bind .pure fun found => ?_
      rcases found with _ | ⟨advanced,vec⟩
      · exact copied
      · exact moved advanced vec
    | none =>
      refine .bind .pure fun found => ?_
      rcases found with _ | ⟨advanced,vec⟩
      · exact copied
      · exact moved advanced vec
theorem into_mut_keeps : KeepsCounts (into_mut A b) := by
  have copied : KeepsCounts (do return BytesMut.from_vec (← Vec.to_vec A (← b.as_slice))) :=
    .bind read_keeps fun _ => .bind to_vec_keeps fun _ => .pure
  refine .ite copied (.bind as_unpromoted_keeps fun word => ?_)
  cases word with
  | ok offset => exact .bind from_raw_parts_keeps fun _ => .bind (Keeps.lend BytesMut.advance_unchecked_keeps) fun _ => .pure
  | error shared =>
    refine .bind deref_keeps fun node => .bind release_into_vec_keeps fun taken => ?_
    cases taken with
    | some vec =>
      exact .bind .check fun _ => .bind usize_sub_keeps fun _ =>
        .bind (Keeps.lend (.bind BytesMut.advance_unchecked_keeps fun _ => .bind self_keeps fun _ => put_keeps)) fun _ => .pure
    | none => exact copied

end Bytes

theorem BytesMut.freeze_keeps {m : BytesMut} : KeepsCounts (m.freeze A) := by
  refine .bind Shared.as_unpromoted_keeps fun word => ?_
  cases word with
  | ok offset =>
    exact .bind original_buffer_keeps fun _ => .bind Bytes.from_vec_keeps fun _ => .bind (Keeps.lend Bytes.advance_keeps) fun _ => .pure
  | error shared => exact .pure

namespace World
variable {w w₀ : World} {i j : Nat}

/-! ### Runs -/

/-- An operation on the pool that leaves no node without a handle. -/
abbrev PoolKeepsCounts (x : Exec World α) : Prop := Keeps (fun w => Positive w.heap) x

theorem handle_keeps : PoolKeepsCounts (handle i) := .bind .get fun _ => .ofOption
theorem store_keeps {o : Option Handle} : PoolKeepsCounts (store i o) := fun _ holds => holds
theorem push_keeps {h : Handle} : PoolKeepsCounts (push h) := fun _ holds => holds
theorem on_heap_keeps {x : Exec Heap α} (kept : KeepsCounts x) : PoolKeepsCounts (onHeap x) :=
  .zoom kept (fun _ => id) (fun _ _ => id)
theorem call_keeps {x : Method Bytes α} {y : Method BytesMut α} (bytes : MethodKeepsCounts x) (bytesMut : MethodKeepsCounts y) :
    PoolKeepsCounts (call i x y) := by
  refine .bind handle_keeps fun h => ?_
  cases h with
  | bytes b => exact .zoom bytes (fun _ => id) (fun _ _ => id)
  | bytesMut m => exact .zoom bytesMut (fun _ => id) (fun _ _ => id)
  | vec v => exact .stop
theorem missing_keeps {S : Type} : MethodKeepsCounts (missing : Method S α) := .stop
theorem move_keeps : PoolKeepsCounts (move i) := .bind handle_keeps fun _ => .bind store_keeps fun _ => .pure
theorem move_vec_keeps : PoolKeepsCounts (move_vec i) :=
  .bind move_keeps fun | .vec _ => .pure | .bytes _ => .stop | .bytesMut _ => .stop
theorem move_bytes_keeps : PoolKeepsCounts (move_bytes i) :=
  .bind move_keeps fun | .vec _ => .stop | .bytes _ => .pure | .bytesMut _ => .stop
theorem move_bytes_mut_keeps : PoolKeepsCounts (move_bytes_mut i) :=
  .bind move_keeps fun | .vec _ => .stop | .bytes _ => .stop | .bytesMut _ => .pure
theorem drop_handle_keeps {h : Handle} : KeepsCounts (drop_handle h) := by
  cases h with
  | bytes b => exact Bytes.drop_keeps
  | bytesMut m => exact BytesMut.drop_keeps
  | vec v => exact vec_drop_keeps
theorem push_some_keeps {o : Option Handle} : PoolKeepsCounts (push_some o) := by
  cases o with
  | none => exact .pure
  | some h => exact .bind push_keeps fun _ => .pure

/-- The new handle gets a slot. -/
theorem pushed_keeps {x : Exec World Handle} (kept : PoolKeepsCounts x) : PoolKeepsCounts (do push (← x); return Outcome.done) :=
  .bind kept fun _ => .bind push_keeps fun _ => .pure
theorem done_keeps {x : Exec World Unit} (kept : PoolKeepsCounts x) : PoolKeepsCounts (do x; return Outcome.done) :=
  .bind kept fun _ => .pure

theorem exec_keeps (op : Op) : PoolKeepsCounts (exec A op) := by
  cases op with
  | vec v spare =>
    exact .bind (on_heap_keeps (.bind with_capacity_keeps fun _ => .bind write_keeps fun _ => .pure)) fun _ =>
      .bind push_keeps fun _ => .pure
  | bytes_new => exact .bind push_keeps fun _ => .pure
  | bytes_from_static p len => exact .bind .get fun _ => .bind .check fun _ => .bind push_keeps fun _ => .pure
  | bytes_from_vec i =>
    exact .bind move_vec_keeps fun _ => .bind (on_heap_keeps Bytes.from_vec_keeps) fun _ => .bind push_keeps fun _ => .pure
  | bytes_from_box i => exact .bind move_vec_keeps fun _ => .bind .check fun _ => .bind push_keeps fun _ => .pure
  | bytes_copy_from_slice v =>
    exact .bind (on_heap_keeps Bytes.copy_from_slice_keeps) fun _ => .bind push_keeps fun _ => .pure
  | bytes_mut_new => exact .bind push_keeps fun _ => .pure
  | bytes_mut_with_capacity n =>
    exact .bind (on_heap_keeps (.bind with_capacity_keeps fun _ => .pure)) fun _ => .bind push_keeps fun _ => .pure
  | bytes_mut_from_vec i => exact .bind move_vec_keeps fun _ => .bind push_keeps fun _ => .pure
  | bytes_mut_copy_from_slice v =>
    exact .bind (on_heap_keeps BytesMut.copy_from_slice_keeps) fun _ => .bind push_keeps fun _ => .pure
  | clone i =>
    exact pushed_keeps (call_keeps (.map Bytes.clone_inner_keeps) (.bind self_keeps fun _ =>
      .bind BytesMut.clone_keeps.onFst fun _ => .pure))
  | slice i lo hi => exact pushed_keeps (call_keeps (.map Bytes.slice_keeps) missing_keeps)
  | slice_from_raw i addr len => exact pushed_keeps (call_keeps (.map Bytes.slice_from_raw_keeps) missing_keeps)
  | advance i n => exact done_keeps (call_keeps Bytes.advance_keeps BytesMut.advance_keeps)
  | truncate i n => exact done_keeps (call_keeps Bytes.truncate_keeps BytesMut.truncate_keeps)
  | truncate_off i n => exact done_keeps (call_keeps Bytes.truncate_off_keeps BytesMut.truncate_off_keeps)
  | clear i => exact done_keeps (call_keeps Bytes.clear_keeps BytesMut.clear_keeps)
  | split i => exact pushed_keeps (call_keeps missing_keeps (.map BytesMut.split_keeps))
  | split_to i at_ => exact pushed_keeps (call_keeps (.map Bytes.split_to_keeps) (.map BytesMut.split_to_keeps))
  | split_off i at_ => exact pushed_keeps (call_keeps (.map Bytes.split_off_keeps) (.map BytesMut.split_off_keeps))
  | try_split_to i at_ =>
    exact .bind (call_keeps (.map Bytes.try_split_to_keeps) (.map BytesMut.try_split_to_keeps)) fun _ => push_some_keeps
  | try_split_off i at_ =>
    exact .bind (call_keeps (.map Bytes.try_split_off_keeps) (.map BytesMut.try_split_off_keeps)) fun _ => push_some_keeps
  | split_to_ptr i addr => exact pushed_keeps (call_keeps missing_keeps (.map BytesMut.split_to_ptr_keeps))
  | split_off_ptr i addr => exact pushed_keeps (call_keeps missing_keeps (.map BytesMut.split_off_ptr_keeps))
  | unsplit i j => exact .bind move_bytes_mut_keeps fun _ => done_keeps (call_keeps missing_keeps BytesMut.unsplit_keeps)
  | try_unsplit i j =>
    refine .bind move_bytes_mut_keeps fun _ => .bind (call_keeps missing_keeps BytesMut.try_unsplit_keeps) fun joined => ?_
    cases joined with
    | ok _ => exact .pure
    | error other => exact .bind store_keeps fun _ => .pure
  | extend_from_slice i v =>
    exact .bind .check fun _ => done_keeps (call_keeps missing_keeps BytesMut.extend_from_slice_keeps)
  | as_mut_slice i at_ v =>
    exact done_keeps (call_keeps missing_keeps (.bind self_keeps fun _ => BytesMut.as_mut_slice_keeps.onFst))
  | reserve i n => exact done_keeps (call_keeps missing_keeps BytesMut.reserve_keeps)
  | try_reclaim i n => exact .bind (call_keeps missing_keeps BytesMut.try_reclaim_keeps) fun _ => .pure
  | try_reclaim_full i => exact .bind (call_keeps missing_keeps BytesMut.try_reclaim_full_keeps) fun _ => .pure
  | freeze i =>
    exact .bind move_bytes_mut_keeps fun _ => .bind (on_heap_keeps BytesMut.freeze_keeps) fun _ => .bind push_keeps fun _ => .pure
  | into_mut i =>
    exact .bind move_bytes_keeps fun _ => .bind (on_heap_keeps Bytes.into_mut_keeps) fun _ => .bind push_keeps fun _ => .pure
  | into_vec i =>
    exact .bind move_bytes_keeps fun _ => .bind (on_heap_keeps Bytes.into_vec_keeps) fun _ => .bind push_keeps fun _ => .pure
  | drop i => exact .bind move_keeps fun _ => done_keeps (on_heap_keeps drop_handle_keeps)

theorem run_positive (initial : w₀.Initial) (run : Run A w₀ w) : Positive w.heap := by
  induction run with
  | refl =>
    intro k boxed live
    simp [initial.nodes k] at live
  | tail _ step ih =>
    obtain ⟨op,⟨out,ran⟩ | ran⟩ := step
    · exact (sat_of_ok ran).mp (exec_keeps op _ ih)
    · exact (sat_of_error ran).mp (exec_keeps op _ ih) rfl

end World
end Tcio
