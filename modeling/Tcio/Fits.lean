import Tcio.Counts

/-!
No `BytesMut` on a node is longer than its capacity, in any state of any run, whatever was
joined. A handle that owns its buffer alone is checked when it is turned over to a node,
and no operation on a handle of a node makes it longer than it has room for.
-/
namespace Tcio
open Exec

open Shared

variable {A : Allocator} {H H' : Heap} {m o : BytesMut} {n at_ offset : Nat} {v : List UInt8} {data : Ptr} {α : Type}

namespace BytesMut

/-- On a node, it is not longer than its capacity. -/
def Fits (m : BytesMut) : Prop := m.data.addr % 2 = 0 → m.len ≤ m.cap
/-- A method that leaves its handle fitting, and returns what meets `P`. -/
abbrev GivesFit (P : α → Prop) (y : Method BytesMut α) : Prop := Gives (fun p : Heap × BytesMut => Fits p.2) P y
abbrev KeepsFit (y : Method BytesMut α) : Prop := Keeps (fun p : Heap × BytesMut => Fits p.2) y

theorem odd_fits (odd : m.data.addr % 2 = 1) : m.Fits := fun even => by omega
theorem from_vec_fits (vec : Vec) : (from_vec vec).Fits := odd_fits rfl

theorem heap_fits {x : Exec Heap α} : KeepsFit (onFst x) := fun _ holds =>
  sat_onFst.mpr (sat_of_run (fun _ _ _ => holds) (fun _ _ _ _ => holds))
theorem self_fits : GivesFit Fits Method.self := fun _ holds => ⟨holds,holds⟩
theorem put_fits (fits : m.Fits) : KeepsFit (Method.put m) := fun _ _ => fits

/-- The word that `mask_payload` makes is odd. -/
theorem masked {σ : Type} {inv : σ → Prop} : Gives inv (fun d => d.addr % 2 = 1) (mask_payload data n) := by
  intro s holds
  simp only [mask_payload,sat_bind,sat_check,sat_pure]
  refine ⟨fun _ => ⟨fun _ => ⟨holds,?_⟩,fun _ _ => holds⟩,fun _ _ => holds⟩
  simp [DATA_UNPROMOTED]

theorem usize_sub_gives {σ : Type} {inv : σ → Prop} {P : Nat → Prop} {a b : Nat} (met : b ≤ a → P (a-b)) :
    Gives inv P (usize_sub a b) := fun _ holds => sat_usize_sub.mpr ⟨fun le => ⟨holds,met le⟩,fun _ _ => holds⟩

theorem with_capacity_fits : Gives (fun _ => True) Fits (with_capacity A n) := fun _ _ =>
  sat_bind.mpr (sat_of_run (fun vec _ _ => ⟨trivial,from_vec_fits vec⟩) (fun _ _ _ _ => trivial))
theorem copy_from_slice_fits : Gives (fun _ => True) Fits (copy_from_slice A v) := fun _ _ =>
  sat_bind.mpr (sat_of_run (fun vec _ _ => ⟨trivial,from_vec_fits vec⟩) (fun _ _ _ _ => trivial))
theorem clone_fits : GivesFit Fits (onFst (m.clone A)) := fun _ holds =>
  sat_onFst.mpr (sat_bind.mpr (sat_of_run
    (fun _ H _ => (copy_from_slice_fits H trivial).mono (fun _ _ ⟨_,fits⟩ => ⟨holds,fits⟩) (fun _ _ _ _ => holds)) (fun _ _ _ _ => holds)))

/-! ### Allocation -/

theorem reserve_unpromoted_fits {allocate : Bool} : KeepsFit (reserve_unpromoted A offset n allocate) := by
  refine self_fits.then_keeps fun me _ => .bind usize_sub_keeps fun _ => .ite ?_ (.ite .pure ?_)
  · exact .bind heap_fits fun _ => masked.then_keeps fun _ odd => .bind (put_fits (odd_fits odd)) fun _ => .pure
  · exact .bind heap_fits fun _ => .bind heap_fits fun _ => .bind heap_fits fun _ =>
      masked.then_keeps fun _ odd => .bind (put_fits (odd_fits odd)) fun _ => .pure

theorem reclaim_promoted_fits : KeepsFit (reclaim_promoted data n) := by
  refine .bind heap_fits fun node => self_fits.then_keeps fun me fits => .bind .check fun _ => .bind usize_sub_keeps fun offset => ?_
  have wider : ∀ (p : Ptr) (k : Nat), ({ me with ptr := p, cap := me.cap+k } : BytesMut).Fits := fun p k even =>
    Nat.le_trans (fits even) (Nat.le_add_right _ _)
  refine .bind usize_sub_keeps fun tail => .bind (put_fits (wider me.ptr tail)) fun _ => .ite .pure ?_
  refine .bind usize_sub_keeps fun spare => .ite ?_ .pure
  refine .bind heap_fits fun _ => .bind (put_fits ?_) fun _ => .pure
  rw [Nat.add_assoc]
  exact wider node.ptr (tail+offset)

theorem reallocate_promoted_fits : KeepsFit (reallocate_promoted A data n) :=
  self_fits.then_keeps fun _ _ => .bind heap_fits fun _ => .bind heap_fits fun _ => .bind heap_fits fun _ =>
    put_fits (odd_fits rfl)

theorem reserve_inner_fits {allocate : Bool} : KeepsFit (reserve_inner A n allocate) := by
  refine .ite .pure (self_fits.then_keeps fun me _ => .bind .check fun _ => .bind heap_fits fun word => ?_)
  cases word with
  | ok offset => exact reserve_unpromoted_fits
  | error shared =>
    have rest : KeepsFit (if (!allocate) = true then pure false
        else do
          reallocate_promoted A shared n
          return true) := .ite .pure (.bind reallocate_promoted_fits fun _ => .pure)
    exact .bind heap_fits fun _ => .ite (.bind reclaim_promoted_fits fun _ => .ite .pure rest) rest

theorem reserve_fits : KeepsFit (reserve A n) :=
  self_fits.then_keeps fun _ _ => .bind usize_sub_keeps fun _ => .ite .pure (.bind reserve_inner_fits fun _ => .pure)
theorem try_reclaim_fits : KeepsFit (try_reclaim A n) :=
  self_fits.then_keeps fun _ _ => .bind usize_sub_keeps fun _ => .ite .pure reserve_inner_fits
theorem try_reclaim_full_fits : KeepsFit (try_reclaim_full A) := by
  refine self_fits.then_keeps fun me _ => .bind heap_fits fun word => ?_
  cases word with
  | ok offset => exact .bind usize_sub_keeps fun _ => .bind .pure fun _ => reserve_inner_fits
  | error shared => exact .bind heap_fits fun _ => .bind usize_sub_keeps fun _ => reserve_inner_fits

/-! ### Read -/

theorem advance_unchecked_fits : KeepsFit (advance_unchecked n) := by
  refine .ite .pure (self_fits.then_keeps fun me fits => .bind heap_fits fun word => ?_)
  cases word with
  | ok offset => exact masked.then_keeps fun _ odd => .bind usize_sub_keeps fun _ => put_fits (odd_fits odd)
  | error shared =>
    refine (Gives.pure (P := fun d => d = me.data) rfl).then_keeps fun data same => ?_
    refine (usize_sub_gives (P := fun cap => cap = me.cap-n) fun _ => rfl).then_keeps fun cap less => put_fits fun even => ?_
    rw [less]
    exact Nat.sub_le_sub_right (fits (same ▸ even)) n
theorem advance_fits : KeepsFit (BytesMut.advance n) :=
  self_fits.then_keeps fun _ _ => .bind .check fun _ => advance_unchecked_fits
theorem truncate_fits : KeepsFit (truncate n) :=
  self_fits.then_keeps fun _ fits => .cases (fun shorter => put_fits fun even => shorter.le.trans (fits even)) fun _ => .pure
theorem truncate_off_fits : KeepsFit (truncate_off n) :=
  self_fits.then_keeps fun _ fits => .ite (put_fits fun even => (Nat.sub_le _ _).trans (fits even)) .pure
theorem clear_fits : KeepsFit clear := self_fits.then_keeps fun _ _ => put_fits fun _ => Nat.zero_le _

/-! ### Splitting -/

/-- A handle that is turned over to a node fits the buffer it gives up. -/
theorem original_buffer_fits {σ : Type} {inv : σ → Prop} {part : σ → Heap} {update : σ → Heap → σ}
    (same : ∀ s H, inv s → inv (update s H)) :
    Gives inv (fun _ => m.len ≤ m.cap) (zoom part update (m.original_buffer offset)) := by
  intro s holds
  simp only [original_buffer,Vec.from_raw_parts,sat_zoom,sat_bind,sat_get,sat_check,sat_pure]
  exact ⟨fun fits => ⟨same _ _ holds,Nat.le_of_add_le_add_right fits.1⟩,fun _ bad => by cases bad⟩

theorem shallow_clone_fits : GivesFit Fits (shallow_clone A) := by
  refine self_fits.bind fun me fits => .then_ heap_fits fun word => ?_
  cases word with
  | ok offset =>
    refine .bind (original_buffer_fits fun _ _ => id) fun vec less => .then_ heap_fits fun data => ?_
    exact .then_ (put_fits fun _ => less) fun _ => self_fits
  | error shared => exact .then_ heap_fits fun _ => self_fits

theorem try_split_to_fits : GivesFit (fun o => ∀ m, o = some m → m.Fits) (try_split_to A at_) := by
  refine self_fits.bind fun me _ => .ite (fun _ => .pure nofun) fun _ => ?_
  refine shallow_clone_fits.bind fun clone _ => .then_ advance_unchecked_fits fun _ => .pure ?_
  rintro _ ⟨⟩ _
  exact le_rfl
theorem split_to_fits : GivesFit Fits (split_to A at_) :=
  try_split_to_fits.bind fun _ fits => .ofOption fits
theorem split_fits : GivesFit Fits (split A) := self_fits.bind fun _ _ => split_to_fits
theorem split_to_ptr_fits : GivesFit Fits (split_to_ptr A n) :=
  self_fits.bind fun _ _ => .then_ .check fun _ => split_to_fits

/-- A method on a handle that was lent gives it back fitting. -/
theorem lend_fits {y : Method BytesMut α} (kept : KeepsFit y) (fits : o.Fits) :
    GivesFit (fun p : α × BytesMut => p.2.Fits) (onFst (lend o y)) := fun p holds =>
  sat_onFst.mpr (sat_lend.mpr ((kept (p.1,o) fits).mono (fun _ _ still => ⟨holds,still⟩) (fun _ _ _ _ => holds)))

theorem try_split_off_fits : GivesFit (fun o => ∀ m, o = some m → m.Fits) (try_split_off A at_) := by
  refine self_fits.bind fun me _ => .ite (fun _ => .pure nofun) fun _ => ?_
  refine shallow_clone_fits.bind fun clone fits => (lend_fits advance_unchecked_fits fits).bind fun rest fitting => ?_
  refine self_fits.bind fun me _ => .then_ (put_fits fun _ => Nat.min_le_right _ _) fun _ => .pure ?_
  rintro _ ⟨⟩
  exact fitting
theorem split_off_fits : GivesFit Fits (split_off A at_) :=
  try_split_off_fits.bind fun _ fits => .ofOption fits
theorem split_off_ptr_fits : GivesFit Fits (split_off_ptr A n) :=
  self_fits.bind fun _ _ => .then_ .check fun _ => split_off_fits

/-! ### Write -/

theorem extend_from_slice_fits : KeepsFit (extend_from_slice A v) := by
  refine .bind reserve_fits fun _ => self_fits.then_keeps fun me _ => ?_
  have room : GivesFit (fun _ => me.len+v.length ≤ me.cap) (onFst (me.spare_capacity_mut v)) := by
    intro p holds
    simp only [spare_capacity_mut,sat_onFst,sat_bind,sat_usize_sub,sat_check]
    refine ⟨fun le => ⟨fun spare => ?_,fun _ bad => by cases bad⟩,fun _ bad => by cases bad⟩
    exact sat_of_run (fun _ _ _ => ⟨holds,by omega⟩) (fun _ _ _ _ => holds)
  exact room.then_keeps fun _ less => put_fits fun _ => less

theorem try_unsplit_fits (fits : o.Fits) : GivesFit (fun r => ∀ m, r = .error m → m.Fits) (try_unsplit o) := by
  refine .ite (fun _ => .then_ heap_fits fun _ => .pure nofun) fun _ => self_fits.bind fun me own => .ite ?_ ?_
  · rintro ⟨_,left,right⟩
    refine .then_ (put_fits fun _ => Nat.add_le_add (own ?_) (fits ?_)) fun _ => .then_ heap_fits fun _ => .pure nofun
    · simpa [is_promoted,DATA_PROMOTED,DATA_MASK,Nat.and_one_is_mod] using left
    · simpa [is_promoted,DATA_PROMOTED,DATA_MASK,Nat.and_one_is_mod] using right
  · rintro _
    refine .pure ?_
    rintro _ ⟨⟩
    exact fits
theorem unsplit_fits (fits : o.Fits) : KeepsFit (unsplit A o) := by
  refine self_fits.then_keeps fun me own => .ite (.bind heap_fits fun _ => .bind (put_fits fits) fun _ => .pure) ?_
  refine (try_unsplit_fits fits).then_keeps fun joined _ => ?_
  cases joined with
  | ok _ => exact .pure
  | error other => exact .ensure (.bind heap_fits fun _ => extend_from_slice_fits) heap_fits

end BytesMut

/-! ### Conversions -/

/-- A method that leaves a handle that owns its buffer alone so. -/
abbrev KeepsOdd (y : Method BytesMut α) : Prop := Keeps (fun p : Heap × BytesMut => p.2.data.addr % 2 = 1) y

theorem BytesMut.advance_unchecked_odd : KeepsOdd (advance_unchecked n) := by
  have heap : ∀ {β : Type} {x : Exec Heap β}, KeepsOdd (onFst x) := fun _ holds =>
    sat_onFst.mpr (sat_of_run (fun _ _ _ => holds) (fun _ _ _ _ => holds))
  have own : Gives (fun p : Heap × BytesMut => p.2.data.addr % 2 = 1) (fun m => m.data.addr % 2 = 1) Method.self := fun _ holds => ⟨holds,holds⟩
  have put : ∀ {p : Ptr} {len cap : Nat} {data : Ptr}, data.addr % 2 = 1 → KeepsOdd (Method.put ⟨p,len,cap,data⟩) := fun odd _ _ => odd
  refine .ite .pure (own.then_keeps fun me odd => .bind heap fun word => ?_)
  cases word with
  | ok offset => exact masked.then_keeps fun _ odd => .bind usize_sub_keeps fun _ => put odd
  | error shared =>
    exact (Gives.pure (P := fun d => d.addr % 2 = 1) odd).then_keeps fun _ odd => .bind usize_sub_keeps fun _ => put odd

/-- What `into_mut` returns owns its buffer alone. -/
theorem Bytes.into_mut_fits {b : Bytes} : Gives (fun _ => True) BytesMut.Fits (b.into_mut A) := by
  have any : ∀ {β : Type} {x : Exec Heap β}, Keeps (fun _ => True) x := fun _ _ => sat_of_run (fun _ _ _ => trivial) (fun _ _ _ _ => trivial)
  have copied : Gives (fun _ => True) BytesMut.Fits (do return BytesMut.from_vec (← Vec.to_vec A (← b.as_slice))) :=
    .then_ any fun _ => .then_ any fun vec => .pure (BytesMut.from_vec_fits vec)
  have lent : ∀ {vec : Vec} {y : Method BytesMut Unit}, KeepsOdd y →
      Gives (fun _ => True) (fun p : Unit × BytesMut => p.2.data.addr % 2 = 1) (lend (BytesMut.from_vec vec) y) :=
    fun {vec} _ kept H _ => sat_lend.mpr ((kept (H,BytesMut.from_vec vec) rfl).mono (fun _ _ odd => ⟨trivial,odd⟩) (fun _ _ _ _ => trivial))
  refine .ite (fun _ => copied) fun _ => .then_ any fun word => ?_
  cases word with
  | ok offset =>
    exact .then_ any fun vec => (lent BytesMut.advance_unchecked_odd).bind fun _ odd => .pure (BytesMut.odd_fits odd)
  | error shared =>
    refine .then_ any fun node => .then_ any fun taken => ?_
    cases taken with
    | none => exact copied
    | some vec =>
      refine .then_ .check fun _ => .then_ usize_sub_keeps fun head => (lent ?_).bind fun _ odd => .pure (BytesMut.odd_fits odd)
      exact .bind BytesMut.advance_unchecked_odd fun _ _ odd => odd

/-! ### Runs -/

/-- A `BytesMut` in a slot fits. -/
def Handle.Fits : Handle → Prop
  | .bytesMut m => m.Fits
  | _ => True

namespace World
variable {w w₀ : World} {i j : Nat}

/-- Every handle of the pool fits. -/
def AllFit (w : World) : Prop := ∀ h, some h ∈ w.pool → h.Fits
abbrev PoolKeepsFit (x : Exec World α) : Prop := Keeps AllFit x
abbrev PoolGivesFit (P : α → Prop) (x : Exec World α) : Prop := Gives AllFit P x

theorem mem_pool {h : Handle} (at_ : w.slot i = some h) : some h ∈ w.pool :=
  List.mem_of_getElem? (Option.join_eq_some_iff.mp at_)

theorem handle_fits : PoolGivesFit Handle.Fits (handle i) := by
  intro w holds
  simp only [handle,sat_bind,sat_get,sat_ofOption]
  exact ⟨fun h at_ => ⟨holds,holds h (mem_pool at_)⟩,fun _ _ => holds⟩
theorem store_fits {o : Option Handle} (fits : ∀ h, o = some h → h.Fits) : PoolKeepsFit (store i o) := fun w holds h mem => by
  rcases List.mem_or_eq_of_mem_set mem with old | new
  · exact holds h old
  · exact fits h new.symm
theorem push_fits {h : Handle} (fits : h.Fits) : PoolKeepsFit (push h) := fun w holds h' mem => by
  rcases List.mem_append.mp mem with old | new
  · exact holds h' old
  · cases List.mem_singleton.mp new
    exact fits
theorem on_heap_gives {P : α → Prop} {x : Exec Heap α} (given : Gives (fun _ => True) P x) : PoolGivesFit P (onHeap x) :=
  given.zoom (fun _ _ => trivial) (fun _ _ holds _ => holds)
theorem on_heap_fits {x : Exec Heap α} : PoolKeepsFit (onHeap x) := fun _ holds =>
  sat_zoom.mpr (sat_of_run (fun _ _ _ => holds) (fun _ _ _ _ => holds))
theorem method_fits {S : Type} {self : S} {inj : S → Handle} {P : α → Prop} {y : Method S α}
    (given : Gives (fun p : Heap × S => (inj p.2).Fits) P y) (fits : (inj self).Fits) : PoolGivesFit P (method i inj self y) := by
  intro w holds
  have outside : ∀ p : Heap × S, (inj p.2).Fits → AllFit ⟨p.1,w.pool.set i (some (inj p.2))⟩ := fun p fits h mem => by
    rcases List.mem_or_eq_of_mem_set mem with old | new
    · exact holds h old
    · cases new
      exact fits
  exact sat_zoom.mpr ((given (w.heap,self) fits).mono (fun _ p ⟨still,met⟩ => ⟨outside p still,met⟩) (fun _ p still unwinds => outside p (still unwinds)))
/-- A method of `Bytes` does nothing to the handles of the other type. -/
theorem call_fits {P : α → Prop} {x : Method Bytes α} {y : Method BytesMut α} (bytes : ∀ (p : Heap × Bytes), Sat x p (fun a _ => P a) (fun _ _ => True))
    (bytesMut : BytesMut.GivesFit P y) : PoolGivesFit P (call i x y) := by
  refine handle_fits.bind fun h fits => ?_
  cases h with
  | bytes b => exact method_fits (fun p _ => (bytes p).mono (fun _ _ met => ⟨trivial,met⟩) fun _ _ _ _ => trivial) fits
  | bytesMut m => exact method_fits bytesMut fits
  | vec v => exact .stop


/-- Anything a method of `Bytes` does. -/
theorem bytes_any {x : Method Bytes α} (p : Heap × Bytes) : Sat x p (fun _ _ => True) (fun _ _ => True) :=
  sat_of_run (fun _ _ _ => trivial) (fun _ _ _ => trivial)
/-- A method that the type in the slot does not have. -/
theorem missing_any {S : Type} {P : α → Prop} (p : Heap × S) : Sat (missing : Method S α) p (fun a _ => P a) (fun _ _ => True) := trivial
theorem call_keeps_fit {x : Method Bytes α} {y : Method BytesMut α} (kept : BytesMut.KeepsFit y) : PoolKeepsFit (call i x y) :=
  (call_fits bytes_any (.of_keeps kept)).keeps
theorem missing_gives {S : Type} {inv : Heap × S → Prop} {P : α → Prop} : Gives inv P (missing : Method S α) := .stop
theorem move_fits : PoolGivesFit Handle.Fits (move i) :=
  handle_fits.bind fun _ fits => .then_ (store_fits nofun) fun _ => .pure fits
theorem move_vec_fits : PoolKeepsFit (move_vec i) :=
  move_fits.then_keeps fun | .vec _,_ => .pure | .bytes _,_ => .stop | .bytesMut _,_ => .stop
theorem move_bytes_fits : PoolKeepsFit (move_bytes i) :=
  move_fits.then_keeps fun | .vec _,_ => .stop | .bytes _,_ => .pure | .bytesMut _,_ => .stop
theorem move_bytes_mut_fits : PoolGivesFit BytesMut.Fits (move_bytes_mut i) :=
  move_fits.bind fun | .vec _,_ => .stop | .bytes _,_ => .stop | .bytesMut _,fits => .pure fits

/-- The handle that a method returns gets a slot. -/
theorem pushed_fits {x : Exec World Handle} (given : PoolGivesFit Handle.Fits x) :
    PoolKeepsFit (do push (← x); return Outcome.done) :=
  given.then_keeps fun _ fits => .bind (push_fits fits) fun _ => .pure
theorem pushed_some_fits {x : Exec World (Option Handle)} (given : PoolGivesFit (fun o => ∀ h : Handle, o = some h → h.Fits) x) :
    PoolKeepsFit (do push_some (← x)) :=
  given.then_keeps fun
    | none,_ => .pure
    | some h,fits => .bind (push_fits (fits h rfl)) fun _ => .pure
/-- A method that either type has, whose result is a handle of the same type. -/
theorem both_fit {x : Method Bytes Bytes} {y : Method BytesMut BytesMut} (given : BytesMut.GivesFit BytesMut.Fits y) :
    PoolGivesFit Handle.Fits (call i (.bytes <$> x) (.bytesMut <$> y)) :=
  call_fits (fun p => sat_map.mpr (bytes_any p)) (given.map fun _ => id)
theorem both_some_fit {x : Method Bytes (Option Bytes)} {y : Method BytesMut (Option BytesMut)}
    (given : BytesMut.GivesFit (fun o => ∀ m, o = some m → m.Fits) y) :
    PoolGivesFit (fun o => ∀ h : Handle, o = some h → h.Fits) (call i (Option.map Handle.bytes <$> x) (Option.map Handle.bytesMut <$> y)) := by
  refine call_fits (fun p => sat_map.mpr ((bytes_any p).mono (fun o _ _ => ?_) fun _ _ => id)) (given.map fun o fits => ?_) <;> intro h made
  · obtain ⟨_,_,rfl⟩ := Option.map_eq_some_iff.mp made
    trivial
  · obtain ⟨m,same,rfl⟩ := Option.map_eq_some_iff.mp made
    exact fits m same

theorem exec_fits (op : Op) : PoolKeepsFit (exec A op) := by
  have bytes : ∀ b : Bytes, PoolKeepsFit (do push (.bytes b); return Outcome.done) := fun b =>
    .bind (push_fits (h := .bytes b) trivial) fun _ => .pure
  have vec : ∀ v : Vec, PoolKeepsFit (do push (.vec v); return Outcome.done) := fun v =>
    .bind (push_fits (h := .vec v) trivial) fun _ => .pure
  have bytesMut : ∀ m : BytesMut, m.Fits → PoolKeepsFit (do push (.bytesMut m); return Outcome.done) := fun m fits =>
    .bind (push_fits (h := .bytesMut m) fits) fun _ => .pure
  have done : ∀ {x : Exec World Unit}, PoolKeepsFit x → PoolKeepsFit (do x; return Outcome.done) := fun kept =>
    .bind kept fun _ => .pure
  cases op with
  | vec v spare => exact .bind on_heap_fits fun _ => vec _
  | bytes_new => exact bytes _
  | bytes_from_static p len => exact .bind .get fun _ => .bind .check fun _ => bytes _
  | bytes_from_vec i => exact .bind move_vec_fits fun _ => .bind on_heap_fits fun _ => bytes _
  | bytes_from_box i => exact .bind move_vec_fits fun _ => .bind .check fun _ => bytes _
  | bytes_copy_from_slice v => exact .bind on_heap_fits fun _ => bytes _
  | bytes_mut_new => exact bytesMut _ (BytesMut.from_vec_fits _)
  | bytes_mut_with_capacity n => exact (on_heap_gives BytesMut.with_capacity_fits).then_keeps bytesMut
  | bytes_mut_from_vec i => exact .bind move_vec_fits fun _ => bytesMut _ (BytesMut.from_vec_fits _)
  | bytes_mut_copy_from_slice v => exact (on_heap_gives BytesMut.copy_from_slice_fits).then_keeps bytesMut
  | clone i =>
    refine pushed_fits (call_fits (fun p => sat_map.mpr (bytes_any p)) (BytesMut.self_fits.bind fun me _ => ?_))
    exact BytesMut.clone_fits.bind fun _ fits => .pure fits
  | slice i lo hi => exact pushed_fits (call_fits (fun p => sat_map.mpr (bytes_any p)) missing_gives)
  | slice_from_raw i addr len => exact pushed_fits (call_fits (fun p => sat_map.mpr (bytes_any p)) missing_gives)
  | advance i n => exact done (call_keeps_fit BytesMut.advance_fits)
  | truncate i n => exact done (call_keeps_fit BytesMut.truncate_fits)
  | truncate_off i n => exact done (call_keeps_fit BytesMut.truncate_off_fits)
  | clear i => exact done (call_keeps_fit BytesMut.clear_fits)
  | split i => exact pushed_fits (call_fits missing_any (BytesMut.split_fits.map fun _ => id))
  | split_to i at_ => exact pushed_fits (both_fit BytesMut.split_to_fits)
  | split_off i at_ => exact pushed_fits (both_fit BytesMut.split_off_fits)
  | try_split_to i at_ => exact pushed_some_fits (both_some_fit BytesMut.try_split_to_fits)
  | try_split_off i at_ => exact pushed_some_fits (both_some_fit BytesMut.try_split_off_fits)
  | split_to_ptr i addr => exact pushed_fits (call_fits missing_any (BytesMut.split_to_ptr_fits.map fun _ => id))
  | split_off_ptr i addr => exact pushed_fits (call_fits missing_any (BytesMut.split_off_ptr_fits.map fun _ => id))
  | unsplit i j => exact move_bytes_mut_fits.then_keeps fun _ fits => done (call_keeps_fit (BytesMut.unsplit_fits fits))
  | try_unsplit i j =>
    refine move_bytes_mut_fits.then_keeps fun other fits => (call_fits missing_any (BytesMut.try_unsplit_fits fits)).then_keeps fun joined back => ?_
    cases joined with
    | ok _ => exact .pure
    | error other =>
      refine .bind (store_fits ?_) fun _ => .pure
      rintro _ ⟨⟩
      exact back other rfl
  | extend_from_slice i v => exact .bind .check fun _ => done (call_keeps_fit BytesMut.extend_from_slice_fits)
  | as_mut_slice i at_ v => exact done (call_keeps_fit (.bind BytesMut.self_fits.keeps fun _ => BytesMut.heap_fits))
  | reserve i n => exact done (call_keeps_fit BytesMut.reserve_fits)
  | try_reclaim i n => exact .bind (call_keeps_fit BytesMut.try_reclaim_fits) fun _ => .pure
  | try_reclaim_full i => exact .bind (call_keeps_fit BytesMut.try_reclaim_full_fits) fun _ => .pure
  | freeze i => exact .bind move_bytes_mut_fits.keeps fun _ => .bind on_heap_fits fun _ => bytes _
  | into_mut i => exact .bind move_bytes_fits fun _ => (on_heap_gives Bytes.into_mut_fits).then_keeps bytesMut
  | into_vec i => exact .bind move_bytes_fits fun _ => .bind on_heap_fits fun _ => vec _
  | drop i => exact .bind move_fits.keeps fun _ => done on_heap_fits

/-- No `BytesMut` on a node is ever longer than its capacity. -/
theorem run_fits (initial : w₀.Initial) (run : Run A w₀ w) : AllFit w := by
  induction run with
  | refl =>
    intro h mem
    simp [initial.pool] at mem
  | tail _ step ih =>
    obtain ⟨op,⟨out,ran⟩ | ran⟩ := step
    · exact (sat_of_ok ran).mp (exec_fits op _ ih)
    · exact (sat_of_error ran).mp (exec_fits op _ ih) rfl

end World
end Tcio
