import Tcio.ByteStr
import Tcio.Run

/-!
Every `ByteStr` of a run holds UTF-8. A method of `ByteStr` keeps this of its own slot, and
an operation on other values leaves the slots alone that it does not name.
-/
namespace Tcio
open Exec

/-! ### What an operation leaves alone -/

namespace World
variable {A : Allocator} {w w' : World} {i j : Nat} {h r : Handle} {α : Type} {op : Op} {v : List UInt8}

/-- The slot keeps its value. -/
abbrev Leaves (i : Nat) (h : Handle) (x : Exec World α) : Prop := Keeps (fun w => w.slot i = some h) x

theorem slot_push (here : w.slot i = some h) : (World.mk w.heap (w.pool++[some r])).slot i = some h := by
  rw [slot_eq_some] at here ⊢
  exact List.getElem?_append_left (List.getElem?_eq_some_iff.mp here).1 ▸ here
theorem slot_set {o : Option Handle} {H : Heap} (here : w.slot i = some h) (other : i ≠ j) :
    (World.mk H (w.pool.set j o)).slot i = some h := by
  rw [slot_eq_some] at here ⊢
  rwa [List.getElem?_set_ne (fun same => other same.symm)]

theorem zoom_leaves {τ : Type} {part : World → τ} {update : World → τ → World} {x : Exec τ α}
    (outside : ∀ w t, w.slot i = some h → (update w t).slot i = some h) : Leaves i h (zoom part update x) :=
  fun w here => sat_zoom.mpr (sat_of_run (fun _ t _ => outside w t here) (fun _ t _ _ => outside w t here))
theorem handle_leaves : Leaves i h (handle j) := .bind .get fun _ => .ofOption
theorem store_leaves {o : Option Handle} (other : i ≠ j) : Leaves i h (store j o) := fun _ here => slot_set here other
theorem push_leaves : Leaves i h (push r) := fun _ here => slot_push here
theorem on_heap_leaves {x : Exec Heap α} : Leaves i h (onHeap x) := zoom_leaves fun _ _ here => here
theorem call_leaves {x : Method Bytes α} {y : Method BytesMut α} (other : i ≠ j) : Leaves i h (call j x y) := by
  refine .bind handle_leaves fun r => ?_
  cases r with
  | bytes b => exact zoom_leaves fun _ _ here => slot_set here other
  | bytesMut m => exact zoom_leaves fun _ _ here => slot_set here other
  | vec v => exact .stop
theorem move_leaves (other : i ≠ j) : Leaves i h (move j) :=
  .bind handle_leaves fun _ => .bind (store_leaves other) fun _ => .pure
theorem move_vec_leaves (other : i ≠ j) : Leaves i h (move_vec j) :=
  .bind (move_leaves other) fun | .vec _ => .pure | .bytes _ => .stop | .bytesMut _ => .stop
theorem move_bytes_leaves (other : i ≠ j) : Leaves i h (move_bytes j) :=
  .bind (move_leaves other) fun | .vec _ => .stop | .bytes _ => .pure | .bytesMut _ => .stop
theorem move_bytes_mut_leaves (other : i ≠ j) : Leaves i h (move_bytes_mut j) :=
  .bind (move_leaves other) fun | .vec _ => .stop | .bytes _ => .stop | .bytesMut _ => .pure
theorem push_some_leaves {o : Option Handle} : Leaves i h (push_some o) := by
  cases o with
  | none => exact .pure
  | some r => exact .bind push_leaves fun _ => .pure

theorem pushed_leaves {x : Exec World Handle} (left : Leaves i h x) : Leaves i h (do push (← x); return Outcome.done) :=
  .bind left fun _ => .bind push_leaves fun _ => .pure
theorem done_leaves {x : Exec World Unit} (left : Leaves i h x) : Leaves i h (do x; return Outcome.done) :=
  .bind left fun _ => .pure

/-- An operation leaves the slots alone that it does not name. -/
theorem exec_leaves (op : Op) (other : i ∉ op.operands) : Leaves i h (exec A op) := by
  cases op <;> simp only [Op.operands,List.mem_cons,List.not_mem_nil,or_false,not_or] at other
  case vec => exact .bind on_heap_leaves fun _ => .bind push_leaves fun _ => .pure
  case bytes_new => exact .bind push_leaves fun _ => .pure
  case bytes_from_static => exact .bind .get fun _ => .bind .check fun _ => .bind push_leaves fun _ => .pure
  case bytes_from_vec => exact .bind (move_vec_leaves other) fun _ => .bind on_heap_leaves fun _ => .bind push_leaves fun _ => .pure
  case bytes_from_box => exact .bind (move_vec_leaves other) fun _ => .bind .check fun _ => .bind push_leaves fun _ => .pure
  case bytes_copy_from_slice => exact .bind on_heap_leaves fun _ => .bind push_leaves fun _ => .pure
  case bytes_mut_new => exact .bind push_leaves fun _ => .pure
  case bytes_mut_with_capacity => exact .bind on_heap_leaves fun _ => .bind push_leaves fun _ => .pure
  case bytes_mut_from_vec => exact .bind (move_vec_leaves other) fun _ => .bind push_leaves fun _ => .pure
  case bytes_mut_copy_from_slice => exact .bind on_heap_leaves fun _ => .bind push_leaves fun _ => .pure
  case clone => exact pushed_leaves (call_leaves other)
  case slice => exact pushed_leaves (call_leaves other)
  case slice_from_raw => exact pushed_leaves (call_leaves other)
  case advance => exact done_leaves (call_leaves other)
  case truncate => exact done_leaves (call_leaves other)
  case truncate_off => exact done_leaves (call_leaves other)
  case clear => exact done_leaves (call_leaves other)
  case split => exact pushed_leaves (call_leaves other)
  case split_to => exact pushed_leaves (call_leaves other)
  case split_off => exact pushed_leaves (call_leaves other)
  case try_split_to => exact .bind (call_leaves other) fun _ => push_some_leaves
  case try_split_off => exact .bind (call_leaves other) fun _ => push_some_leaves
  case split_to_ptr => exact pushed_leaves (call_leaves other)
  case split_off_ptr => exact pushed_leaves (call_leaves other)
  case unsplit => exact .bind (move_bytes_mut_leaves other.2) fun _ => .bind (call_leaves other.1) fun _ => .pure
  case try_unsplit =>
    refine .bind (move_bytes_mut_leaves other.2) fun _ => .bind (call_leaves other.1) fun back => ?_
    cases back with
    | ok _ => exact .pure
    | error back => exact .bind (store_leaves other.2) fun _ => .pure
  case extend_from_slice => exact .bind .check fun _ => .bind (call_leaves other) fun _ => .pure
  case as_mut_slice => exact done_leaves (call_leaves other)
  case reserve => exact done_leaves (call_leaves other)
  case try_reclaim => exact .bind (call_leaves other) fun _ => .pure
  case try_reclaim_full => exact .bind (call_leaves other) fun _ => .pure
  case freeze => exact .bind (move_bytes_mut_leaves other) fun _ => .bind on_heap_leaves fun _ => .bind push_leaves fun _ => .pure
  case into_mut => exact .bind (move_bytes_leaves other) fun _ => .bind on_heap_leaves fun _ => .bind push_leaves fun _ => .pure
  case into_vec => exact .bind (move_bytes_leaves other) fun _ => .bind on_heap_leaves fun _ => .bind push_leaves fun _ => .pure
  case drop => exact .bind (move_leaves other) fun _ => .bind on_heap_leaves fun _ => .pure

/-! The same for the views. -/

theorem view_of_acts {f : List UInt8 → List UInt8} {after : List (Option (List UInt8))} (acts : w.Acts j f after) (other : i ≠ j) :
    after[i]? = w.views[i]? := by
  obtain ⟨_,_,rfl⟩ := acts
  exact List.getElem?_set_ne (fun same => other same.symm)

theorem view_of_append {L : List (Option (List UInt8))} {o : Option (List UInt8)} (viewed : L[i]? = some (some v)) :
    (L++[o])[i]? = some (some v) := by
  rw [List.getElem?_append_left (List.getElem?_eq_some_iff.mp viewed).1]
  exact viewed

theorem view_of_set {o : Option (List UInt8)} (viewed : w.views[i]? = some (some v)) (other : i ≠ j) :
    (w.views.set j o)[i]? = some (some v) := by
  rw [List.getElem?_set_ne (fun same => other same.symm)]
  exact viewed

theorem view_of_cuts {keep out : List UInt8 → List UInt8} {after : List (Option (List UInt8))} (cuts : w.Cuts j keep out after)
    (viewed : w.views[i]? = some (some v)) (other : i ≠ j) : after[i]? = some (some v) := by
  obtain ⟨_,_,rfl⟩ := cuts
  exact view_of_append (view_of_set viewed other)

theorem view_of_becomes {after : List (Option (List UInt8))} (becomes : w.Becomes j after) (viewed : w.views[i]? = some (some v))
    (other : i ≠ j) : after[i]? = some (some v) := by
  obtain ⟨_,_,rfl⟩ := becomes
  exact view_of_append (view_of_set viewed other)

theorem effect_leaves {out : Outcome} {after : List (Option (List UInt8))} (effect : w.Effect op out after)
    (viewed : w.views[i]? = some (some v)) (other : i ∉ op.operands) : after[i]? = some (some v) := by
  have acts : ∀ {f j}, w.Acts j f after → i ≠ j → after[i]? = some (some v) := fun acts other =>
    (view_of_acts acts other).trans viewed
  cases op <;> simp only [Op.operands,List.mem_cons,List.not_mem_nil,or_false,not_or] at other <;> simp only [Effect] at effect
  case vec => exact effect.2 ▸ view_of_append viewed
  case bytes_new => exact effect.2 ▸ view_of_append viewed
  case bytes_from_static =>
    obtain ⟨_,_,_,rfl⟩ := effect
    exact view_of_append viewed
  case bytes_from_vec => exact view_of_becomes effect.2 viewed other
  case bytes_from_box => exact view_of_becomes effect.2 viewed other
  case bytes_copy_from_slice => exact effect.2 ▸ view_of_append viewed
  case bytes_mut_new => exact effect.2 ▸ view_of_append viewed
  case bytes_mut_with_capacity => exact effect.2 ▸ view_of_append viewed
  case bytes_mut_from_vec => exact view_of_becomes effect.2 viewed other
  case bytes_mut_copy_from_slice => exact effect.2 ▸ view_of_append viewed
  case clone => exact view_of_cuts effect.2 viewed other
  case slice => exact view_of_cuts effect.2.2 viewed other
  case slice_from_raw => exact view_of_cuts effect.2.2 viewed other
  case advance => exact acts effect.2.2 other
  case truncate => exact acts effect.2 other
  case truncate_off => exact acts effect.2 other
  case clear => exact acts effect.2 other
  case split => exact view_of_cuts effect.2 viewed other
  case split_to => exact view_of_cuts effect.2.2 viewed other
  case split_off => exact view_of_cuts effect.2.2 viewed other
  case try_split_to =>
    split at effect
    · exact view_of_cuts effect.2 viewed other
    · exact effect.2 ▸ viewed
  case try_split_off =>
    split at effect
    · exact view_of_cuts effect.2 viewed other
    · exact effect.2 ▸ viewed
  case split_to_ptr => exact view_of_cuts effect.2.2 viewed other
  case split_off_ptr => exact view_of_cuts effect.2.2 viewed other
  case unsplit =>
    obtain ⟨_,_,_,_,_,rfl⟩ := effect
    rw [List.getElem?_set_ne (fun same => other.1 same.symm)]
    exact view_of_set viewed other.2
  case try_unsplit =>
    obtain ⟨_,_,_,_,⟨_,_,rfl⟩ | ⟨_,_,rfl⟩⟩ := effect
    · rw [List.getElem?_set_ne (fun same => other.1 same.symm)]
      exact view_of_set viewed other.2
    · exact viewed
  case extend_from_slice => exact acts effect.2 other
  case as_mut_slice => exact acts effect.2.2 other
  case reserve => exact acts effect.2 other
  case try_reclaim => exact acts effect.2 other
  case try_reclaim_full => exact acts effect.2 other
  case freeze => exact view_of_becomes effect.2 viewed other
  case into_mut => exact view_of_becomes effect.2 viewed other
  case into_vec => exact view_of_becomes effect.2 viewed other
  case drop => exact effect.2 ▸ view_of_set viewed other

/-- So does one that panics. -/
theorem unwound_leaves (viewed : w.views[i]? = some (some v)) (other : i ∉ op.operands) :
    (w.unwound op)[i]? = some (some v) := by
  cases op <;> try exact viewed
  simp only [Op.operands,List.mem_cons,List.not_mem_nil,or_false,not_or] at other
  exact view_of_set viewed other.2

end World

/-! ### Methods -/

namespace ByteStr
variable {A : Allocator} {H H' : Heap} {R : List Handle} {s : ByteStr} {v u : List UInt8} {n : Nat} {α : Type}

@[simp] theorem sat_inner {x : Method Bytes α} {p : Heap × ByteStr} {Q : α → Heap × ByteStr → Prop}
    {E : Stop → Heap × ByteStr → Prop} : Sat (inner x) p Q E ↔
      Sat x (p.1,p.2.bytes) (fun a q => Q a (q.1,⟨q.2⟩)) (fun k q => E k (q.1,⟨q.2⟩)) := sat_zoom

theorem as_str_ok (view : (Handle.bytes s.bytes).view H = some v) (valid : Utf8 v) : s.as_str H = (.ok v,H) := by
  have loaded : s.bytes.as_slice H = (.ok v,H) := read_ok view
  rw [as_str,ok_bind loaded,Str.from_utf8_unchecked,ok_bind (check_ok valid)]
  rfl

/-- A cut at the boundary of a character, or behind the end, leaves UTF-8. -/
theorem take_valid (valid : Utf8 v) (boundary : n ≤ v.length → Utf8.is_char_boundary v n) : Utf8 (v.take n) := by
  by_cases inside : n ≤ v.length
  · exact (Utf8.take_iff valid inside).mpr (boundary inside)
  · rwa [List.take_of_length_le (by omega)]

theorem truncate_spec (sound : Sound H [] (.bytes s.bytes :: R)) (view : (Handle.bytes s.bytes).view H = some v) (valid : Utf8 v) :
    Sat (truncate A n) (H,s)
      (fun _ p => (n ≤ v.length → Utf8.is_char_boundary v n) ∧ Turns A H R p.1 [] [(.bytes p.2.bytes,v.take n)])
      (fun k p => k = .abort ∧ Crowded H ∨ k = .panic ∧ p = (H,s) ∧ n ≤ v.length ∧ ¬ Utf8.is_char_boundary v n) := by
  have str : s.as_str H = (.ok v,H) := as_str_ok view valid
  simp only [truncate,sat_bind,Method.sat_self,sat_onFst]
  rw [sat_of_ok str]
  simp only [sat_ite,sat_bind,sat_onFst,Method.sat_self,sat_pure]
  refine ⟨fun inside => ?_,fun large => ⟨fun inside => absurd inside large,?_⟩⟩
  · rw [sat_of_ok str]
    simp only [sat_check,sat_inner]
    refine ⟨fun boundary => ?_,fun other => .inr ⟨trivial,trivial,inside,other⟩⟩
    exact (Bytes.truncate_spec sound view).mono (fun _ _ turns => ⟨fun _ => boundary,turns⟩) (fun _ _ => .inl)
  · rw [List.take_of_length_le (by omega)]
    exact .start sound view

theorem clear_spec (sound : Sound H [] (.bytes s.bytes :: R)) (view : (Handle.bytes s.bytes).view H = some v) :
    Sat clear (H,s) (fun _ p => Turns A H R p.1 [] [(.bytes p.2.bytes,[])]) (fun _ _ => False) := by
  simp only [clear,sat_inner]
  exact Bytes.clear_spec sound view

theorem clone_spec (sound : Sound H [] (.bytes s.bytes :: R)) (view : (Handle.bytes s.bytes).view H = some v) :
    Sat (clone A) (H,s) (fun c p => Turns A H R p.1 [] [(.bytes p.2.bytes,v),(.bytes c.bytes,v)])
      (fun k _ => k = .abort ∧ Crowded H) := by
  simp only [clone,sat_bind,sat_inner,sat_pure]
  exact Bytes.clone_spec sound view

/-- The part of a view that lies where a string lies has the bytes of the string. -/
theorem agrees_cut {b : Bytes} {str : Str} (view : (Handle.bytes b).view H = some v) (loaded : H.mem.load str.ptr str.len = some u)
    (agrees : ∀ k < str.len, ∀ l < b.len, str.ptr.addr+k = b.ptr.addr+l →
      H.mem.load (str.ptr.add k) 1 = H.mem.load (b.ptr.add l) 1)
    (low : b.ptr.addr ≤ str.ptr.addr) (high : str.ptr.addr+str.len ≤ b.ptr.addr+v.length) :
    (v.drop (str.ptr.addr-b.ptr.addr)).take str.len = u := by
  have length : v.length = b.len := length_of_view view
  have length' : u.length = str.len := Memory.load_length loaded
  have cell : ∀ {p : Ptr} {n k : Nat} {w : List UInt8}, H.mem.load p n = some w → (inside : k < w.length) →
      H.mem.load (p.add k) 1 = some [w[k]] := by
    intro p n k w found inside
    have whole : w.length = n := Memory.load_length found
    rw [Memory.load_take (Memory.load_drop found (k := k) (by omega)) (by omega),List.drop_eq_getElem_cons inside]
    rfl
  refine List.ext_getElem (by rw [List.length_take,List.length_drop]; omega) fun k _ here => ?_
  have same := agrees k (by omega) (str.ptr.addr-b.ptr.addr+k) (by omega) (by omega)
  rw [cell loaded here,cell (show H.mem.load b.ptr b.len = some v from view) (by omega),Option.some.injEq,List.cons.injEq] at same
  rw [List.getElem_take,List.getElem_drop]
  exact same.1.symm

theorem into_string_spec (sound : Sound H [] (.bytes s.bytes :: R)) (view : (Handle.bytes s.bytes).view H = some v) (valid : Utf8 v) :
    Sat (s.into_string A) H (fun vec H' => Turns A H R H' [] [(.vec vec,v)]) (fun _ _ => False) := by
  simp only [into_string,sat_bind]
  refine (Bytes.into_vec_spec sound view).mono ?_ (fun _ _ => id)
  intro vec H' turns
  have loaded : H'.mem.load vec.ptr vec.len = some v := turns.view
  rw [sat_of_ok (read_ok loaded)]
  simp only [Str.from_utf8_unchecked,sat_bind,sat_check,sat_pure]
  exact ⟨fun _ => turns,fun invalid => invalid valid⟩

end ByteStr

/-! ### Runs -/

namespace Strings
open World
variable {A : Allocator} {t t' : Strings} {w' : World} {H' : Heap} {i n : Nat} {b b' r : Bytes} {v u : List UInt8} {α : Type}
variable {h : Handle} {op : StrOp} {str : Str} {texts : List Nat}

/-- The slot holds a `Bytes` that views UTF-8. -/
def Text (p : List (Option Handle)) (V : List (Option (List UInt8))) (i : Nat) : Prop :=
  ∃ b v, p[i]? = some (some (.bytes b)) ∧ V[i]? = some (some v) ∧ Utf8 v

namespace Text
variable {p L : List (Option Handle)} {V M : List (Option (List UInt8))} {o : Option Handle} {x : Option (List UInt8)} {j : Nat}

theorem set_ne (text : Text p V i) (other : i ≠ j) : Text (p.set j o) (V.set j x) i := by
  obtain ⟨b,v,here,viewed,valid⟩ := text
  refine ⟨b,v,?_,?_,valid⟩
  · rwa [List.getElem?_set_ne (fun same => other same.symm)]
  · rwa [List.getElem?_set_ne (fun same => other same.symm)]

theorem append (text : Text p V i) : Text (p++L) (V++M) i := by
  obtain ⟨b,v,here,viewed,valid⟩ := text
  refine ⟨b,v,?_,?_,valid⟩
  · rwa [List.getElem?_append_left (List.getElem?_eq_some_iff.mp here).1]
  · rwa [List.getElem?_append_left (List.getElem?_eq_some_iff.mp viewed).1]

theorem set_self (here : p[i]? = some o) (viewed : V[i]? = some x) (valid : Utf8 v) :
    Text (p.set i (some (.bytes b))) (V.set i (some v)) i :=
  ⟨b,v,List.getElem?_set_self (List.getElem?_eq_some_iff.mp here).1,List.getElem?_set_self (List.getElem?_eq_some_iff.mp viewed).1,valid⟩

theorem last (same : V.length = p.length) (valid : Utf8 v) : Text (p++[some (.bytes b)]) (V++[some v]) p.length :=
  ⟨b,v,List.getElem?_concat_length,same ▸ List.getElem?_concat_length,valid⟩

end Text

/-- The heap is sound, and every `ByteStr` holds UTF-8. -/
structure Sound (t : Strings) : Prop where
  world : t.world.Sound
  text : ∀ i ∈ t.texts, Text t.world.pool t.world.views i

theorem views_length (w : World) : w.views.length = w.pool.length := List.length_map _

/-! What becomes of the slots in a step. -/

theorem Sound.push (sound : t.Sound) (turns : Turns A t.world.heap t.world.handles H' [] [(.bytes r,u)]) (valid : Utf8 u) :
    Sound ⟨⟨H',t.world.pool++[some (.bytes r)]⟩,t.world.pool.length :: t.texts⟩ := by
  have settles := settle_push turns
  refine ⟨settles.sound,fun k mem => ?_⟩
  rw [settles.views]
  rcases List.mem_cons.mp mem with rfl | old
  · exact .last (views_length _) valid
  · exact (sound.text k old).append

theorem Sound.set (sound : t.Sound) (here : t.world.slot i = some h)
    (turns : Turns A t.world.heap (t.world.rest i) H' [] [(.bytes b',v)]) (valid : Utf8 v) :
    Sound ⟨⟨H',t.world.pool.set i (some (.bytes b'))⟩,t.texts⟩ := by
  have settles := settle_set here turns
  refine ⟨settles.sound,fun k mem => ?_⟩
  rw [settles.views]
  by_cases same : k = i
  · subst same
    exact .set_self (slot_eq_some.mp here) (view_of_slot here) valid
  · exact (sound.text k mem).set_ne same

/-- The operand views what it did, and a new `ByteStr` comes. -/
theorem Sound.cut (sound : t.Sound) (here : t.world.slot i = some h) (viewed : t.world.views[i]? = some (some v))
    (turns : Turns A t.world.heap (t.world.rest i) H' [] [(.bytes b',v),(.bytes r,u)]) (valid : Utf8 u) :
    Sound ⟨⟨H',t.world.pool.set i (some (.bytes b'))++[some (.bytes r)]⟩,t.world.pool.length :: t.texts⟩ := by
  have settles := settle_cut here turns
  have long : (t.world.pool.set i (some (.bytes b'))).length = t.world.pool.length := List.length_set
  refine ⟨settles.sound,fun k mem => ?_⟩
  rw [settles.views]
  rcases List.mem_cons.mp mem with rfl | old
  · rw [← long]
    exact .last (by rw [List.length_set,long,views_length]) valid
  · refine Text.append ?_
    by_cases same : k = i
    · subst same
      obtain ⟨_,v',_,viewed',valid'⟩ := sound.text k old
      cases viewed.symm.trans viewed'
      exact .set_self (slot_eq_some.mp here) viewed valid'
    · exact (sound.text k old).set_ne same

/-- The operand moves out of its slot and comes out as another value. -/
theorem Sound.become (sound : t.Sound) (turns : Turns A t.world.heap (t.world.rest i) H' [] [(h,v)])
    (each : ∀ k ∈ texts, k ∈ t.texts ∧ k ≠ i ∨ k = t.world.pool.length ∧ (∃ b, h = .bytes b) ∧ Utf8 v) :
    Sound ⟨⟨H',t.world.pool.set i none++[some h]⟩,texts⟩ := by
  have settles := settle_move turns
  have long : (t.world.pool.set i none).length = t.world.pool.length := List.length_set
  refine ⟨settles.sound,fun k mem => ?_⟩
  rw [settles.views]
  rcases each k mem with ⟨old,other⟩ | ⟨rfl,⟨b,rfl⟩,valid⟩
  · exact ((sound.text k old).set_ne other).append
  · rw [← long]
    exact .last (by rw [List.length_set,long,views_length]) valid

theorem Sound.drop (sound : t.Sound) (turns : Turns A t.world.heap (t.world.rest i) H' [] []) :
    Sound ⟨⟨H',t.world.pool.set i none⟩,t.texts.filter (· ≠ i)⟩ := by
  have settles := settle_drop turns
  refine ⟨settles.sound,fun k mem => ?_⟩
  rw [settles.views]
  obtain ⟨old,other⟩ := List.mem_filter.mp mem
  exact (sound.text k old).set_ne (of_decide_eq_true other)

/-! ### Operations -/

@[simp] theorem sat_on_world {x : Exec World α} {Q : α → Strings → Prop} {E : Stop → Strings → Prop} :
    Sat (onWorld x) t Q E ↔ Sat x t.world (fun a w => Q a ⟨w,t.texts⟩) (fun k w => E k ⟨w,t.texts⟩) := sat_zoom
@[simp] theorem sat_on_heap {x : Exec Heap α} {Q : α → Strings → Prop} {E : Stop → Strings → Prop} :
    Sat (onHeap x) t Q E ↔ Sat x t.world.heap (fun a H => Q a ⟨⟨H,t.world.pool⟩,t.texts⟩)
      (fun k H => E k ⟨⟨H,t.world.pool⟩,t.texts⟩) := by
  simp only [onHeap,sat_on_world,World.onHeap,sat_zoom]
@[simp] theorem sat_push {s : ByteStr} {Q : Unit → Strings → Prop} {E : Stop → Strings → Prop} : Sat (push s) t Q E ↔
    Q () ⟨⟨t.world.heap,t.world.pool++[some (.bytes s.bytes)]⟩,t.world.pool.length :: t.texts⟩ := by
  simp only [push,sat_bind,sat_get,sat_on_world,World.push,sat_modify]
theorem sat_is_text {Q : Unit → Strings → Prop} {E : Stop → Strings → Prop} :
    Sat (is_text i) t Q E ↔ (i ∈ t.texts → Q () t) ∧ (i ∉ t.texts → E .stuck t) := by
  simp only [is_text,sat_bind,sat_get,sat_check]
theorem sat_is_other {Q : Unit → Strings → Prop} {E : Stop → Strings → Prop} :
    Sat (is_other i) t Q E ↔ (i ∉ t.texts → Q () t) ∧ (¬ i ∉ t.texts → E .stuck t) := by
  simp only [is_other,sat_bind,sat_get,sat_check]

/-- A `ByteStr` of the pool, beside the other handles. -/
theorem Sound.focus (sound : t.Sound) (mem : i ∈ t.texts) : ∃ b v, t.world.slot i = some (.bytes b) ∧
    t.world.views[i]? = some (some v) ∧ (Handle.bytes b).view t.world.heap = some v ∧ Utf8 v ∧
    Tcio.Sound t.world.heap [] (.bytes b :: t.world.rest i) := by
  obtain ⟨b,v,found,viewed,valid⟩ := sound.text i mem
  have here := slot_eq_some.mpr found
  obtain ⟨u,viewed',view,focused⟩ := sound.world.focus here
  cases viewed.symm.trans viewed'
  exact ⟨b,v,here,viewed,view,valid,focused⟩

/-- A call on a `Bytes`, or on the `ByteStr` made of it. -/
theorem sat_method {S : Type} {of : Bytes → S} {back : S → Bytes} {x : Method S α} {Q : α → Strings → Prop} {E : Stop → Strings → Prop}
    (bytes : ∀ b, t.world.slot i = some (.bytes b) → Sat x (t.world.heap,of b)
      (fun a p => Q a ⟨⟨p.1,t.world.pool.set i (some (.bytes (back p.2)))⟩,t.texts⟩)
      (fun k p => E k ⟨⟨p.1,t.world.pool.set i (some (.bytes (back p.2)))⟩,t.texts⟩))
    (other : ¬ t.world.HasBytes i → ∀ t', E .stuck t') : Sat (method i of back x) t Q E := by
  simp only [method,sat_bind,sat_on_world,sat_handle]
  refine ⟨fun h here => ?_,fun none => other (by simp [HasBytes,none]) _⟩
  cases h with
  | bytes b =>
    simp only [sat_on_world,World.method,sat_zoom]
    exact bytes b here
  | bytesMut m => exact other (by simp [HasBytes,here]) _
  | vec v => exact other (by simp [HasBytes,here]) _

theorem sat_call {x : Method ByteStr α} {Q : α → Strings → Prop} {E : Stop → Strings → Prop} (sound : t.Sound)
    (text : ∀ b v, t.world.slot i = some (.bytes b) → t.world.views[i]? = some (some v) →
      (Handle.bytes b).view t.world.heap = some v → Utf8 v → Tcio.Sound t.world.heap [] (.bytes b :: t.world.rest i) →
      Sat x (t.world.heap,⟨b⟩) (fun a p => Q a ⟨⟨p.1,t.world.pool.set i (some (.bytes p.2.bytes))⟩,t.texts⟩)
        (fun k p => E k ⟨⟨p.1,t.world.pool.set i (some (.bytes p.2.bytes))⟩,t.texts⟩))
    (other : i ∉ t.texts → ∀ t', E .stuck t') : Sat (call i x) t Q E := by
  simp only [call,sat_bind,sat_is_text]
  refine ⟨fun mem => ?_,fun none => other none _⟩
  obtain ⟨b,v,here,viewed,view,valid,focused⟩ := sound.focus mem
  refine sat_method (fun b' here' => ?_) (fun none => absurd ⟨b,here⟩ none)
  cases here.symm.trans here'
  exact text b v here viewed view valid focused

/-- A `ByteStr` that is moved out of its slot. -/
theorem sat_move_text {Q : ByteStr → Strings → Prop} {E : Stop → Strings → Prop} (sound : t.Sound)
    (text : ∀ b v, t.world.slot i = some (.bytes b) → t.world.views[i]? = some (some v) →
      (Handle.bytes b).view t.world.heap = some v → Utf8 v → Tcio.Sound t.world.heap [] (.bytes b :: t.world.rest i) →
      Q ⟨b⟩ ⟨⟨t.world.heap,t.world.pool.set i none⟩,t.texts.filter (· ≠ i)⟩)
    (other : i ∉ t.texts → ∀ t', E .stuck t') : Sat (move i) t Q E := by
  simp only [move,sat_bind,sat_is_text,sat_on_world,sat_modify,sat_pure]
  refine ⟨fun mem => ?_,fun none => other none _⟩
  obtain ⟨b,v,here,viewed,view,valid,focused⟩ := sound.focus mem
  refine sat_move_bytes (fun b' here' => ?_) (fun none => absurd ⟨b,here⟩ none)
  cases here.symm.trans here'
  exact text b v here viewed view valid focused

theorem Str.valid_iff {s : Str} {H : Heap} : s.Valid H ↔ ∃ u, H.mem.load s.ptr s.len = some u ∧ Utf8 u := by
  simp [Str.Valid,Option.any_eq_true]

/-- A `String` that is moved out of its slot; no `ByteStr` is one. -/
theorem sat_move_string {Q : Vec → Strings → Prop} {E : Stop → Strings → Prop} (sound : t.Sound)
    (string : ∀ vec v, t.world.slot i = some (.vec vec) → (Handle.vec vec).view t.world.heap = some v → Utf8 v →
      Tcio.Sound t.world.heap [] (.vec vec :: t.world.rest i) → (∀ k ∈ t.texts, k ≠ i) →
      Q vec ⟨⟨t.world.heap,t.world.pool.set i none⟩,t.texts⟩)
    (other : ∀ t', E .stuck t') : Sat (move_string i) t Q E := by
  simp only [move_string,sat_bind,sat_on_world,sat_get,sat_check,sat_pure]
  refine sat_move_vec (fun vec here => ⟨fun valid => ?_,fun _ => other _⟩) (fun _ _ => other _)
  obtain ⟨v,_,view,focused⟩ := sound.world.focus here
  obtain ⟨u,loaded,valid⟩ := Str.valid_iff.mp valid
  cases (show (Handle.vec vec).view t.world.heap = some u from loaded).symm.trans view
  refine string vec v here view valid focused fun k mem => ?_
  rintro rfl
  obtain ⟨b,_,there,_⟩ := sound.focus mem
  cases here.symm.trans there

/-! What each operation does to the views of the pool. -/

/-- Every slot views what it did but `i`, and the slots of the `ByteStr`s are the same. -/
def Acts (A : Allocator) (t t' : Strings) (i : Nat) (v : List UInt8) : Prop :=
  Settles A t.world t'.world (t.world.views.set i (some v)) ∧ t'.texts = t.texts
/-- Every slot views what it did, and a `ByteStr` comes that views `u`. -/
def Cuts (A : Allocator) (t t' : Strings) (u : List UInt8) : Prop :=
  Settles A t.world t'.world (t.world.views++[some u]) ∧ t'.texts = t.world.pool.length :: t.texts

theorem truncate_spec (sound : t.Sound) (mem : i ∈ t.texts) : ∃ v, t.world.views[i]? = some (some v) ∧ Utf8 v ∧
    Sat (exec A (.truncate i n)) t
      (fun _ t' => (n ≤ v.length → Utf8.is_char_boundary v n) ∧ t.Acts A t' i (v.take n) ∧ t'.Sound)
      (fun k t' => k = .abort ∧ Crowded t.world.heap ∨ k = .panic ∧ t' = t ∧ n ≤ v.length ∧ ¬ Utf8.is_char_boundary v n) := by
  obtain ⟨b,v,here,viewed,view,valid,_⟩ := sound.focus mem
  refine ⟨v,viewed,valid,?_⟩
  simp only [exec,sat_bind,sat_pure]
  refine sat_call sound ?_ (fun none => absurd mem none)
  intro b' v' here' viewed' view' _ focused
  cases here.symm.trans here'
  cases viewed.symm.trans viewed'
  refine (ByteStr.truncate_spec focused view valid).mono ?_ ?_
  · rintro _ p ⟨boundary,turns⟩
    exact ⟨boundary,⟨settle_set here turns,rfl⟩,sound.set here turns (ByteStr.take_valid valid boundary)⟩
  · rintro k p (stops | ⟨rfl,rfl,rest⟩)
    · exact .inl stops
    · refine .inr ⟨rfl,?_,rest⟩
      simp only [set_slot here]

/-- The string lies inside what the `Bytes` in a slot views. -/
def Inside (t : Strings) (i : Nat) (str : Str) : Prop := ∃ b, t.world.slot i = some (.bytes b) ∧
  str.ptr.addr+str.len < 2^64 ∧ b.ptr.addr ≤ str.ptr.addr ∧ str.ptr.addr+str.len ≤ b.ptr.addr+b.len

/-- What a part of a `Bytes` is, that is given as a string. -/
theorem part_spec {p : Heap × Bytes} (sound : t.Sound) (here : t.world.slot i = some (.bytes b)) (same : p = (t.world.heap,b))
    (loaded : t.world.heap.mem.load str.ptr str.len = some u) (valid : Utf8 u) (agrees : t.Agrees i str) :
    Sat (Bytes.slice_from_raw A str.ptr.addr str.len) p
      (fun r q => (t.Inside i str ∧ t.Cuts A
          ⟨⟨q.1,t.world.pool.set i (some (.bytes q.2))++[some (.bytes r)]⟩,t.world.pool.length :: t.texts⟩ u) ∧
        Sound ⟨⟨q.1,t.world.pool.set i (some (.bytes q.2))++[some (.bytes r)]⟩,t.world.pool.length :: t.texts⟩)
      (fun k q => k = .abort ∧ Crowded t.world.heap ∧ t.Inside i str ∨
        k = .panic ∧ (⟨⟨q.1,t.world.pool.set i (some (.bytes q.2))⟩,t.texts⟩ : Strings) = t ∧ ¬ t.Inside i str) := by
  subst same
  obtain ⟨v,viewed,view,focused⟩ := sound.world.focus here
  have length : v.length = b.len := length_of_view view
  have inside : t.Inside i str ↔
      str.ptr.addr+str.len < 2^64 ∧ b.ptr.addr ≤ str.ptr.addr ∧ str.ptr.addr+str.len ≤ b.ptr.addr+v.length := by
    simp only [Inside,here,length,Option.some.injEq,Handle.bytes.injEq,exists_eq_left']
  rw [inside]
  refine (Bytes.slice_from_raw_spec focused view).mono ?_ ?_
  · rintro r q ⟨⟨fits,low,high⟩,_,turns⟩
    rw [ByteStr.agrees_cut view loaded (agrees b here) low high] at turns
    have settles := settle_cut here turns
    rw [set_view viewed] at settles
    exact ⟨⟨⟨fits,low,high⟩,settles,rfl⟩,sound.cut here viewed turns valid⟩
  · rintro k q (stops | ⟨rfl,rfl,outside⟩)
    · exact .inl stops
    · refine .inr ⟨rfl,?_,outside⟩
      simp only [set_slot here]

theorem slice_ref_spec (sound : t.Sound) (mem : i ∈ t.texts) (loaded : t.world.heap.mem.load str.ptr str.len = some u)
    (valid : Utf8 u) (agrees : t.Agrees i str) :
    Sat (exec A (.slice_ref i str)) t (fun _ t' => (t.Inside i str ∧ t.Cuts A t' u) ∧ t'.Sound)
      (fun k t' => k = .abort ∧ Crowded t.world.heap ∧ t.Inside i str ∨ k = .panic ∧ t' = t ∧ ¬ t.Inside i str) := by
  simp only [exec,sat_bind,sat_get,sat_check,sat_push,sat_pure]
  refine ⟨fun _ => ?_,fun invalid => absurd (Str.valid_iff.mpr ⟨u,loaded,valid⟩) invalid⟩
  refine sat_call sound ?_ (fun none => absurd mem none)
  intro b v here _ _ _ _
  simp only [ByteStr.slice_ref,sat_bind,ByteStr.sat_inner,sat_pure,Bytes.slice_ref]
  refine (part_spec sound here rfl loaded valid agrees).mono ?_ (fun _ _ => id)
  intro r q cut
  rwa [List.length_set]

theorem from_slice_of_spec (sound : t.Sound) (other : i ∉ t.texts) (here : t.world.slot i = some (.bytes b))
    (loaded : t.world.heap.mem.load str.ptr str.len = some u) (valid : Utf8 u) (agrees : t.Agrees i str) :
    Sat (exec A (.from_slice_of i str)) t (fun _ t' => (t.Inside i str ∧ t.Cuts A t' u) ∧ t'.Sound)
      (fun k t' => k = .abort ∧ Crowded t.world.heap ∧ t.Inside i str ∨ k = .panic ∧ t' = t ∧ ¬ t.Inside i str) := by
  simp only [exec,sat_bind,sat_is_other,sat_get,sat_check,sat_push,sat_pure]
  refine ⟨fun _ => ⟨fun _ => ?_,fun invalid => absurd (Str.valid_iff.mpr ⟨u,loaded,valid⟩) invalid⟩,fun mem => absurd other mem⟩
  refine sat_method ?_ (fun none => absurd ⟨b,here⟩ none)
  intro b' here'
  cases here.symm.trans here'
  simp only [ByteStr.from_slice_of,sat_bind,sat_pure]
  refine (part_spec sound here rfl loaded valid agrees).mono ?_ (fun _ _ => id)
  intro r q cut
  rwa [List.length_set]

/-- How an operation may stop. -/
def Stops (t : Strings) : Stop → Strings → Prop
  | .panic,t' => t'.Sound
  | .abort,_ => Crowded t.world.heap
  | .stuck,_ => True
  | .fault,_ => False
  | .spin,_ => False

/-- The operation keeps the invariant, and does what is undefined nowhere. -/
def Keeps (A : Allocator) (t : Strings) (op : StrOp) : Prop := Sat (exec A op) t (fun _ t' => t'.Sound) t.Stops

theorem stops_of_crowded {k : Stop} (stops : k = .abort ∧ Crowded t.world.heap) : t.Stops k t' := by
  obtain ⟨rfl,crowded⟩ := stops
  exact crowded

theorem stops_of_cut {k : Stop} {inside : Prop} (sound : t.Sound)
    (stops : k = .abort ∧ Crowded t.world.heap ∧ inside ∨ k = .panic ∧ t' = t ∧ ¬ inside) : t.Stops k t' := by
  rcases stops with ⟨rfl,crowded,_⟩ | ⟨rfl,rfl,_⟩
  · exact crowded
  · exact sound

theorem keeps_truncate (sound : t.Sound) : t.Keeps A (.truncate i n) := by
  by_cases mem : i ∈ t.texts
  · obtain ⟨v,_,_,spec⟩ := truncate_spec (A := A) (n := n) sound mem
    refine spec.mono (fun _ _ post => post.2.2) ?_
    rintro k t' (crowded | ⟨rfl,rfl,_⟩)
    · exact stops_of_crowded crowded
    · exact sound
  · simp only [Keeps,exec,sat_bind,call,sat_is_text]
    exact ⟨fun mem' => absurd mem' mem,fun _ => trivial⟩

theorem keeps_slice_ref (sound : t.Sound) (agrees : t.Agrees i str) : t.Keeps A (.slice_ref i str) := by
  by_cases mem : i ∈ t.texts
  · by_cases valid : str.Valid t.world.heap
    · obtain ⟨u,loaded,valid⟩ := Str.valid_iff.mp valid
      exact (slice_ref_spec sound mem loaded valid agrees).mono (fun _ _ post => post.2) (fun _ _ => stops_of_cut sound)
    · simp only [Keeps,exec,sat_bind,sat_get,sat_check]
      exact ⟨fun valid' => absurd valid' valid,fun _ => trivial⟩
  · simp only [Keeps,exec,sat_bind,sat_get,sat_check,call,sat_is_text]
    exact ⟨fun _ => ⟨fun mem' => absurd mem' mem,fun _ => trivial⟩,fun _ => trivial⟩

theorem keeps_from_slice_of (sound : t.Sound) (agrees : t.Agrees i str) : t.Keeps A (.from_slice_of i str) := by
  simp only [Keeps,exec,sat_bind,sat_is_other,sat_get,sat_check,sat_push,sat_pure]
  refine ⟨fun _ => ⟨fun valid => ?_,fun _ => trivial⟩,fun _ => trivial⟩
  obtain ⟨u,loaded,valid⟩ := Str.valid_iff.mp valid
  refine sat_method (fun b here => ?_) (fun _ _ => trivial)
  simp only [ByteStr.from_slice_of,sat_bind,sat_pure]
  refine (part_spec sound here rfl loaded valid agrees).mono ?_ (fun _ _ => stops_of_cut sound)
  intro r q cut
  rw [List.length_set]
  exact cut.2

theorem keeps_clone (sound : t.Sound) : t.Keeps A (.clone i) := by
  simp only [Keeps,exec,sat_bind,sat_push,sat_pure]
  refine sat_call sound ?_ (fun _ _ => trivial)
  intro b v here viewed view valid focused
  refine (ByteStr.clone_spec focused view).mono ?_ (fun _ _ => stops_of_crowded)
  intro c p turns
  rw [List.length_set]
  exact sound.cut here viewed turns valid

theorem keeps_clear (sound : t.Sound) : t.Keeps A (.clear i) := by
  simp only [Keeps,exec,sat_bind,sat_pure]
  refine sat_call sound ?_ (fun _ _ => trivial)
  intro b v here viewed view valid focused
  exact (ByteStr.clear_spec (A := A) focused view).mono (fun _ _ turns => sound.set here turns Utf8.nil) (fun _ _ => False.elim)

theorem keeps_new (sound : t.Sound) : t.Keeps A .new := by
  simp only [Keeps,exec,sat_bind,sat_push,sat_pure]
  exact sound.push (Bytes.new_spec (A := A) sound.world) Utf8.nil

theorem keeps_copy_from_str (sound : t.Sound) : t.Keeps A (.copy_from_str v) := by
  simp only [Keeps,exec,ByteStr.copy_from_str,sat_bind,sat_check,sat_on_heap,sat_push,sat_pure]
  refine ⟨fun valid => ?_,fun _ => trivial⟩
  refine (Bytes.copy_from_slice_spec sound.world).mono (fun _ _ turns => sound.push turns valid) ?_
  rintro _ _ ⟨rfl,_,rfl⟩
  exact sound

/-- A static string becomes a `ByteStr` of its own. -/
theorem Sound.static (A : Allocator) (sound : t.Sound) (static : IsStatic t.world.heap str.ptr str.len) (valid : str.Valid t.world.heap) :
    Sound ⟨⟨t.world.heap,t.world.pool++[some (.bytes (ByteStr.from_static str).bytes)]⟩,t.world.pool.length :: t.texts⟩ := by
  obtain ⟨small,frozen,_⟩ := static
  obtain ⟨e,live,frozen⟩ := (Option.any_eq_true _ _).mp frozen
  obtain ⟨u,loaded,valid⟩ := Str.valid_iff.mp valid
  exact sound.push (Bytes.from_static_spec (A := A) sound.world live frozen small loaded) valid

theorem keeps_from_static (sound : t.Sound) : t.Keeps A (.from_static str) := by
  simp only [Keeps,exec,sat_bind,sat_get,sat_check,sat_push,sat_pure]
  exact ⟨fun both => sound.static A both.1 both.2,fun _ => trivial⟩

theorem keeps_from_boxed_str (sound : t.Sound) : t.Keeps A (.from_boxed_str i) := by
  simp only [Keeps,exec,sat_bind,sat_check,sat_push,sat_pure]
  refine sat_move_string sound ?_ (fun _ => trivial)
  intro vec v here view valid focused others
  refine ⟨fun full => ?_,fun _ => trivial⟩
  rw [List.length_set]
  refine sound.become (Bytes.from_box_spec (A := A) focused view full) fun k mem => ?_
  rcases List.mem_cons.mp mem with rfl | old
  · exact .inr ⟨rfl,⟨_,rfl⟩,valid⟩
  · exact .inl ⟨old,others k old⟩

theorem keeps_from_string (sound : t.Sound) : t.Keeps A (.from_string i) := by
  simp only [Keeps,exec,ByteStr.from_string,sat_bind,sat_on_heap,sat_push,sat_pure]
  refine sat_move_string sound ?_ (fun _ => trivial)
  intro vec v here view valid focused others
  refine (Bytes.from_vec_spec focused view).mono ?_ (fun _ _ => False.elim)
  intro b H' turns
  rw [List.length_set]
  refine sound.become turns fun k mem => ?_
  rcases List.mem_cons.mp mem with rfl | old
  · exact .inr ⟨rfl,⟨_,rfl⟩,valid⟩
  · exact .inl ⟨old,others k old⟩

theorem keeps_from_cow {s : Cow Nat} (sound : t.Sound) : t.Keeps A (.from_cow s) := by
  cases s with
  | Borrowed s =>
    simp only [Keeps,exec,ByteStr.from_cow,sat_bind,sat_get,sat_check,sat_on_heap,sat_push,sat_pure]
    exact ⟨fun both => sound.static A both.1 both.2,fun _ => trivial⟩
  | Owned i => exact keeps_from_string sound

theorem keeps_from_utf8 (sound : t.Sound) : t.Keeps A (.from_utf8 i) := by
  simp only [Keeps,exec,sat_bind,sat_is_other,sat_on_world,sat_on_heap]
  refine ⟨fun other => ?_,fun _ => trivial⟩
  refine sat_move_bytes (fun b here => ?_) (fun _ _ => trivial)
  obtain ⟨v,_,view,focused⟩ := sound.world.focus here
  have turns := Turns.start (A := A) focused view
  have others : ∀ k ∈ t.texts, k ≠ i := fun k mem same => other (same ▸ mem)
  simp only [ByteStr.from_utf8,sat_bind]
  rw [sat_of_ok (show b.as_slice t.world.heap = (.ok v,t.world.heap) from read_ok view)]
  by_cases valid : Utf8 v
  · simp only [Str.from_utf8,if_pos valid,sat_pure,sat_bind,sat_push]
    rw [List.length_set]
    refine sound.become turns fun k mem => ?_
    rcases List.mem_cons.mp mem with rfl | old
    · exact .inr ⟨rfl,⟨_,rfl⟩,valid⟩
    · exact .inl ⟨old,others k old⟩
  · simp only [Str.from_utf8,if_neg valid,sat_pure,sat_bind,sat_on_world,World.push,sat_modify]
    exact sound.become turns fun k mem => .inl ⟨mem,others k mem⟩

/-- What a `ByteStr` is turned into is none. -/
theorem fewer {k : Nat} (mem : k ∈ t.texts.filter (· ≠ i)) : k ∈ t.texts ∧ k ≠ i :=
  (List.mem_filter.mp mem).imp_right of_decide_eq_true

theorem keeps_into_string (sound : t.Sound) : t.Keeps A (.into_string i) := by
  simp only [Keeps,exec,sat_bind,sat_on_heap,sat_on_world,World.push,sat_modify,sat_pure]
  refine sat_move_text sound ?_ (fun _ _ => trivial)
  intro b v here viewed view valid focused
  refine (ByteStr.into_string_spec focused view valid).mono ?_ (fun _ _ => False.elim)
  exact fun vec H' turns => sound.become turns fun k mem => .inl (fewer mem)

theorem keeps_into_bytes (sound : t.Sound) : t.Keeps A (.into_bytes i) := by
  simp only [Keeps,exec,sat_bind,sat_on_world,World.push,sat_modify,sat_pure]
  refine sat_move_text sound ?_ (fun _ _ => trivial)
  intro b v here viewed view valid focused
  exact sound.become (Turns.start (A := A) focused view) fun k mem => .inl (fewer mem)

theorem keeps_drop (sound : t.Sound) : t.Keeps A (.drop i) := by
  simp only [Keeps,exec,sat_bind,sat_on_heap,sat_pure]
  refine sat_move_text sound ?_ (fun _ _ => trivial)
  intro b v here viewed view valid focused
  exact (drop_handle_spec A focused).mono (fun _ _ turns => sound.drop turns) (fun _ _ => False.elim)

/-- The other values are none of the `ByteStr`s, whose slots stay as they are. -/
theorem keeps_other {op : Op} (sound : t.Sound) (joinable : t.world.Joinable op) : t.Keeps A (.other op) := by
  simp only [Keeps,exec,sat_bind,sat_get,sat_check,sat_on_world]
  refine ⟨fun others => ?_,fun _ => trivial⟩
  have apart : ∀ k ∈ t.texts, k ∉ op.operands := fun k mem named => others k named mem
  have stays : ∀ {r : Except Stop Outcome} {w' : World}, World.exec A op t.world = (r,w') → (∀ k, r = .error k → k = .panic) →
      ∀ k ∈ t.texts, w'.pool[k]? = t.world.pool[k]? := by
    intro r w' ran goes k mem
    obtain ⟨b,_,found,_⟩ := sound.text k mem
    have left := exec_leaves (A := A) (h := .bytes b) op (apart k mem) t.world (slot_eq_some.mpr found)
    cases r with
    | ok out =>
      rw [sat_of_ok ran] at left
      exact (slot_eq_some.mp left).trans found.symm
    | error stop =>
      rw [sat_of_error ran] at left
      exact (slot_eq_some.mp (left (goes stop rfl))).trans found.symm
  have refines := exec_refines A sound.world op joinable
  refine sat_of_run ?_ ?_
  · intro out w' ran
    rw [Refines,sat_of_ok ran] at refines
    obtain ⟨after,settles,effect⟩ := refines
    refine ⟨settles.sound,fun k mem => ?_⟩
    obtain ⟨b,v,found,viewed,valid⟩ := sound.text k mem
    exact ⟨b,v,(stays ran (fun _ bad => by cases bad) k mem).trans found,settles.views ▸ effect_leaves effect viewed (apart k mem),valid⟩
  · intro stop w' ran
    rw [Refines,sat_of_error ran] at refines
    cases stop with
    | panic =>
      obtain ⟨settles,_⟩ := refines
      refine ⟨settles.sound,fun k mem => ?_⟩
      obtain ⟨b,v,found,viewed,valid⟩ := sound.text k mem
      refine ⟨b,v,(stays ran ?_ k mem).trans found,settles.views ▸ unwound_leaves viewed (apart k mem),valid⟩
      rintro _ ⟨⟩
      rfl
    | abort => exact refines
    | stuck => trivial
    | fault => exact refines
    | spin => exact refines

/-- Every operation keeps the invariant. -/
theorem exec_keeps (A : Allocator) (sound : t.Sound) (op : StrOp) (allowed : t.Allowed op) : t.Keeps A op := by
  cases op with
  | new => exact keeps_new sound
  | from_utf8 i => exact keeps_from_utf8 sound
  | from_slice_of i str => exact keeps_from_slice_of sound allowed
  | copy_from_str v => exact keeps_copy_from_str sound
  | from_static str => exact keeps_from_static sound
  | from_boxed_str i => exact keeps_from_boxed_str sound
  | from_string i => exact keeps_from_string sound
  | from_cow s => exact keeps_from_cow sound
  | clone i => exact keeps_clone sound
  | truncate i n => exact keeps_truncate sound
  | clear i => exact keeps_clear sound
  | slice_ref i str => exact keeps_slice_ref sound allowed
  | into_string i => exact keeps_into_string sound
  | into_bytes i => exact keeps_into_bytes sound
  | drop i => exact keeps_drop sound
  | other op => exact keeps_other sound allowed

end Strings
end Tcio
