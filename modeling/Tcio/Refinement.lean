import Tcio.PoolSpec

/-!
Every operation refines what it means for the views. The operations fall into a few
kinds: those that change their operand, those that cut a new handle off it, those that
turn it into another type, and those that make a new handle.
-/
namespace Tcio
open Exec

namespace World
variable {A : Allocator} {w w' : World} {H H' : Heap} {h : Handle} {R : List Handle} {i j : Nat} {op : Op}
variable {v u : List UInt8}

-- what an operation runs and what it means are unfolded side by side
attribute [local simp] exec Refines Callable Refused

/-! ### Slots -/

theorem len_of_slot (here : w.slot i = some h) : w.len i = h.len := by simp [len,here]
theorem room_of_slot (here : w.slot i = some h) : w.room i = h.room := by simp [room,here]
theorem addr_of_slot (here : w.slot i = some h) : w.addr i = h.ptr.addr := by simp [addr,here]

theorem sat_handle {Q : Handle → World → Prop} {E : Stop → World → Prop} :
    Sat (handle i) w Q E ↔ (∀ h, w.slot i = some h → Q h w) ∧ (w.slot i = none → E .stuck w) := by
  simp [handle]

/-- How the call of a method on a slot may stop. -/
def Ends {S : Type} (A : Allocator) (w : World) (op : Op) (i : Nat) (inj : S → Handle) (v : List UInt8) :
    Stop → Heap × S → Prop
  | .panic,p => w.Refused op ∧ Turns A w.heap (w.rest i) p.1 [] [(inj p.2,v)]
  | .abort,_ => Crowded w.heap
  | .stuck,_ => ¬ w.Callable op
  | .fault,_ => False
  | .spin,_ => False

/-- What a method does to the handle in a slot, beside the others. -/
def Does {S α : Type} (A : Allocator) (w : World) (op : Op) (i : Nat) (inj : S → Handle) (x : Method S α)
    (Q : List UInt8 → α → Heap × S → Prop) : Prop :=
  ∀ s v, w.slot i = some (inj s) → (inj s).view w.heap = some v → Tcio.Sound w.heap [] (inj s :: w.rest i) →
    Sat x (w.heap,s) (Q v) (Ends A w op i inj v)

theorem does_missing {S α : Type} {inj : S → Handle} {Q : List UInt8 → α → Heap × S → Prop}
    (wrong : ∀ s, w.slot i = some (inj s) → ¬ w.Callable op) : Does A w op i inj missing Q :=
  fun s _ here _ _ => wrong s here

theorem stops_of_ends {S : Type} {inj : S → Handle} {s : S} {k : Stop} {p : Heap × S} (here : w.slot i = some (inj s))
    (viewed : w.views[i]? = some (some v)) (unwinds : w.unwound op = w.views) (ends : Ends A w op i inj v k p) :
    w.Stops A op k ⟨p.1,w.pool.set i (some (inj p.2))⟩ := by
  cases k with
  | panic =>
    have settled := settle_set here ends.2
    rw [set_view viewed,← unwinds] at settled
    exact ⟨settled,ends.1⟩
  | abort => exact ends
  | stuck => exact ends
  | fault => exact ends
  | spin => exact ends

/-- A call on a slot, by the type that is in it. -/
theorem call_spec {α : Type} {x : Method Bytes α} {y : Method BytesMut α} {Q : α → World → Prop} (sound : w.Sound)
    (unwinds : w.unwound op = w.views)
    (bytes : Does A w op i .bytes x fun v a p => ∀ b, w.slot i = some (.bytes b) → w.views[i]? = some (some v) →
      Q a ⟨p.1,w.pool.set i (some (.bytes p.2))⟩)
    (bytesMut : Does A w op i .bytesMut y fun v a p => ∀ m, w.slot i = some (.bytesMut m) → w.views[i]? = some (some v) →
      Q a ⟨p.1,w.pool.set i (some (.bytesMut p.2))⟩)
    (other : ¬ w.HasBytes i → ¬ w.HasBytesMut i → ¬ w.Callable op) : Sat (call i x y) w Q (w.Stops A op) := by
  simp only [call,sat_bind,sat_handle]
  refine ⟨fun h here => ?_,fun none => other (by simp [HasBytes,none]) (by simp [HasBytesMut,none])⟩
  obtain ⟨v,viewed,view,focused⟩ := sound.focus here
  cases h with
  | bytes b =>
    simp only [method,sat_zoom]
    exact (bytes b v here view focused).mono (fun _ _ post => post b here viewed)
      (fun _ _ ends => stops_of_ends here viewed unwinds ends)
  | bytesMut m =>
    simp only [method,sat_zoom]
    exact (bytesMut m v here view focused).mono (fun _ _ post => post m here viewed)
      (fun _ _ ends => stops_of_ends here viewed unwinds ends)
  | vec v => exact other (by simp [HasBytes,here]) (by simp [HasBytesMut,here])

/-! ### Operations that change their operand -/

/-- The operand views `f` of what it viewed. -/
theorem call_acts {α : Type} {x : Method Bytes α} {y : Method BytesMut α} {f : List UInt8 → List UInt8} {P : α → Prop}
    (sound : w.Sound) (unwinds : w.unwound op = w.views)
    (bytes : Does A w op i .bytes x fun v a p => P a ∧ Turns A w.heap (w.rest i) p.1 [] [(.bytes p.2,f v)])
    (bytesMut : Does A w op i .bytesMut y fun v a p => P a ∧ Turns A w.heap (w.rest i) p.1 [] [(.bytesMut p.2,f v)])
    (other : ¬ w.HasBytes i → ¬ w.HasBytesMut i → ¬ w.Callable op) :
    Sat (call i x y) w (fun a w' => P a ∧ ∃ after, Settles A w w' after ∧ w.Acts i f after) (w.Stops A op) := by
  refine call_spec sound unwinds ?_ ?_ other
  · intro b v here view focused
    refine (bytes b v here view focused).mono ?_ (fun _ _ => id)
    exact fun a p ⟨holds,turns⟩ _ _ viewed => ⟨holds,_,settle_set here turns,v,viewed,rfl⟩
  · intro m v here view focused
    refine (bytesMut m v here view focused).mono ?_ (fun _ _ => id)
    exact fun a p ⟨holds,turns⟩ _ _ viewed => ⟨holds,_,settle_set here turns,v,viewed,rfl⟩

theorem both_or {i : Nat} (bytes : ¬ w.HasBytes i) (bytesMut : ¬ w.HasBytesMut i) : ¬ (w.HasBytes i ∨ w.HasBytesMut i) :=
  fun either => either.elim bytes bytesMut

theorem refines_advance {n : Nat} (sound : w.Sound) : w.Refines A (.advance i n) := by
  simp only [Refines,exec,sat_bind,sat_pure]
  refine (call_acts (f := fun v => v.drop n) (P := fun _ => n ≤ w.len i) sound rfl ?_ ?_ both_or).mono ?_ (fun _ _ => id)
  · intro b v here view focused
    rw [len_of_slot here]
    refine (Bytes.advance_spec focused view).mono (fun _ _ post => post) ?_
    rintro _ _ ⟨rfl,large,rfl⟩
    exact ⟨by rw [Refused,len_of_slot here]; exact large,.start focused view⟩
  · intro m v here view focused
    rw [len_of_slot here]
    refine (BytesMut.advance_spec focused view).mono (fun _ _ post => post) ?_
    rintro _ _ ⟨rfl,large,rfl⟩
    exact ⟨by rw [Refused,len_of_slot here]; exact large,.start focused view⟩
  · rintro _ w' ⟨small,after,settles,acts⟩
    exact ⟨after,settles,rfl,small,acts⟩

theorem refines_truncate {n : Nat} (sound : w.Sound) : w.Refines A (.truncate i n) := by
  simp only [Refines,exec,sat_bind,sat_pure]
  refine (call_acts (f := fun v => v.take n) (P := fun _ => True) sound rfl ?_ ?_ both_or).mono ?_ (fun _ _ => id)
  · intro b v here view focused
    refine (Bytes.truncate_spec focused view).mono (fun _ _ turns => ⟨trivial,turns⟩) ?_
    rintro _ _ ⟨rfl,crowded⟩
    exact crowded
  · intro m v here view focused
    exact (BytesMut.truncate_spec focused view).mono (fun _ _ turns => ⟨trivial,turns⟩) (fun _ _ => False.elim)
  · rintro _ w' ⟨_,after,settles,acts⟩
    exact ⟨after,settles,rfl,acts⟩

theorem refines_truncate_off {n : Nat} (sound : w.Sound) : w.Refines A (.truncate_off i n) := by
  simp only [Refines,exec,sat_bind,sat_pure]
  refine (call_acts (f := fun v => if n ≤ v.length then v.take (v.length-n) else v) (P := fun _ => True) sound rfl
    ?_ ?_ both_or).mono ?_ (fun _ _ => id)
  · intro b v here view focused
    refine (Bytes.truncate_off_spec focused view).mono (fun _ _ turns => ⟨trivial,turns⟩) ?_
    rintro _ _ ⟨rfl,crowded⟩
    exact crowded
  · intro m v here view focused
    exact (BytesMut.truncate_off_spec focused view).mono (fun _ _ turns => ⟨trivial,turns⟩) (fun _ _ => False.elim)
  · rintro _ w' ⟨_,after,settles,acts⟩
    exact ⟨after,settles,rfl,acts⟩

theorem refines_clear (sound : w.Sound) : w.Refines A (.clear i) := by
  simp only [Refines,exec,sat_bind,sat_pure]
  refine (call_acts (f := fun _ => []) (P := fun _ => True) sound rfl ?_ ?_ both_or).mono ?_ (fun _ _ => id)
  · intro b v here view focused
    exact (Bytes.clear_spec focused view).mono (fun _ _ turns => ⟨trivial,turns⟩) (fun _ _ => False.elim)
  · intro m v here view focused
    exact (BytesMut.clear_spec focused view).mono (fun _ _ turns => ⟨trivial,turns⟩) (fun _ _ => False.elim)
  · rintro _ w' ⟨_,after,settles,acts⟩
    exact ⟨after,settles,rfl,acts⟩

theorem refines_extend_from_slice (sound : w.Sound) : w.Refines A (.extend_from_slice i u) := by
  simp only [Refines,exec,sat_bind,sat_pure,sat_check]
  refine ⟨fun small => ?_,fun large callable => large callable.2⟩
  refine (call_acts (f := fun v => v++u) (P := fun _ => True) sound rfl ?_ ?_ ?_).mono ?_ (fun _ _ => id)
  · exact does_missing fun b here callable => by simp [HasBytesMut,Callable,here] at callable
  · intro m v here view focused
    refine (BytesMut.extend_from_slice_spec focused view small).mono (fun _ _ post => ⟨trivial,post.1⟩) ?_
    rintro _ p ⟨rfl,turns,_,why⟩
    exact ⟨⟨m,here,why⟩,turns⟩
  · exact fun _ none callable => none callable.1
  · rintro _ w' ⟨_,after,settles,acts⟩
    exact ⟨after,settles,rfl,acts⟩

theorem refines_as_mut_slice {at_ : Nat} (sound : w.Sound) : w.Refines A (.as_mut_slice i at_ u) := by
  simp only [Refines,exec,sat_bind,sat_pure]
  refine (call_acts (f := fun v => v.take at_++u++v.drop (at_+u.length)) (P := fun _ => at_+u.length ≤ w.len i) sound rfl
    ?_ ?_ ?_).mono ?_ (fun _ _ => id)
  · exact does_missing fun b here callable => by simp [HasBytesMut,Callable,here] at callable
  · intro m v here view focused
    have length : v.length = w.len i := by rw [len_of_slot here,← length_of_view view]
    simp only [sat_bind,Method.sat_self,sat_onFst]
    refine (BytesMut.as_mut_slice_spec A focused view).mono ?_ ?_
    · rintro _ H' ⟨inside,turns⟩
      exact ⟨length ▸ inside,turns⟩
    · rintro _ _ ⟨rfl,outside,rfl⟩
      exact ⟨by rw [Refused,← length]; exact outside,.start focused view⟩
  · exact fun _ none callable => none callable
  · rintro _ w' ⟨inside,after,settles,acts⟩
    exact ⟨after,settles,rfl,inside,acts⟩

theorem refines_reserve {n : Nat} (sound : w.Sound) : w.Refines A (.reserve i n) := by
  simp only [Refines,exec,sat_bind,sat_pure]
  refine (call_acts (f := id) (P := fun _ => True) sound rfl ?_ ?_ ?_).mono ?_ (fun _ _ => id)
  · exact does_missing fun b here callable => by simp [HasBytesMut,Callable,here] at callable
  · intro m v here view focused
    refine (BytesMut.reserve_spec focused view).mono (fun _ _ post => ⟨trivial,post.1⟩) ?_
    rintro _ p ⟨rfl,turns,_,why⟩
    exact ⟨⟨m,here,why⟩,turns⟩
  · exact fun _ none callable => none callable
  · rintro _ w' ⟨_,after,settles,acts⟩
    exact ⟨after,settles,rfl,acts⟩

theorem refines_try_reclaim {n : Nat} (sound : w.Sound) : w.Refines A (.try_reclaim i n) := by
  simp only [Refines,exec,sat_bind,sat_pure]
  refine (call_acts (f := id) (P := fun _ => True) sound rfl ?_ ?_ ?_).mono ?_ (fun _ _ => id)
  · exact does_missing fun b here callable => by simp [HasBytesMut,Callable,here] at callable
  · intro m v here view focused
    refine (BytesMut.try_reclaim_spec focused view).mono (fun _ _ post => ⟨trivial,post.1⟩) ?_
    rintro _ p ⟨rfl,turns,_,why⟩
    exact ⟨⟨m,here,why⟩,turns⟩
  · exact fun _ none callable => none callable
  · rintro ok w' ⟨_,after,settles,acts⟩
    exact ⟨after,settles,⟨ok,rfl⟩,acts⟩

theorem refines_try_reclaim_full (sound : w.Sound) : w.Refines A (.try_reclaim_full i) := by
  simp only [Refines,exec,sat_bind,sat_pure]
  refine (call_acts (f := id) (P := fun _ => True) sound rfl ?_ ?_ ?_).mono ?_ (fun _ _ => id)
  · exact does_missing fun b here callable => by simp [HasBytesMut,Callable,here] at callable
  · intro m v here view focused
    refine (BytesMut.try_reclaim_full_spec focused view).mono (fun _ _ post => ⟨trivial,post.1⟩) ?_
    rintro _ p ⟨rfl,turns,_,why⟩
    exact ⟨⟨m,here,why⟩,turns⟩
  · exact fun _ none callable => none callable
  · rintro ok w' ⟨_,after,settles,acts⟩
    exact ⟨after,settles,⟨ok,rfl⟩,acts⟩

/-! ### Operations that cut off a new handle -/

/-- The operand keeps one part of its view and the handle that is returned views another. -/
theorem call_cuts {x : Method Bytes Handle} {y : Method BytesMut Handle} (keep out : List UInt8 → List UInt8) {P : Prop}
    (sound : w.Sound) (unwinds : w.unwound op = w.views)
    (bytes : Does A w op i .bytes x fun v r p => P ∧ Turns A w.heap (w.rest i) p.1 [] [(.bytes p.2,keep v),(r,out v)])
    (bytesMut : Does A w op i .bytesMut y fun v r p =>
      P ∧ Turns A w.heap (w.rest i) p.1 [] [(.bytesMut p.2,keep v),(r,out v)])
    (other : ¬ w.HasBytes i → ¬ w.HasBytesMut i → ¬ w.Callable op) :
    Sat (do push (← call i x y); return Outcome.done) w
      (fun o w' => ∃ after, Settles A w w' after ∧ o = .done ∧ P ∧ w.Cuts i keep out after) (w.Stops A op) := by
  simp only [sat_bind,sat_pure,push,sat_modify]
  refine call_spec sound unwinds ?_ ?_ other
  · intro b v here view focused
    refine (bytes b v here view focused).mono ?_ (fun _ _ => id)
    exact fun r p post _ _ viewed => ⟨_,settle_cut here post.2,trivial,post.1,v,viewed,rfl⟩
  · intro m v here view focused
    refine (bytesMut m v here view focused).mono ?_ (fun _ _ => id)
    exact fun r p post _ _ viewed => ⟨_,settle_cut here post.2,trivial,post.1,v,viewed,rfl⟩

theorem refines_clone (sound : w.Sound) : w.Refines A (.clone i) := by
  refine (call_cuts id id (P := True) sound rfl ?_ ?_ both_or).mono ?_ (fun _ _ => id)
  · intro b v here view focused
    simp only [sat_map]
    refine (Bytes.clone_spec focused view).mono (fun _ _ turns => ⟨trivial,turns⟩) ?_
    rintro _ _ ⟨rfl,crowded⟩
    exact crowded
  · intro m v here view focused
    simp only [sat_bind,Method.sat_self,sat_onFst,sat_pure]
    refine (BytesMut.clone_spec focused view).mono (fun _ _ turns => ⟨trivial,turns.swap⟩) (fun _ _ => False.elim)
  · rintro _ _ ⟨after,settles,done,_,cuts⟩
    exact ⟨after,settles,done,cuts⟩

theorem refines_slice {lo hi : Bound} (sound : w.Sound) : w.Refines A (.slice i lo hi) := by
  refine call_cuts id (fun v => (v.drop (Bytes.first lo)).take (Bytes.last (w.len i) hi-Bytes.first lo)) sound rfl ?_ ?_ ?_
  · intro b v here view focused
    have length : v.length = w.len i := by rw [len_of_slot here,← length_of_view view]
    simp only [sat_map,← length]
    refine (Bytes.slice_spec focused view).mono (fun _ _ post => ⟨post.1,post.2.2⟩) ?_
    rintro _ _ (⟨rfl,crowded,_⟩ | ⟨rfl,rfl,outside⟩)
    · exact crowded
    · exact ⟨by rw [Refused,← length]; exact outside,.start focused view⟩
  · exact does_missing fun m here callable => by simp [HasBytes,Callable,here] at callable
  · exact fun none _ callable => none callable

theorem refines_slice_from_raw {a n : Nat} (sound : w.Sound) : w.Refines A (.slice_from_raw i a n) := by
  refine call_cuts id (fun v => (v.drop (a-w.addr i)).take n) sound rfl ?_ ?_ ?_
  · intro b v here view focused
    have length : v.length = w.len i := by rw [len_of_slot here,← length_of_view view]
    rw [addr_of_slot here]
    simp only [sat_map,← length]
    refine (Bytes.slice_from_raw_spec focused view).mono (fun _ _ post => ⟨post.1.2,post.2.2⟩) ?_
    rintro _ _ (⟨rfl,crowded,_⟩ | ⟨rfl,rfl,outside⟩)
    · exact crowded
    · exact ⟨by rw [Refused,← length,addr_of_slot here]; exact outside,.start focused view⟩
  · exact does_missing fun m here callable => by simp [HasBytes,Callable,here] at callable
  · exact fun none _ callable => none callable

theorem refines_split (sound : w.Sound) : w.Refines A (.split i) := by
  refine (call_cuts (fun _ => []) id (P := True) sound rfl ?_ ?_ ?_).mono ?_ (fun _ _ => id)
  · exact does_missing fun b here callable => by simp [HasBytesMut,Callable,here] at callable
  · intro m v here view focused
    simp only [sat_map]
    refine (BytesMut.split_spec focused view).mono (fun _ _ turns => ⟨trivial,turns⟩) ?_
    rintro _ _ ⟨rfl,crowded⟩
    exact crowded
  · exact fun _ none callable => none callable
  · rintro _ _ ⟨after,settles,done,_,cuts⟩
    exact ⟨after,settles,done,cuts⟩

theorem refines_split_to {at_ : Nat} (sound : w.Sound) : w.Refines A (.split_to i at_) := by
  refine call_cuts (fun v => v.drop at_) (fun v => v.take at_) sound rfl ?_ ?_ both_or
  · intro b v here view focused
    rw [len_of_slot here]
    simp only [sat_map]
    refine (Bytes.split_to_spec focused view).mono (fun _ _ post => post) ?_
    rintro _ _ (⟨rfl,crowded⟩ | ⟨rfl,large,rfl⟩)
    · exact crowded
    · exact ⟨by rw [Refused,len_of_slot here]; exact large,.start focused view⟩
  · intro m v here view focused
    rw [len_of_slot here]
    simp only [sat_map]
    refine (BytesMut.split_to_spec focused view).mono (fun _ _ post => ⟨post.1,post.2.2.2⟩) ?_
    rintro _ _ (⟨rfl,crowded⟩ | ⟨rfl,large,rfl⟩)
    · exact crowded
    · exact ⟨by rw [Refused,len_of_slot here]; exact large,.start focused view⟩

theorem refines_split_off {at_ : Nat} (sound : w.Sound) : w.Refines A (.split_off i at_) := by
  refine call_cuts (fun v => v.take at_) (fun v => v.drop at_) sound rfl ?_ ?_ both_or
  · intro b v here view focused
    rw [room_of_slot here]
    simp only [sat_map]
    refine (Bytes.split_off_spec focused view).mono (fun _ _ post => post) ?_
    rintro _ _ (⟨rfl,crowded⟩ | ⟨rfl,large,rfl⟩)
    · exact crowded
    · exact ⟨by rw [Refused,room_of_slot here]; exact large,.start focused view⟩
  · intro m v here view focused
    rw [room_of_slot here]
    simp only [sat_map]
    refine (BytesMut.split_off_spec focused view).mono (fun _ _ post => ⟨post.1,post.2.2.2⟩) ?_
    rintro _ _ (⟨rfl,crowded⟩ | ⟨rfl,large,rfl⟩)
    · exact crowded
    · exact ⟨by rw [Refused,room_of_slot here]; exact large,.start focused view⟩

theorem refines_split_to_ptr {a : Nat} (sound : w.Sound) : w.Refines A (.split_to_ptr i a) := by
  refine call_cuts (fun v => v.drop (a-w.addr i)) (fun v => v.take (a-w.addr i)) sound rfl ?_ ?_ ?_
  · exact does_missing fun b here callable => by simp [HasBytesMut,Callable,here] at callable
  · intro m v here view focused
    rw [len_of_slot here,addr_of_slot here]
    simp only [sat_map,BytesMut.split_to_ptr,sat_bind,Method.sat_self,sat_check]
    refine ⟨fun low => ?_,fun below => ?_⟩
    · refine (BytesMut.split_to_spec focused view).mono (fun _ _ post => ⟨⟨low,post.1⟩,post.2.2.2⟩) ?_
      rintro _ _ (⟨rfl,crowded⟩ | ⟨rfl,large,rfl⟩)
      · exact crowded
      · exact ⟨by rw [Refused,len_of_slot here,addr_of_slot here]; exact .inr large,.start focused view⟩
    · exact ⟨by rw [Refused,addr_of_slot here]; exact .inl (Nat.lt_of_not_le below),.start focused view⟩
  · exact fun _ none callable => none callable

theorem refines_split_off_ptr {a : Nat} (sound : w.Sound) : w.Refines A (.split_off_ptr i a) := by
  refine call_cuts (fun v => v.take (a-w.addr i)) (fun v => v.drop (a-w.addr i)) sound rfl ?_ ?_ ?_
  · exact does_missing fun b here callable => by simp [HasBytesMut,Callable,here] at callable
  · intro m v here view focused
    rw [room_of_slot here,addr_of_slot here]
    simp only [sat_map,BytesMut.split_off_ptr,sat_bind,Method.sat_self,sat_check]
    refine ⟨fun low => ?_,fun below => ?_⟩
    · refine (BytesMut.split_off_spec focused view).mono (fun _ _ post => ⟨⟨low,post.1⟩,post.2.2.2⟩) ?_
      rintro _ _ (⟨rfl,crowded⟩ | ⟨rfl,large,rfl⟩)
      · exact crowded
      · exact ⟨by rw [Refused,room_of_slot here,addr_of_slot here]; exact .inr large,.start focused view⟩
    · exact ⟨by rw [Refused,addr_of_slot here]; exact .inl (Nat.lt_of_not_le below),.start focused view⟩
  · exact fun _ none callable => none callable

/-- As `call_cuts`, for a method that may refuse and then changes nothing. -/
theorem call_tries {x : Method Bytes (Option Handle)} {y : Method BytesMut (Option Handle)}
    (keep out : List UInt8 → List UInt8) {P : Prop} [Decidable P] (sound : w.Sound) (unwinds : w.unwound op = w.views)
    (bytes : Does A w op i .bytes x fun v o p => match o with
      | some r => P ∧ Turns A w.heap (w.rest i) p.1 [] [(.bytes p.2,keep v),(r,out v)]
      | none => ¬ P ∧ Turns A w.heap (w.rest i) p.1 [] [(.bytes p.2,v)])
    (bytesMut : Does A w op i .bytesMut y fun v o p => match o with
      | some r => P ∧ Turns A w.heap (w.rest i) p.1 [] [(.bytesMut p.2,keep v),(r,out v)]
      | none => ¬ P ∧ Turns A w.heap (w.rest i) p.1 [] [(.bytesMut p.2,v)])
    (other : ¬ w.HasBytes i → ¬ w.HasBytesMut i → ¬ w.Callable op) :
    Sat (do push_some (← call i x y)) w
      (fun o w' => ∃ after, Settles A w w' after ∧
        if P then o = .done ∧ w.Cuts i keep out after else o = .refused ∧ after = w.views) (w.Stops A op) := by
  simp only [sat_bind]
  refine call_spec sound unwinds ?_ ?_ other
  · intro b v here view focused
    refine (bytes b v here view focused).mono ?_ (fun _ _ => id)
    rintro (_ | r) p ⟨holds,turns⟩ _ _ viewed
    · exact ⟨_,settle_set here turns,by rw [if_neg holds]; exact ⟨rfl,set_view viewed⟩⟩
    · exact ⟨_,settle_cut here turns,by rw [if_pos holds]; exact ⟨rfl,v,viewed,rfl⟩⟩
  · intro m v here view focused
    refine (bytesMut m v here view focused).mono ?_ (fun _ _ => id)
    rintro (_ | r) p ⟨holds,turns⟩ _ _ viewed
    · exact ⟨_,settle_set here turns,by rw [if_neg holds]; exact ⟨rfl,set_view viewed⟩⟩
    · exact ⟨_,settle_cut here turns,by rw [if_pos holds]; exact ⟨rfl,v,viewed,rfl⟩⟩

theorem refines_try_split_to {at_ : Nat} (sound : w.Sound) : w.Refines A (.try_split_to i at_) := by
  refine call_tries (fun v => v.drop at_) (fun v => v.take at_) sound rfl ?_ ?_ both_or
  · intro b v here view focused
    rw [len_of_slot here]
    simp only [sat_map]
    refine (Bytes.try_split_to_spec focused view).mono ?_ ?_
    · rintro (_ | front) p post
      · obtain ⟨large,rfl⟩ := post
        exact ⟨Nat.not_le_of_lt large,.start focused view⟩
      · exact post
    · rintro _ _ ⟨rfl,crowded⟩
      exact crowded
  · intro m v here view focused
    rw [len_of_slot here]
    simp only [sat_map]
    refine (BytesMut.try_split_to_spec focused view).mono ?_ ?_
    · rintro (_ | front) p post
      · obtain ⟨large,rfl⟩ := post
        exact ⟨Nat.not_le_of_lt large,.start focused view⟩
      · exact ⟨post.1,post.2.2.2⟩
    · rintro _ _ ⟨rfl,crowded⟩
      exact crowded

theorem refines_try_split_off {at_ : Nat} (sound : w.Sound) : w.Refines A (.try_split_off i at_) := by
  refine call_tries (fun v => v.take at_) (fun v => v.drop at_) sound rfl ?_ ?_ both_or
  · intro b v here view focused
    rw [room_of_slot here]
    simp only [sat_map]
    refine (Bytes.try_split_off_spec focused view).mono ?_ ?_
    · rintro (_ | back) p post
      · obtain ⟨large,rfl⟩ := post
        exact ⟨Nat.not_le_of_lt large,.start focused view⟩
      · exact post
    · rintro _ _ ⟨rfl,crowded⟩
      exact crowded
  · intro m v here view focused
    rw [room_of_slot here]
    simp only [sat_map]
    refine (BytesMut.try_split_off_spec focused view).mono ?_ ?_
    · rintro (_ | back) p post
      · obtain ⟨large,rfl⟩ := post
        exact ⟨Nat.not_le_of_lt large,.start focused view⟩
      · exact ⟨post.1,post.2.2.2⟩
    · rintro _ _ ⟨rfl,crowded⟩
      exact crowded

/-! ### Operations that move their operand -/

theorem sat_move {Q : Handle → World → Prop} {E : Stop → World → Prop} :
    Sat (move i) w Q E ↔
      (∀ h, w.slot i = some h → Q h { w with pool := w.pool.set i none }) ∧ (w.slot i = none → E .stuck w) := by
  simp [move,sat_handle,store]

theorem sat_move_vec {Q : Vec → World → Prop} {E : Stop → World → Prop}
    (vec : ∀ x, w.slot i = some (.vec x) → Q x { w with pool := w.pool.set i none })
    (other : ¬ w.HasVec i → ∀ t, E .stuck t) : Sat (move_vec i) w Q E := by
  simp only [move_vec,sat_bind,sat_move]
  refine ⟨fun h here => ?_,fun none => other (by simp [HasVec,none]) _⟩
  cases h with
  | vec x => exact vec x here
  | bytes b => exact other (by simp [HasVec,here]) _
  | bytesMut m => exact other (by simp [HasVec,here]) _

theorem sat_move_bytes {Q : Bytes → World → Prop} {E : Stop → World → Prop}
    (bytes : ∀ x, w.slot i = some (.bytes x) → Q x { w with pool := w.pool.set i none })
    (other : ¬ w.HasBytes i → ∀ t, E .stuck t) : Sat (move_bytes i) w Q E := by
  simp only [move_bytes,sat_bind,sat_move]
  refine ⟨fun h here => ?_,fun none => other (by simp [HasBytes,none]) _⟩
  cases h with
  | bytes b => exact bytes b here
  | vec x => exact other (by simp [HasBytes,here]) _
  | bytesMut m => exact other (by simp [HasBytes,here]) _

theorem sat_move_bytes_mut {Q : BytesMut → World → Prop} {E : Stop → World → Prop}
    (bytesMut : ∀ x, w.slot i = some (.bytesMut x) → Q x { w with pool := w.pool.set i none })
    (other : ¬ w.HasBytesMut i → ∀ t, E .stuck t) : Sat (move_bytes_mut i) w Q E := by
  simp only [move_bytes_mut,sat_bind,sat_move]
  refine ⟨fun h here => ?_,fun none => other (by simp [HasBytesMut,none]) _⟩
  cases h with
  | bytesMut m => exact bytesMut m here
  | vec x => exact other (by simp [HasBytesMut,here]) _
  | bytes b => exact other (by simp [HasBytesMut,here]) _

/-- The value comes out of its slot as another, with the view it had. -/
theorem becomes {α : Type} {inj : α → Handle} {x : Exec Heap α} (sound : w.Sound) (here : w.slot i = some h)
    (turns : ∀ v, h.view w.heap = some v → Tcio.Sound w.heap [] (h :: w.rest i) →
      Sat x w.heap (fun a H' => Turns A w.heap (w.rest i) H' [] [(inj a,v)]) (fun _ _ => False))
    {E : Stop → Heap → Prop} :
    Sat x w.heap (fun a H' => ∃ after, Settles A w ⟨H',w.pool.set i none++[some (inj a)]⟩ after ∧
      Outcome.done = .done ∧ w.Becomes i after) E := by
  obtain ⟨v,viewed,view,focused⟩ := sound.focus here
  refine (turns v view focused).mono ?_ (fun _ _ => False.elim)
  exact fun a H' turned => ⟨_,settle_move turned,rfl,v,viewed,rfl⟩

theorem refines_bytes_from_vec (sound : w.Sound) : w.Refines A (.bytes_from_vec i) := by
  simp only [Refines,exec,sat_bind,sat_pure,onHeap,sat_zoom,push,sat_modify]
  refine sat_move_vec (fun vec here => ?_) (fun none _ callable => none callable)
  exact becomes sound here fun v view focused => Bytes.from_vec_spec focused view

theorem refines_bytes_from_box (sound : w.Sound) : w.Refines A (.bytes_from_box i) := by
  simp only [Refines,exec,sat_bind,sat_pure,push,sat_modify,sat_check]
  refine sat_move_vec (fun vec here => ⟨fun full => ?_,fun spare callable => ?_⟩) (fun none _ callable => ?_)
  · obtain ⟨v,viewed,view,focused⟩ := sound.focus here
    exact ⟨_,settle_move (Bytes.from_box_spec focused view full),rfl,v,viewed,rfl⟩
  · obtain ⟨vec',here',full⟩ := callable
    cases here.symm.trans here'
    exact spare full
  · obtain ⟨vec,here,_⟩ := callable
    exact none ⟨vec,here⟩

theorem refines_bytes_mut_from_vec (sound : w.Sound) : w.Refines A (.bytes_mut_from_vec i) := by
  simp only [Refines,exec,sat_bind,sat_pure,push,sat_modify]
  refine sat_move_vec (fun vec here => ?_) (fun none _ callable => none callable)
  obtain ⟨v,viewed,view,focused⟩ := sound.focus here
  exact ⟨_,settle_move (BytesMut.from_vec_spec focused view),rfl,v,viewed,rfl⟩

theorem refines_freeze (sound : w.Sound) : w.Refines A (.freeze i) := by
  simp only [Refines,exec,sat_bind,sat_pure,onHeap,sat_zoom,push,sat_modify]
  refine sat_move_bytes_mut (fun m here => ?_) (fun none _ callable => none callable)
  exact becomes sound here fun v view focused => BytesMut.freeze_spec focused view

theorem refines_into_mut (sound : w.Sound) : w.Refines A (.into_mut i) := by
  simp only [Refines,exec,sat_bind,sat_pure,onHeap,sat_zoom,push,sat_modify]
  refine sat_move_bytes (fun b here => ?_) (fun none _ callable => none callable)
  exact becomes sound here fun v view focused => Bytes.into_mut_spec focused view

theorem refines_into_vec (sound : w.Sound) : w.Refines A (.into_vec i) := by
  simp only [Refines,exec,sat_bind,sat_pure,onHeap,sat_zoom,push,sat_modify]
  refine sat_move_bytes (fun b here => ?_) (fun none _ callable => none callable)
  exact becomes sound here fun v view focused => Bytes.into_vec_spec focused view

theorem drop_handle_spec {P : List Handle} (A : Allocator) (sound : Tcio.Sound H [] (h :: P)) :
    Sat (drop_handle h) H (fun _ H' => Turns A H P H' [] []) (fun _ _ => False) := by
  obtain ⟨free,placed,_⟩ := sound_cons.mp sound
  cases h with
  | bytes b => exact (Bytes.drop_spec A free placed).mono (fun _ _ => .of_goes) (fun _ _ => id)
  | bytesMut m => exact (BytesMut.drop_spec A free placed).mono (fun _ _ => .of_goes) (fun _ _ => id)
  | vec x =>
    rw [claim_vec] at free
    have spans := (placed.of_unpromoted (show hold (Handle.vec x).data = .unpromoted 0 from Shared.hold_new_unpromoted)).2
    rw [Nat.zero_add] at spans
    exact (vec_drop_spec A free spans).mono (fun _ _ post => .of_goes post.1) (fun _ _ => id)

theorem refines_drop (sound : w.Sound) : w.Refines A (.drop i) := by
  simp only [Refines,exec,sat_bind,sat_pure,onHeap,sat_zoom,sat_move]
  refine ⟨fun h here => ?_,fun none found => ?_⟩
  · obtain ⟨v,viewed,view,focused⟩ := sound.focus here
    refine (drop_handle_spec A focused).mono ?_ (fun _ _ => False.elim)
    exact fun _ H' turned => ⟨_,settle_drop turned,rfl,rfl⟩
  · obtain ⟨h,here⟩ := found
    simp [none] at here

/-! ### Joining -/

/-- The pool with the value of a slot moved out. -/
def without (w : World) (j : Nat) : World := { w with pool := w.pool.set j none }

theorem without_views : (w.without j).views = w.views.set j none := by
  show viewsOf w.heap (w.pool.set j none) = _
  rw [viewsOf_set]
  rfl

theorem slot_without (here : (w.without j).slot i = some h) : i ≠ j ∧ w.slot i = some h := by
  rw [slot_eq_some,without] at here
  by_cases same : i = j
  · subst same
    simp [List.getElem?_set] at here
  · rw [List.getElem?_set_ne (fun eq => same eq.symm)] at here
    exact ⟨same,slot_eq_some.mpr here⟩

/-- Two handles of the pool, beside the others. -/
theorem Sound.focus_two {m o : Handle} (sound : w.Sound) (there : w.slot j = some o)
    (here : (w.without j).slot i = some m) : ∃ v u, w.views[i]? = some (some v) ∧ w.views[j]? = some (some u) ∧
      m.view w.heap = some v ∧ o.view w.heap = some u ∧
      Tcio.Sound w.heap [] (m :: o :: (w.without j).rest i) := by
  obtain ⟨_,here'⟩ := slot_without here
  obtain ⟨v,viewed,view,_⟩ := sound.focus here'
  obtain ⟨u,viewed',view',focused⟩ := sound.focus there
  refine ⟨v,u,viewed,viewed',view,view',focused.perm ?_⟩
  exact ((handles_perm here).cons o).trans (List.Perm.swap ..)

theorem sat_call_mut {α : Type} {y : Method BytesMut α} {Q : α → World → Prop} {E : Stop → World → Prop}
    (bytesMut : ∀ m, w.slot i = some (.bytesMut m) → Sat y (w.heap,m)
      (fun a p => Q a ⟨p.1,w.pool.set i (some (.bytesMut p.2))⟩) (fun k p => E k ⟨p.1,w.pool.set i (some (.bytesMut p.2))⟩))
    (other : ¬ w.HasBytesMut i → ∀ t, E .stuck t) : Sat (call i missing y) w Q E := by
  simp only [call,sat_bind,sat_handle]
  refine ⟨fun h here => ?_,fun none => other (by simp [HasBytesMut,none]) _⟩
  cases h with
  | bytes b => exact other (by simp [HasBytesMut,here]) _
  | bytesMut m =>
    simp only [method,sat_zoom]
    exact bytesMut m here
  | vec v => exact other (by simp [HasBytesMut,here]) _

theorem has_without (has : w.HasBytesMut i) (other : i ≠ j) : (w.without j).HasBytesMut i := by
  obtain ⟨m,here⟩ := has
  refine ⟨m,?_⟩
  rw [slot_eq_some] at here ⊢
  rw [without,List.getElem?_set_ne (fun same => other same.symm)]
  exact here

theorem settle_join {m m' : BytesMut} (here : (w.without j).slot i = some (.bytesMut m))
    (turns : Turns A w.heap ((w.without j).rest i) H' [] [(.bytesMut m',v)]) :
    Settles A w ⟨H',(w.pool.set j none).set i (some (.bytesMut m'))⟩ ((w.views.set j none).set i (some v)) := by
  obtain ⟨sound,views,later⟩ := settle_set here turns
  rw [without_views] at views
  exact ⟨sound,views,later⟩

theorem refines_unsplit (sound : w.Sound) (joinable : w.Joinable (.unsplit i j)) : w.Refines A (.unsplit i j) := by
  simp only [Refines,exec,sat_bind,sat_pure]
  refine sat_move_bytes_mut (fun o there => ?_) (fun none _ callable => none callable.2.2)
  refine sat_call_mut (w := w.without j) (fun m here => ?_) (fun none _ callable => none (has_without callable.2.1 callable.1))
  obtain ⟨other,here'⟩ := slot_without here
  obtain ⟨v,u,viewed,viewed',view,view',focused⟩ := sound.focus_two there here
  refine (BytesMut.unsplit_spec focused view view' (joinable m o here' there)).mono ?_ ?_
  · exact fun _ p turns => ⟨_,settle_join here turns,rfl,v,u,viewed,viewed',rfl⟩
  · rintro _ p ⟨rfl,turns,why⟩
    refine ⟨?_,m,o,here',there,why⟩
    have settled := settle_join here turns
    have same : (w.views.set j none).set i (some v) = w.views.set j none := by
      rw [List.set_comm _ _ (fun eq => other eq.symm),set_view viewed]
    rwa [same] at settled

theorem refines_try_unsplit (sound : w.Sound) (joinable : w.Joinable (.try_unsplit i j)) :
    w.Refines A (.try_unsplit i j) := by
  simp only [Refines,exec,sat_bind]
  refine sat_move_bytes_mut (fun o there => ?_) (fun none _ callable => none callable.2.2)
  refine sat_call_mut (w := w.without j) (fun m here => ?_) (fun none _ callable => none (has_without callable.2.1 callable.1))
  obtain ⟨other,here'⟩ := slot_without here
  obtain ⟨v,u,viewed,viewed',view,view',focused⟩ := sound.focus_two there here
  have unites : w.Unites i j ↔ o.cap = 0 ∨ m.Joins o := by
    constructor
    · rintro ⟨m',o',here'',there',why⟩
      cases here'.symm.trans here''
      cases there.symm.trans there'
      exact why
    · exact fun why => ⟨m,o,here',there,why⟩
  refine (BytesMut.try_unsplit_spec A focused view view' (joinable m o here' there)).mono ?_ (fun _ _ => False.elim)
  rintro (back | _) p post
  · obtain ⟨rfl,rfl,some',apart⟩ := post
    simp only [sat_bind,store,sat_modify,sat_pure]
    have back' : ((w.pool.set j none).set i (some (.bytesMut m))).set j (some (.bytesMut back)) = w.pool := by
      rw [List.set_comm _ _ other,List.set_set,set_slot there,set_slot here']
    have apart' : ¬ w.Unites i j := fun why => (unites.mp why).elim some' apart
    refine ⟨w.views,?_,v,u,viewed,viewed',.inr ⟨apart',rfl,rfl⟩⟩
    refine ⟨?_,?_,.refl A w.heap⟩
    · exact back' ▸ sound
    · exact back' ▸ rfl
  · simp only [sat_pure]
    exact ⟨_,settle_join here post.2,v,u,viewed,viewed',.inl ⟨unites.mpr post.1,rfl,rfl⟩⟩

/-! ### Operations that make a handle -/

theorem new_vec_spec {spare : Nat} (sound : Tcio.Sound H [] R) : Sat (new_vec A v spare) H
    (fun vec H' => Turns A H R H' [] [(.vec vec,v)])
    (fun k H' => k = .panic ∧ isizeMax < v.length+spare ∧ H' = H) := by
  simp only [new_vec,sat_bind,sat_pure]
  refine (with_capacity_spec sound).mono ?_ (fun _ _ stops => stops)
  rintro vec H₁ ⟨goes,spans,_,room,_⟩
  refine (write_own A goes.sound spans rfl (Nat.le_refl _) (by omega)).mono ?_ (fun _ _ => False.elim)
  rintro _ H₂ ⟨more,stored,_,loaded⟩
  have word : hold (Handle.vec { vec with len := v.length }).data = .unpromoted 0 := Shared.hold_new_unpromoted
  refine (Turns.of_goes (goes.trans more)).put_vec (spans_keep spans fun _ e live => ?_) word rfl (Nat.zero_add _) ?_ loaded
  · rw [stored.extent]
    exact live
  · simp only [Handle.len,Handle.room]
    omega

/-- A new handle takes a slot of its own; a constructor that panics changes nothing. -/
theorem pushed {α : Type} {inj : α → Handle} {x : Exec Heap α} {P : Prop}
    (made : Sat x w.heap (fun a H' => Turns A w.heap w.handles H' [] [(inj a,v)])
      (fun k H' => k = .panic ∧ P ∧ H' = w.heap)) (sound : w.Sound) (refused : P → w.Refused op)
    (unwinds : w.unwound op = w.views) :
    Sat x w.heap (fun a H' => ∃ after, Settles A w ⟨H',w.pool++[some (inj a)]⟩ after ∧
      Outcome.done = .done ∧ after = w.views++[some v]) (fun k H' => w.Stops A op k ⟨H',w.pool⟩) := by
  refine made.mono ?_ ?_
  · exact fun a H' turns => ⟨_,settle_push turns,rfl,rfl⟩
  · rintro _ _ ⟨rfl,why,rfl⟩
    exact ⟨⟨sound,unwinds.symm,.refl A w.heap⟩,refused why⟩

theorem refines_vec {spare : Nat} (sound : w.Sound) : w.Refines A (.vec v spare) := by
  simp only [Refines,exec,sat_bind,sat_pure,onHeap,sat_zoom,push,sat_modify]
  exact pushed (new_vec_spec sound) sound id rfl

theorem refines_bytes_new (sound : w.Sound) : w.Refines A .bytes_new := by
  simp only [Refines,exec,sat_bind,sat_pure,push,sat_modify]
  exact ⟨_,settle_push (Bytes.new_spec sound),rfl,rfl⟩

theorem refines_bytes_from_static {p : Ptr} {len : Nat} (sound : w.Sound) : w.Refines A (.bytes_from_static p len) := by
  simp only [Refines,exec,sat_bind,sat_pure,push,sat_modify,sat_get,sat_check]
  refine ⟨fun static => ?_,fun other callable => other callable⟩
  obtain ⟨small,frozen,loads⟩ := static
  obtain ⟨v,loaded⟩ := Option.isSome_iff_exists.mp loads
  obtain ⟨e,live,frozen⟩ := (Option.any_eq_true _ _).mp frozen
  exact ⟨_,settle_push (Bytes.from_static_spec sound live frozen small loaded),v,loaded,rfl,rfl⟩

theorem refines_bytes_copy_from_slice (sound : w.Sound) : w.Refines A (.bytes_copy_from_slice v) := by
  simp only [Refines,exec,sat_bind,sat_pure,onHeap,sat_zoom,push,sat_modify]
  exact pushed (Bytes.copy_from_slice_spec sound) sound id rfl

theorem refines_bytes_mut_new (sound : w.Sound) : w.Refines A .bytes_mut_new := by
  simp only [Refines,exec,sat_bind,sat_pure,push,sat_modify]
  exact ⟨_,settle_push (BytesMut.new_spec sound),rfl,rfl⟩

theorem refines_bytes_mut_with_capacity {n : Nat} (sound : w.Sound) : w.Refines A (.bytes_mut_with_capacity n) := by
  simp only [Refines,exec,sat_bind,sat_pure,onHeap,sat_zoom,push,sat_modify]
  exact pushed ((BytesMut.with_capacity_spec sound).mono (fun _ _ post => post.2) (fun _ _ => id)) sound id rfl

theorem refines_bytes_mut_copy_from_slice (sound : w.Sound) : w.Refines A (.bytes_mut_copy_from_slice v) := by
  simp only [Refines,exec,sat_bind,sat_pure,onHeap,sat_zoom,push,sat_modify]
  exact pushed (BytesMut.copy_from_slice_spec sound) sound id rfl

/-- Every operation refines what it means for the views. -/
theorem exec_refines (A : Allocator) (sound : w.Sound) (op : Op) (joinable : w.Joinable op) : w.Refines A op := by
  cases op with
  | vec v spare => exact refines_vec sound
  | bytes_new => exact refines_bytes_new sound
  | bytes_from_static p len => exact refines_bytes_from_static sound
  | bytes_from_vec i => exact refines_bytes_from_vec sound
  | bytes_from_box i => exact refines_bytes_from_box sound
  | bytes_copy_from_slice v => exact refines_bytes_copy_from_slice sound
  | bytes_mut_new => exact refines_bytes_mut_new sound
  | bytes_mut_with_capacity n => exact refines_bytes_mut_with_capacity sound
  | bytes_mut_from_vec i => exact refines_bytes_mut_from_vec sound
  | bytes_mut_copy_from_slice v => exact refines_bytes_mut_copy_from_slice sound
  | clone i => exact refines_clone sound
  | slice i lo hi => exact refines_slice sound
  | slice_from_raw i a len => exact refines_slice_from_raw sound
  | advance i n => exact refines_advance sound
  | truncate i n => exact refines_truncate sound
  | truncate_off i n => exact refines_truncate_off sound
  | clear i => exact refines_clear sound
  | split i => exact refines_split sound
  | split_to i at_ => exact refines_split_to sound
  | split_off i at_ => exact refines_split_off sound
  | try_split_to i at_ => exact refines_try_split_to sound
  | try_split_off i at_ => exact refines_try_split_off sound
  | split_to_ptr i a => exact refines_split_to_ptr sound
  | split_off_ptr i a => exact refines_split_off_ptr sound
  | unsplit i j => exact refines_unsplit sound joinable
  | try_unsplit i j => exact refines_try_unsplit sound joinable
  | extend_from_slice i u => exact refines_extend_from_slice sound
  | as_mut_slice i at_ u => exact refines_as_mut_slice sound
  | reserve i n => exact refines_reserve sound
  | try_reclaim i n => exact refines_try_reclaim sound
  | try_reclaim_full i => exact refines_try_reclaim_full sound
  | freeze i => exact refines_freeze sound
  | into_mut i => exact refines_into_mut sound
  | into_vec i => exact refines_into_vec sound
  | drop i => exact refines_drop sound

end World
end Tcio
