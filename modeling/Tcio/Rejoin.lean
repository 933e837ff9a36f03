import Tcio.Fits
import Tcio.Run

/-!
Cutting a `BytesMut` into pieces and joining neighbours again, in any order. The pieces
lie one behind the other and all but the last are as long as their capacity, so that
every neighbour begins where the one before ends. Each counts once in the node they
share, beside the handles that were there before.
-/
namespace Tcio
open Exec

open Shared

variable {A : Allocator} {H H' : Heap} {b m o : BytesMut} {d data p : Ptr} {n k len cap at_ : Nat} {ms xs ys : List BytesMut}

/-! ### The count -/

/-- The word points to a live node that counts `n` handles. -/
def Counted (H : Heap) (d : Ptr) (n : Nat) : Prop :=
  ∃ boxed, H.nodes.get d.prov = some boxed ∧ boxed.addr = d.addr ∧ boxed.shared.ref_count = n

theorem Counted.unique (counted : Counted H d n) (other : Counted H d k) : n = k := by
  obtain ⟨boxed,live,_,rfl⟩ := counted
  obtain ⟨boxed',live',_,rfl⟩ := other
  cases live.symm.trans live'
  rfl

/-- The word after one more handle was made: a node is shared once more, and a buffer
    that was owned alone is turned over to a node of two handles. -/
structure Forks (H : Heap) (m : BytesMut) (H' : Heap) (d : Ptr) : Prop where
  mem : H'.mem = H.mem
  even : d.addr % 2 = 0
  node : (m.data.addr % 2 = 1 ∧ m.len ≤ m.cap ∧ Counted H' d 2) ∨
    (d = m.data ∧ ∃ n, Counted H d n ∧ Counted H' d (n+1))

theorem counted_update {f : Nat → Nat} (counted : Counted H d n) :
    Counted { H with nodes := H.nodes.update d.prov fun boxed =>
      { boxed with shared := { boxed.shared with ref_count := f boxed.shared.ref_count } } } d (f n) := by
  obtain ⟨boxed,live,addr,count⟩ := counted
  refine ⟨{ boxed with shared := { boxed.shared with ref_count := f boxed.shared.ref_count } },?_,addr,congrArg f count⟩
  rw [Arena.get_update,if_pos rfl,live]
  rfl

theorem deref_counted (counted : Counted H d n) : ∃ shared, deref d H = (.ok shared,H) ∧ shared.ref_count = n := by
  obtain ⟨boxed,live,addr,count⟩ := counted
  exact ⟨boxed.shared,deref_ok live addr,count⟩

theorem as_unpromoted_counted (even : data.addr % 2 = 0) (counted : Counted H data n) :
    as_unpromoted data H = (.ok (.error data),H) := by
  obtain ⟨_,read,_⟩ := deref_counted counted
  refine run_eq ?_
  simp only [as_unpromoted,sat_bind,sat_ite,sat_pure,is_unpromoted_iff]
  refine ⟨fun odd => by omega,fun _ => ?_⟩
  rw [sat_of_ok read]
  exact ⟨trivial,rfl⟩

/-- A word that is read is an offset, or points to a live node. -/
theorem sat_as_unpromoted : Sat (as_unpromoted data) H
    (fun word t => t = H ∧ ((data.addr % 2 = 1 ∧ ∃ offset, word = .ok offset) ∨
      (data.addr % 2 = 0 ∧ word = .error data ∧ ∃ n, Counted H data n))) (fun _ _ => True) := by
  simp only [as_unpromoted,sat_bind,sat_ite,sat_pure,is_unpromoted_iff]
  refine ⟨fun odd => ⟨trivial,.inl ⟨odd,_,rfl⟩⟩,fun other => sat_deref.mono ?_ (fun _ _ _ => trivial)⟩
  rintro shared _ ⟨rfl,boxed,live,addr,_⟩
  exact ⟨rfl,.inr ⟨by omega,trivial,_,boxed,live,addr,rfl⟩⟩

namespace BytesMut

theorem shallow_clone_forks : Sat (shallow_clone A) (H,m)
    (fun o q => q.2 = o ∧ o = { m with data := o.data } ∧ Forks H m q.1 o.data) (fun _ _ => True) := by
  simp only [shallow_clone,sat_bind,Method.sat_self,sat_onFst]
  refine sat_as_unpromoted.mono ?_ (fun _ _ _ => trivial)
  rintro word t ⟨rfl,⟨odd,offset,rfl⟩ | ⟨even,rfl,n,counted⟩⟩
  · simp only [original_buffer,Vec.from_raw_parts,promote_with_vec,sat_bind,sat_onFst,sat_get,sat_check,sat_pure,sat_set,
      Method.sat_put,Method.sat_self]
    refine ⟨fun fits => ⟨trivial,trivial,rfl,?_,.inl ⟨odd,Nat.le_of_add_le_add_right fits.1,?_⟩⟩,fun _ => trivial⟩
    · have := (A.aligned t).2
      simp only
      omega
    · exact ⟨_,by rw [Arena.get_insert,if_pos rfl],rfl,rfl⟩
  · simp only [increment,fetch_add,recount,sat_bind,sat_onFst,sat_modify,sat_pure,sat_ite,sat_stop,Method.sat_self]
    obtain ⟨shared,read,_⟩ := deref_counted counted
    rw [sat_of_ok read]
    exact ⟨fun _ => trivial,fun _ => ⟨trivial,trivial,rfl,even,.inr ⟨rfl,n,counted,counted_update counted⟩⟩⟩

theorem advance_unchecked_even (even : m.data.addr % 2 = 0) : Sat (advance_unchecked n) (H,m)
    (fun _ q => q = (H,⟨m.ptr.add n,m.len-n,m.cap-n,m.data⟩)) (fun _ _ => True) := by
  simp only [advance_unchecked,sat_ite,sat_pure,sat_bind,Method.sat_self,sat_onFst]
  refine ⟨fun none => by simp [none],fun _ => sat_as_unpromoted.mono ?_ (fun _ _ _ => trivial)⟩
  rintro word _ ⟨rfl,⟨odd,_⟩ | ⟨_,rfl,_⟩⟩
  · omega
  · simp only [sat_pure,sat_bind,sat_usize_sub,Method.sat_put]
    exact ⟨fun _ => trivial,fun _ => trivial⟩

/-- The two pieces of a handle that is cut. -/
def left (m : BytesMut) (d : Ptr) (at_ : Nat) : BytesMut := ⟨m.ptr,at_,at_,d⟩
def right (m : BytesMut) (d : Ptr) (at_ : Nat) : BytesMut := ⟨m.ptr.add at_,m.len-at_,m.cap-at_,d⟩

theorem split_to_cuts (inside : at_ ≤ m.len) : Sat (split_to A at_) (H,m)
    (fun o q => ∃ d, Forks H m q.1 d ∧ o = left m d at_ ∧ q.2 = right m d at_) (fun _ _ => True) := by
  simp only [split_to,try_split_to,sat_bind,Method.sat_self,sat_ite,sat_pure,sat_ofOption]
  refine ⟨fun outside => absurd inside (by omega),fun _ => shallow_clone_forks.mono ?_ (fun _ _ _ => trivial)⟩
  rintro o ⟨H',m'⟩ ⟨rfl,same,forks⟩
  simp only at same forks
  refine (advance_unchecked_even forks.even).mono ?_ (fun _ _ _ => trivial)
  rintro _ _ rfl
  simp only [Option.some.injEq,reduceCtorEq,false_implies,and_true]
  rintro _ rfl
  rw [same]
  exact ⟨_,forks,rfl,rfl⟩

theorem split_off_cuts (inside : at_ ≤ m.len) : Sat (split_off A at_) (H,m)
    (fun o q => ∃ d, Forks H m q.1 d ∧ q.2 = left m d at_ ∧ o = right m d at_) (fun _ _ => True) := by
  simp only [split_off,try_split_off,sat_bind,Method.sat_self,sat_ite,sat_pure,sat_ofOption]
  refine ⟨fun _ => by simp,fun _ => shallow_clone_forks.mono ?_ (fun _ _ _ => trivial)⟩
  rintro o ⟨H',m'⟩ ⟨rfl,same,forks⟩
  simp only at same forks
  simp only [sat_onFst,sat_lend]
  refine (advance_unchecked_even forks.even).mono ?_ (fun _ _ _ => trivial)
  rintro _ _ ⟨⟩
  simp only [Option.some.injEq,reduceCtorEq,false_implies,and_true,Method.sat_put]
  rintro _ rfl
  rw [same]
  refine ⟨_,forks,?_,rfl⟩
  simp only [left,Nat.min_eq_right inside]

/-- A handle that is dropped is no longer counted; its buffer stays, as others count. -/
theorem drop_counted (even : o.data.addr % 2 = 0) (counted : Counted H o.data (n+2)) :
    ∃ H', o.drop H = (.ok (),H') ∧ H'.mem = H.mem ∧ Counted H' o.data (n+1) := by
  obtain ⟨shared,read,count⟩ := deref_counted counted
  have sat : Sat o.drop H (fun _ H' => H'.mem = H.mem ∧ Counted H' o.data (n+1)) (fun _ _ => False) := by
    simp only [drop,into_unpromoted,sat_bind]
    rw [sat_of_ok (as_unpromoted_counted even counted)]
    simp only [release,fetch_sub,recount,sat_bind,sat_of_ok read,sat_modify,sat_pure,sat_ite]
    exact ⟨fun _ => ⟨trivial,counted_update (f := (· - 1)) counted⟩,fun last => by omega⟩
  obtain ⟨_,H',ran,post⟩ | ⟨_,_,_,wrong⟩ := sat.cases
  · exact ⟨H',ran,post⟩
  · exact wrong.elim

/-- A handle and the one right behind it on the same node are joined. -/
theorem try_unsplit_counted (even : d.addr % 2 = 0) (own : m.data = d) (same : o.data = d) (meets : o.ptr = m.ptr.add m.len)
    (fits : o.len ≤ o.cap) (counted : Counted H d (n+2)) :
    ∃ H', try_unsplit o (H,m) = (.ok (.ok ()),H',⟨m.ptr,m.len+o.len,m.cap+o.cap,d⟩) ∧ H'.mem = H.mem ∧ Counted H' d (n+1) := by
  subst own
  obtain ⟨H',dropped,mem,less⟩ := drop_counted (same ▸ even) (same ▸ counted)
  refine ⟨H',run_eq ?_,mem,same ▸ less⟩
  simp only [try_unsplit,sat_ite,sat_bind,sat_onFst,sat_of_ok dropped,sat_pure,Method.sat_self,Method.sat_put]
  refine ⟨fun none => ?_,fun _ => ⟨fun _ => ?_,fun refused => absurd ?_ refused⟩⟩
  · have : o.len = 0 := by omega
    simp [none,this]
  · exact ⟨trivial,trivial⟩
  · simp only [meets,same,is_promoted_iff,even,and_self]

end BytesMut

/-! ### Pieces in a row -/

/-- Handles on one node, each right behind the one before and all but the last as long as
    their capacity, that begin at `p` and take up a length and a capacity together. -/
def Row (d : Ptr) : Ptr → Nat → Nat → List BytesMut → Prop
  | _,len,cap,[] => len = 0 ∧ cap = 0
  | p,len,cap,m :: ms => m.data = d ∧ m.ptr = p ∧ m.len ≤ m.cap ∧ (ms ≠ [] → m.len = m.cap) ∧ m.len ≤ len ∧ m.cap ≤ cap ∧
      Row d (p.add m.len) (len-m.len) (cap-m.cap) ms

/-- A row stays one where a piece of it is cut. -/
theorem Row.cut (row : Row d p len cap (xs++m :: ys)) (inside : at_ ≤ m.len) :
    Row d p len cap (xs++m.left d at_ :: m.right d at_ :: ys) := by
  induction xs generalizing p len cap with
  | nil =>
    obtain ⟨rfl,rfl,fits,full,le,le',rest⟩ := row
    refine ⟨rfl,rfl,le_rfl,fun _ => rfl,?_,?_,rfl,rfl,?_,fun more => ?_,?_,?_,?_⟩
    all_goals simp only [BytesMut.left,BytesMut.right]
    · omega
    · omega
    · omega
    · have := full more
      omega
    · omega
    · omega
    · have start : (m.ptr.add at_).add (m.len-at_) = m.ptr.add m.len := Ptr.ext (by simp only [Ptr.add_addr]; omega) rfl
      have length : len-at_-(m.len-at_) = len-m.len := by omega
      have room : cap-at_-(m.cap-at_) = cap-m.cap := by omega
      rw [start,length,room]
      exact rest
  | cons x xs ih =>
    obtain ⟨word,start,fits,full,le,le',rest⟩ := row
    exact ⟨word,start,fits,fun _ => full (by simp),le,le',ih rest⟩

/-- Neighbours of a row meet, and joined they leave a row. -/
theorem Row.join (row : Row d p len cap (xs++m :: o :: ys)) :
    (m.data = d ∧ o.data = d ∧ o.ptr = m.ptr.add m.len ∧ o.len ≤ o.cap) ∧
      Row d p len cap (xs++⟨m.ptr,m.len+o.len,m.cap+o.cap,d⟩ :: ys) := by
  induction xs generalizing p len cap with
  | nil =>
    obtain ⟨rfl,rfl,fits,full,le,le',word,start,fits',full',less,less',rest⟩ := row
    refine ⟨⟨rfl,word,start,fits'⟩,rfl,rfl,?_,?_,?_,?_,?_⟩
    all_goals simp only
    · omega
    · intro more
      have := full (by simp)
      have := full' more
      omega
    · omega
    · omega
    · have start : m.ptr.add (m.len+o.len) = (m.ptr.add m.len).add o.len := Ptr.ext (Nat.add_assoc ..).symm rfl
      rw [start,Nat.sub_add_eq,Nat.sub_add_eq]
      exact rest
  | cons x xs ih =>
    obtain ⟨word,start,fits,full,le,le',rest⟩ := row
    obtain ⟨meet,joined⟩ := ih rest
    exact ⟨meet,word,start,fits,fun _ => full (by simp),le,le',joined⟩

theorem Row.word (row : Row d p len cap (xs++m :: ys)) : m.data = d := by
  induction xs generalizing p len cap with
  | nil => exact row.1
  | cons x xs ih => exact ih row.2.2.2.2.2.2

/-- A single piece is the whole. -/
theorem Row.single (row : Row d p len cap [m]) : m = ⟨p,len,cap,d⟩ := by
  obtain ⟨rfl,rfl,_,_,_,_,_,_⟩ := row
  cases m
  simp only [BytesMut.mk.injEq,true_and,and_true] at *
  omega

/-- What may be cut is a row of one piece. -/
theorem Row.whole (fits : len ≤ cap) : Row d p len cap [⟨p,len,cap,d⟩] :=
  ⟨rfl,rfl,fits,fun more => absurd rfl more,le_rfl,le_rfl,Nat.sub_self _,Nat.sub_self _⟩

namespace World
variable {w₀ w w' : World} {H₀ : Heap} {i j : Nat} {is js : List Nat}

/-! ### Steps -/

/-- A cut of a piece inside its view, or a join of two neighbours; the slots hold the
    pieces in their order. -/
inductive Regroup (A : Allocator) : World × List Nat → World × List Nat → Prop
  | split_to {w w' : World} {is js : List Nat} {i at_ : Nat} {m : BytesMut} (here : w.slot i = some (.bytesMut m))
      (inside : at_ ≤ m.len) (ran : exec A (.split_to i at_) w = (.ok .done,w')) :
      Regroup A (w,is++i :: js) (w',is++w.pool.length :: i :: js)
  | split_off {w w' : World} {is js : List Nat} {i at_ : Nat} {m : BytesMut} (here : w.slot i = some (.bytesMut m))
      (inside : at_ ≤ m.len) (ran : exec A (.split_off i at_) w = (.ok .done,w')) :
      Regroup A (w,is++i :: js) (w',is++i :: w.pool.length :: js)
  | join {w w' : World} {is js : List Nat} {i j : Nat} (ran : exec A (.try_unsplit i j) w = (.ok .done,w')) :
      Regroup A (w,is++i :: j :: js) (w',is++i :: js)

/-- A method that cuts a handle off leaves it in its slot and puts the other in a new one. -/
theorem exec_cut {x : Method Bytes Bytes} {y : Method BytesMut BytesMut} {Q : BytesMut → Heap × BytesMut → Prop} {out : Outcome}
    (here : w.slot i = some (.bytesMut m)) (cuts : Sat y (w.heap,m) Q (fun _ _ => True))
    (ran : (do push (← call i (Handle.bytes <$> x) (Handle.bytesMut <$> y)); return Outcome.done) w = (.ok out,w')) :
    ∃ o m', Q o (w'.heap,m') ∧ w'.pool = w.pool.set i (some (.bytesMut m'))++[some (.bytesMut o)] := by
  have sat : Sat (do push (← call i (Handle.bytes <$> x) (Handle.bytesMut <$> y)); return Outcome.done) w
      (fun _ w' => ∃ o m', Q o (w'.heap,m') ∧ w'.pool = w.pool.set i (some (.bytesMut m'))++[some (.bytesMut o)]) (fun _ _ => True) := by
    simp only [call,sat_bind,sat_handle,here,reduceCtorEq,false_implies,and_true]
    rintro _ ⟨⟩
    simp only [method,push,sat_zoom,sat_map,sat_modify,sat_pure]
    exact cuts.mono (fun o p post => ⟨o,p.2,post,rfl⟩) (fun _ _ _ => trivial)
  exact (sat_of_ok ran).mp sat

theorem exec_try_unsplit {m' : BytesMut} (here : w.slot i = some (.bytesMut m)) (there : w.slot j = some (.bytesMut o)) (other : i ≠ j)
    (ran : BytesMut.try_unsplit o (w.heap,m) = (.ok (.ok ()),H',m')) :
    exec A (.try_unsplit i j) w = (.ok .done,⟨H',(w.pool.set j none).set i (some (.bytesMut m'))⟩) := by
  refine run_eq ?_
  simp only [exec,sat_bind]
  refine sat_move_bytes_mut (fun x found => ?_) (fun none => absurd ⟨o,there⟩ none)
  cases there.symm.trans found
  have here' : (w.without j).slot i = some (.bytesMut m) := by
    rw [slot_eq_some] at here ⊢
    rw [without,List.getElem?_set_ne (fun same => other same.symm)]
    exact here
  refine sat_call_mut (fun x found => ?_) (fun none => absurd ⟨m,here'⟩ none)
  cases here'.symm.trans found
  rw [sat_of_ok ran]
  exact ⟨rfl,rfl⟩

/-! ### The pieces of a handle -/

/-- The values in the slots are these handles. -/
def InSlots (w : World) (is : List Nat) (ms : List BytesMut) : Prop := is.map w.slot = ms.map fun m => some (.bytesMut m)

/-- The slots before and behind one. -/
theorem InSlots.focus (holds : InSlots w (is++i :: js) ms) :
    ∃ xs m ys, ms = xs++m :: ys ∧ InSlots w is xs ∧ w.slot i = some (.bytesMut m) ∧ InSlots w js ys := by
  rw [InSlots,List.map_append,List.map_cons] at holds
  obtain ⟨xs,rest,rfl,left,right⟩ := List.map_eq_append_iff.mp holds.symm
  obtain ⟨m,ys,rfl,here,right⟩ := List.map_eq_cons_iff.mp right
  exact ⟨xs,m,ys,rfl,left.symm,here.symm,right.symm⟩

theorem InSlots.append (left : InSlots w is xs) (right : InSlots w js ys) : InSlots w (is++js) (xs++ys) := by
  rw [InSlots,List.map_append,List.map_append,left,right]
theorem InSlots.cons (here : w.slot i = some (.bytesMut m)) (rest : InSlots w is ms) : InSlots w (i :: is) (m :: ms) := by
  rw [InSlots,List.map_cons,List.map_cons,here,rest]

/-- Slots that hold a handle hold it still where those were kept. -/
theorem InSlots.kept (holds : InSlots w is ms) (kept : ∀ j ∈ is, ∀ h, w.slot j = some h → w'.slot j = some h) : InSlots w' is ms := by
  induction is generalizing ms with
  | nil => simpa [InSlots] using holds
  | cons k is ih =>
    obtain ⟨m,ms,rfl,here,rest⟩ := List.map_eq_cons_iff.mp holds.symm
    exact .cons (kept k List.mem_cons_self _ here.symm) (ih rest.symm fun j mem => kept j (List.mem_cons_of_mem k mem))

theorem InSlots.mem (holds : InSlots w is ms) (mem : i ∈ is) : ∃ m, w.slot i = some (.bytesMut m) := by
  have found := List.mem_map_of_mem (f := w.slot) mem
  rw [holds] at found
  obtain ⟨m,_,same⟩ := List.mem_map.mp found
  exact ⟨m,same.symm⟩

theorem inside_of_slot {h : Handle} (here : w.slot i = some h) : i < w.pool.length :=
  (List.getElem?_eq_some_iff.mp (slot_eq_some.mp here)).1

/-- Slots in a row: no slot twice, and a row of handles in them. -/
structure Lined (w : World) (d p : Ptr) (len cap : Nat) (is : List Nat) : Prop where
  nodup : is.Nodup
  row : ∃ ms, InSlots w is ms ∧ Row d p len cap ms

/-- The slots after a cut: the pieces lie in the old slot and in a new one, in either order. -/
theorem lined_cut {l r : BytesMut} (nodup : (is++i :: js).Nodup) (before : InSlots w is xs) (here : w.slot i = some (.bytesMut m))
    (after : InSlots w js ys) (pool : w'.pool = w.pool.set i (some (.bytesMut l))++[some (.bytesMut r)])
    (row : Row d p len cap (xs++{ m with data := d } :: ys)) (inside : at_ ≤ m.len) :
    (l = m.left d at_ → r = m.right d at_ → Lined w' d p len cap (is++i :: w.pool.length :: js)) ∧
      (l = m.right d at_ → r = m.left d at_ → Lined w' d p len cap (is++w.pool.length :: i :: js)) := by
  have own := inside_of_slot here
  have old : w'.slot i = some (.bytesMut l) := by
    rw [slot_eq_some,pool,List.getElem?_append_left (by simpa using own),List.getElem?_set_self own]
  have new : w'.slot w.pool.length = some (.bytesMut r) := by
    rw [slot_eq_some,pool,List.getElem?_append_right (by simp)]
    simp
  have kept : ∀ j, j ≠ i → ∀ h, w.slot j = some h → w'.slot j = some h := fun j other h there => by
    have := inside_of_slot there
    rw [slot_eq_some] at there ⊢
    rw [pool,List.getElem?_append_left (by simpa using this),List.getElem?_set_ne other.symm]
    exact there
  have fresh : w.pool.length ∉ is++i :: js := fun mem => by
    obtain ⟨_,there⟩ := ((before.append (.cons here after)).mem mem)
    exact absurd (inside_of_slot there) (lt_irrefl _)
  have apart := List.perm_middle.nodup_iff.mp nodup
  have before' : InSlots w' is xs := before.kept fun j mem => kept j fun same =>
    (List.nodup_cons.mp apart).1 (same ▸ List.mem_append_left _ mem)
  have after' : InSlots w' js ys := after.kept fun j mem => kept j fun same =>
    (List.nodup_cons.mp apart).1 (same ▸ List.mem_append_right _ mem)
  have more : (w.pool.length :: (is++i :: js)).Nodup := List.nodup_cons.mpr ⟨fresh,nodup⟩
  have cut := row.cut inside
  constructor
  · rintro rfl rfl
    have perm : (is++i :: w.pool.length :: js).Perm (w.pool.length :: (is++i :: js)) :=
      ((List.Perm.swap ..).append_left is).trans List.perm_middle
    exact ⟨perm.nodup_iff.mpr more,_,before'.append (.cons old (.cons new after')),cut⟩
  · rintro rfl rfl
    exact ⟨List.perm_middle.nodup_iff.mpr more,_,before'.append (.cons new (.cons old after')),cut⟩

/-- The slots after two neighbours were joined. -/
theorem lined_join (nodup : (is++i :: j :: js).Nodup) (before : InSlots w is xs) (after : InSlots w js ys) (own : i < w.pool.length)
    (pool : w'.pool = (w.pool.set j none).set i (some (.bytesMut m))) (row : Row d p len cap (xs++m :: ys)) :
    Lined w' d p len cap (is++i :: js) := by
  have here : w'.slot i = some (.bytesMut m) := by
    rw [slot_eq_some,pool,List.getElem?_set_self (by simpa using own)]
  have kept : ∀ k, k ≠ i → k ≠ j → ∀ h, w.slot k = some h → w'.slot k = some h := fun k other second h there => by
    rw [slot_eq_some] at there ⊢
    rw [pool,List.getElem?_set_ne other.symm,List.getElem?_set_ne second.symm]
    exact there
  have perm : (is++i :: j :: js).Perm (i :: j :: (is++js)) := List.perm_middle.trans (List.perm_middle.cons i)
  obtain ⟨first,rest⟩ := List.nodup_cons.mp (perm.nodup_iff.mp nodup)
  obtain ⟨second,_⟩ := List.nodup_cons.mp rest
  have away : ∀ k ∈ is++js, k ≠ i ∧ k ≠ j := fun k mem =>
    ⟨fun same => first (List.mem_cons_of_mem j (same ▸ mem)),fun same => second (same ▸ mem)⟩
  have before' : InSlots w' is xs := before.kept fun k mem =>
    kept k (away k (List.mem_append_left _ mem)).1 (away k (List.mem_append_left _ mem)).2
  have after' : InSlots w' js ys := after.kept fun k mem =>
    kept k (away k (List.mem_append_right _ mem)).1 (away k (List.mem_append_right _ mem)).2
  have fewer : (is++i :: js).Nodup := nodup.sublist (((List.sublist_cons_self j js).cons_cons i).append_left is)
  exact ⟨fewer,_,before'.append (.cons here after'),row⟩

/-- The pieces of `b`, which was cut when the heap was `H₀`: a row in the slots, where each
    piece counts once beside the `n` handles that the node would count, had `b` not been cut. -/
structure Pieces (H₀ : Heap) (b : BytesMut) (d : Ptr) (n : Nat) (w : World) (is : List Nat) : Prop where
  mem : w.heap.mem = H₀.mem
  even : d.addr % 2 = 0
  uncut : (b.data.addr % 2 = 1 ∧ n = 1) ∨ (d = b.data ∧ Counted H₀ d n)
  lined : Lined w d b.ptr b.len b.cap is
  counted : ∃ k, k+1 = n+is.length ∧ Counted w.heap d k

/-- One more piece. -/
theorem Pieces.cut (pieces : Pieces H₀ b d n w (is++i :: js)) (here : w.slot i = some (.bytesMut m)) (inside : at_ ≤ m.len)
    (forks : Forks w.heap m w'.heap data) {l r : BytesMut} (pool : w'.pool = w.pool.set i (some (.bytesMut l))++[some (.bytesMut r)]) :
    (l = m.left data at_ → r = m.right data at_ → Pieces H₀ b d n w' (is++i :: w.pool.length :: js)) ∧
      (l = m.right data at_ → r = m.left data at_ → Pieces H₀ b d n w' (is++w.pool.length :: i :: js)) := by
  obtain ⟨mem,even,uncut,⟨nodup,ms,holds,row⟩,k,total,counted⟩ := pieces
  obtain ⟨xs,m',ys,rfl,before,here',after⟩ := holds.focus
  cases here.symm.trans here'
  have word : m.data = d := row.word
  obtain ⟨mem',_,⟨odd,_⟩ | ⟨rfl,k',before',counted'⟩⟩ := forks
  · rw [word] at odd
    omega
  · subst word
    cases counted.unique before'
    have := lined_cut nodup before here after pool row inside
    have more : ∃ k', k'+1 = n+(is++i :: w.pool.length :: js).length ∧ Counted w'.heap m.data k' :=
      ⟨k+1,by simp at total ⊢; omega,counted'⟩
    constructor
    · intro left right
      exact ⟨mem'.trans mem,even,uncut,this.1 left right,more⟩
    · intro left right
      exact ⟨mem'.trans mem,even,uncut,this.2 left right,by simpa using more⟩

/-- The first cut turns a handle that owns its buffer alone over to a node. -/
theorem first_cut (fits : b.Fits) (positive : Positive w.heap) (here : w.slot i = some (.bytesMut b)) (inside : at_ ≤ b.len)
    (forks : Forks w.heap b w'.heap d) {l r : BytesMut} (pool : w'.pool = w.pool.set i (some (.bytesMut l))++[some (.bytesMut r)]) :
    ∃ n, 0 < n ∧ (l = b.left d at_ → r = b.right d at_ → Pieces w.heap b d n w' [i,w.pool.length]) ∧
      (l = b.right d at_ → r = b.left d at_ → Pieces w.heap b d n w' [w.pool.length,i]) := by
  have single : ([]++i :: []).Nodup := by simp
  have row : b.len ≤ b.cap → Row d b.ptr b.len b.cap ([]++{ b with data := d } :: []) := Row.whole
  have none : InSlots w [] [] := rfl
  have cuts := fun less => lined_cut single none here none pool (row less) inside
  obtain ⟨mem,even,⟨odd,less,counted⟩ | ⟨rfl,n,before,counted⟩⟩ := forks
  · exact ⟨1,Nat.one_pos,fun left right => ⟨mem,even,.inl ⟨odd,rfl⟩,(cuts less).1 left right,2,rfl,counted⟩,
      fun left right => ⟨mem,even,.inl ⟨odd,rfl⟩,(cuts less).2 left right,2,rfl,counted⟩⟩
  · have some' : 0 < n := by
      obtain ⟨boxed,live,_,rfl⟩ := before
      exact positive _ _ live
    exact ⟨n,some',fun left right => ⟨mem,even,.inr ⟨rfl,before⟩,(cuts (fits even)).1 left right,n+1,rfl,counted⟩,
      fun left right => ⟨mem,even,.inr ⟨rfl,before⟩,(cuts (fits even)).2 left right,n+1,rfl,counted⟩⟩

/-- Neighbours are joined, which leaves one piece less. -/
theorem Pieces.join (some' : 0 < n) (pieces : Pieces H₀ b d n w (is++i :: j :: js)) :
    ∃ w', exec A (.try_unsplit i j) w = (.ok .done,w') ∧ Pieces H₀ b d n w' (is++i :: js) := by
  obtain ⟨mem,even,uncut,⟨nodup,ms,holds,row⟩,k,total,counted⟩ := pieces
  obtain ⟨xs,m,rest,rfl,before,here,behind⟩ := holds.focus
  obtain ⟨o,ys,rfl,there,after⟩ := List.map_eq_cons_iff.mp behind.symm
  obtain ⟨⟨own,same,meets,fits⟩,joined⟩ := row.join
  have other : i ≠ j := fun same => by
    have perm := List.perm_middle.nodup_iff.mp nodup
    exact (List.nodup_cons.mp perm).1 (by simp [same])
  simp only [List.length_append,List.length_cons] at total
  obtain ⟨k,rfl⟩ : ∃ k', k = k'+2 := ⟨k-2,by omega⟩
  obtain ⟨H',ran,mem',counted'⟩ := BytesMut.try_unsplit_counted even own same meets fits counted
  refine ⟨_,exec_try_unsplit here there.symm other ran,mem'.trans mem,even,uncut,?_,k+1,?_,counted'⟩
  · exact lined_join nodup before after.symm (inside_of_slot here) rfl joined
  · simp only [List.length_append,List.length_cons]
    omega

/-! ### Any order -/

/-- Nothing was cut yet, or the handle lies in pieces. -/
def Regrouped (w : World) (i : Nat) (b : BytesMut) (w' : World) (is : List Nat) : Prop :=
  (w' = w ∧ is = [i]) ∨ ∃ d n, 0 < n ∧ Pieces w.heap b d n w' is

theorem alone_of_append {k : Nat} (same : is++i :: js = [k]) : is = [] ∧ i = k ∧ js = [] := by
  cases is with
  | nil => simpa using same
  | cons _ _ => simp at same

theorem regroup_pieces (fits : b.Fits) (positive : Positive w.heap) (here : w.slot i = some (.bytesMut b)) {w'' : World}
    (regrouped : Regrouped w i b w' is) (step : Regroup A (w',is) (w'',js)) : Regrouped w i b w'' js := by
  cases step with
  | split_to found inside ran =>
    obtain ⟨_,_,⟨d,forks,rfl,rfl⟩,pool⟩ := exec_cut found (BytesMut.split_to_cuts inside) ran
    rcases regrouped with ⟨rfl,single⟩ | ⟨d,n,some',pieces⟩
    · obtain ⟨rfl,rfl,rfl⟩ := alone_of_append single
      cases here.symm.trans found
      obtain ⟨n,some',_,cut⟩ := first_cut fits positive here inside forks pool
      exact .inr ⟨_,n,some',cut rfl rfl⟩
    · exact .inr ⟨d,n,some',(pieces.cut found inside forks pool).2 rfl rfl⟩
  | split_off found inside ran =>
    obtain ⟨_,_,⟨d,forks,rfl,rfl⟩,pool⟩ := exec_cut found (BytesMut.split_off_cuts inside) ran
    rcases regrouped with ⟨rfl,single⟩ | ⟨d,n,some',pieces⟩
    · obtain ⟨rfl,rfl,rfl⟩ := alone_of_append single
      cases here.symm.trans found
      obtain ⟨n,some',cut,_⟩ := first_cut fits positive here inside forks pool
      exact .inr ⟨_,n,some',cut rfl rfl⟩
    · exact .inr ⟨d,n,some',(pieces.cut found inside forks pool).1 rfl rfl⟩
  | join ran =>
    rcases regrouped with ⟨rfl,single⟩ | ⟨d,n,some',pieces⟩
    · obtain ⟨_,_,none⟩ := alone_of_append single
      cases none
    · obtain ⟨after,ran',pieces'⟩ := pieces.join (A := A) some'
      cases ran.symm.trans ran'
      exact .inr ⟨d,n,some',pieces'⟩

theorem regroups (fits : b.Fits) (positive : Positive w.heap) (here : w.slot i = some (.bytesMut b))
    (regroup : Relation.ReflTransGen (Regroup A) (w,[i]) (w',is)) : Regrouped w i b w' is := by
  generalize after : (w',is) = p at regroup
  induction regroup generalizing w' is with
  | refl =>
    cases after
    exact .inl ⟨rfl,rfl⟩
  | tail _ step ih =>
    subst after
    exact regroup_pieces fits positive here (ih rfl) step

/-- The handle is as it was, and its node counts what it would count, had the handle never
    been cut: as many handles as before, or one where the handle owned its buffer alone. -/
structure Restored (w : World) (b : BytesMut) (w' : World) (m : BytesMut) : Prop where
  ptr : m.ptr = b.ptr
  len : m.len = b.len
  cap : m.cap = b.cap
  view : (Handle.bytesMut m).view w'.heap = (Handle.bytesMut b).view w.heap
  shared : is_promoted b.data = true → m.data = b.data ∧ ∀ n, Counted w'.heap m.data n ↔ Counted w.heap b.data n
  alone : is_unpromoted b.data = true → (w' = w ∧ m = b) ∨ is_promoted m.data = true ∧ Counted w'.heap m.data 1

/-- Neighbouring pieces of a handle are joined whenever that is tried, and when one piece
    is left it is the handle that was cut. -/
theorem rejoins (initial : w₀.Initial) (run : Run A w₀ w) (here : w.slot i = some (.bytesMut b))
    (regroup : Relation.ReflTransGen (Regroup A) (w,[i]) (w',is)) :
    (∀ ks j k js, is = ks++j :: k :: js → ∃ w'', exec A (.try_unsplit j k) w' = (.ok .done,w'')) ∧
      ∀ k, is = [k] → ∃ m, w'.slot k = some (.bytesMut m) ∧ Restored w b w' m := by
  have fits : b.Fits := run_fits initial run _ (mem_pool here)
  have positive := run_positive initial run
  have regrouped := regroups fits positive here regroup
  constructor
  · rintro ks j k js rfl
    rcases regrouped with ⟨_,single⟩ | ⟨d,n,some',pieces⟩
    · obtain ⟨_,_,none⟩ := alone_of_append single
      cases none
    · obtain ⟨w'',ran,_⟩ := pieces.join (A := A) some'
      exact ⟨w'',ran⟩
  · rintro k rfl
    rcases regrouped with ⟨rfl,single⟩ | ⟨d,n,some',mem,even,uncut,⟨_,ms,holds,row⟩,k',total,counted⟩
    · cases single
      exact ⟨b,here,rfl,rfl,rfl,rfl,fun _ => ⟨rfl,fun _ => Iff.rfl⟩,fun _ => .inl ⟨rfl,rfl⟩⟩
    · obtain ⟨m,_,rfl,there,rest⟩ := List.map_eq_cons_iff.mp holds.symm
      cases List.map_eq_nil_iff.mp rest
      cases row.single
      obtain rfl : k' = n := Nat.add_right_cancel total
      refine ⟨_,there.symm,rfl,rfl,rfl,?_,fun promoted => ?_,fun odd => ?_⟩
      · simp only [Handle.view,mem]
        rfl
      · rw [is_promoted_iff] at promoted
        obtain ⟨odd,_⟩ | ⟨rfl,before⟩ := uncut
        · omega
        · exact ⟨rfl,fun c => ⟨fun after => after.unique counted ▸ before,fun earlier => earlier.unique before ▸ counted⟩⟩
      · rw [is_unpromoted_iff] at odd
        obtain ⟨_,rfl⟩ | ⟨rfl,_⟩ := uncut
        · exact .inr ⟨is_promoted_iff.mpr even,counted⟩
        · omega

/-- A handle of three bytes, cut twice and joined from the right. -/
theorem thirds_slots : (play (bump 0) [.vec [1,2,3] 1,.bytes_mut_from_vec 0] (start [])).map (fun w =>
    let w₁ := (exec (bump 0) (.split_off 1 1) w).2
    let w₂ := (exec (bump 0) (.split_to 2 1) w₁).2
    ([w.slot 1,w₁.slot 2],[w.pool.length,w₁.pool.length],[(exec (bump 0) (.split_off 1 1) w).1,
      (exec (bump 0) (.split_to 2 1) w₁).1,(exec (bump 0) (.try_unsplit 3 2) w₂).1])) =
    some ([some (.bytesMut ⟨⟨16,2⟩,3,4,⟨1,0⟩⟩),some (.bytesMut ⟨⟨17,2⟩,2,3,⟨8,0⟩⟩)],[2,3],[.ok .done,.ok .done,.ok .done]) := by
  decide +kernel

theorem rejoins_thirds : ∃ w w' b, Run (bump 0) (start []) w ∧ w.slot 1 = some (.bytesMut b) ∧ b.len = 3 ∧
    Relation.ReflTransGen (Regroup (bump 0)) (w,[1]) (w',[1,3]) ∧
      ∃ w'' m, exec (bump 0) (.try_unsplit 1 3) w' = (.ok .done,w'') ∧ w''.slot 1 = some (.bytesMut m) ∧ Restored w b w'' m := by
  obtain ⟨w,played,slots⟩ := Option.map_eq_some_iff.mp thirds_slots
  simp only [Prod.mk.injEq,List.cons.injEq,and_true] at slots
  obtain ⟨⟨here,there⟩,⟨length,length'⟩,first,second,third⟩ := slots
  have run : Run (bump 0) (start []) w := play_run (fun op _ w w' step => ⟨op,step⟩) played
  have cut : Regroup (bump 0) (w,[]++1 :: []) (_,[]++1 :: w.pool.length :: []) :=
    .split_off here (show 1 ≤ 3 by decide) (Prod.ext first rfl)
  rw [length] at cut
  have again : Regroup (bump 0) (_,[1]++2 :: []) (_,[1]++_ :: 2 :: []) := .split_to there (show 1 ≤ 2 by decide) (Prod.ext second rfl)
  rw [length'] at again
  have joined : Regroup (bump 0) (_,[1]++3 :: 2 :: []) (_,[1]++3 :: []) := .join (Prod.ext third rfl)
  have regroup := ((Relation.ReflTransGen.single cut).tail again).tail joined
  obtain ⟨w'',last⟩ := (rejoins (start_initial []) run here regroup).1 [] 1 3 [] rfl
  have whole : Regroup (bump 0) (_,[]++1 :: 3 :: []) (_,[]++1 :: []) := .join last
  obtain ⟨m,found,restored⟩ := (rejoins (start_initial []) run here (regroup.tail whole)).2 1 rfl
  exact ⟨w,_,_,run,here,rfl,regroup,w'',m,last,found,restored⟩

end World
end Tcio
