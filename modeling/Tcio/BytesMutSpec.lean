import Tcio.Turns

/-!
What the methods of `BytesMut` do to the handle they are called on, on a sound heap:
the view of each handle that comes out, and nothing else changes. They stop only with
a capacity overflow, or with an abort when a node has too many handles to count.
-/
namespace Tcio
open Exec Ledger Shared

variable {A : Allocator} {H H' : Heap} {C : List Own} {R : List Handle} {m o : BytesMut}
variable {v w : List UInt8} {n k offset at_ : Nat} {boxed : Boxed}

/-- Some node has more handles than a count may hold. -/
def Crowded (H : Heap) : Prop := ∃ k boxed, H.nodes.get k = some boxed ∧ isizeMax < boxed.shared.ref_count
/-- The allocation that a pointer is in cannot be doubled. -/
def Heap.Vast (H : Heap) (p : Ptr) : Prop := ∃ e, H.mem.extent p.prov = some e ∧ isizeMax < 2*e.size

/-- What a `BytesMut` can be: the owner of its buffer, or one of the handles on a node. -/
theorem Placed.bytesMut (placed : Placed H (.bytesMut m)) :
    (∃ offset, hold m.data = .unpromoted offset ∧ offset ≤ m.ptr.addr ∧ Spans H (m.ptr.sub offset) (offset+m.cap)) ∨
    (hold m.data = .promoted ∧ ∃ boxed, H.nodes.get m.data.prov = some boxed ∧ boxed.addr = m.data.addr ∧
      m.ptr.prov = boxed.shared.ptr.prov ∧ boxed.shared.ptr.addr ≤ m.ptr.addr ∧
      m.ptr.addr+m.cap ≤ boxed.shared.ptr.addr+boxed.shared.cap) := by
  cases word : hold m.data with
  | null => exact absurd trivial (placed.of_null word).1
  | unpromoted offset => exact .inl ⟨offset,rfl,placed.of_unpromoted word⟩
  | promoted =>
    obtain ⟨boxed,live,addr,prov,low,high⟩ := placed.of_promoted word
    exact .inr ⟨rfl,boxed,live,addr,prov,low,high⟩

/-- Only the view depends on the length. -/
theorem Placed.resize (placed : Placed H (.bytesMut m)) (fits : n ≤ m.cap) (view : H.mem.load m.ptr n = some v) :
    Placed H (.bytesMut { m with len := n }) := by
  refine ⟨by simp [Handle.view,Handle.ptr,Handle.len,view],fits,?_⟩
  cases word : hold (Handle.bytesMut { m with len := n }).data with
  | null => exact absurd trivial (placed.of_null word).1
  | unpromoted offset => exact placed.of_unpromoted word
  | promoted => exact placed.of_promoted word

theorem length_of_view {h : Handle} (view : h.view H = some v) : v.length = h.len := Memory.load_length view

namespace BytesMut

theorem original_buffer_ok (spans : Spans H (m.ptr.sub offset) (offset+m.cap)) (fits : m.len ≤ m.cap) :
    m.original_buffer offset H = (.ok ⟨m.ptr.sub offset,m.len+offset,m.cap+offset⟩,H) :=
  from_raw_parts_ok (by rw [Nat.add_comm]; exact spans) (by omega)

theorem claim_unpromoted (word : hold m.data = .unpromoted offset) :
    (Handle.bytesMut m).claim = own (m.ptr.sub offset) (m.cap+offset) := by
  have word' : hold (Handle.bytesMut m).data = .unpromoted offset := word
  rw [claim_own word',Nat.add_comm]
  exact own_congr rfl

/-! ### Read -/

/-- The handle `count` bytes further on. -/
def advanced (m : BytesMut) (count : Nat) : BytesMut where
  ptr := m.ptr.add count
  len := m.len-count
  cap := m.cap-count
  data := match hold m.data with
    | .unpromoted offset => payload m.data (offset+count)
    | _ => m.data

theorem advanced_zero (m : BytesMut) : m.advanced 0 = m := by
  unfold advanced
  cases word : hold m.data with
  | unpromoted offset => simp [payload_self word]
  | _ => simp

theorem advance_unchecked_offset (word : hold m.data = .unpromoted offset) (low : offset+n < 2^63) (room : n ≤ m.cap) :
    advance_unchecked n (H,m) = (.ok (),H,m.advanced n) := by
  apply run_eq
  simp only [advance_unchecked,sat_ite,sat_pure,sat_bind,Method.sat_self,sat_onFst,
    sat_of_ok (as_unpromoted_offset (H := H) word),sat_of_ok (mask_payload_ok word low),sat_usize_sub,
    Method.sat_put,room,true_and,not_true_eq_false,false_implies,and_true,forall_const]
  refine ⟨?_,fun _ => ?_⟩
  · rintro rfl
    rw [advanced_zero]
  · simp only [advanced,word]

theorem advance_unchecked_node (word : hold m.data = .promoted) (live : H.nodes.get m.data.prov = some boxed)
    (addr : boxed.addr = m.data.addr) (room : n ≤ m.cap) :
    advance_unchecked n (H,m) = (.ok (),H,m.advanced n) := by
  apply run_eq
  simp only [advance_unchecked,sat_ite,sat_pure,sat_bind,Method.sat_self,sat_onFst,
    sat_of_ok (as_unpromoted_node word live addr),sat_usize_sub,
    Method.sat_put,room,true_and,not_true_eq_false,false_implies,and_true,forall_const]
  refine ⟨?_,fun _ => ?_⟩
  · rintro rfl
    rw [advanced_zero]
  · simp only [advanced,word]

theorem advance_unchecked_ok (placed : Placed H (.bytesMut m)) (room : n ≤ m.cap) :
    advance_unchecked n (H,m) = (.ok (),H,m.advanced n) := by
  rcases placed.bytesMut with ⟨offset,word,_,spans⟩ | ⟨word,boxed,live,addr,_⟩
  · have small := spans.small
    rw [isizeMax] at small
    exact advance_unchecked_offset word (by omega) room
  · exact advance_unchecked_node word live addr room

theorem advanced_part (fits : m.len ≤ m.cap) (room : n ≤ m.cap) : Part (.bytesMut (m.advanced n)) (.bytesMut m) n where
  ptr := rfl
  room := by
    simp only [Handle.room,advanced]
    omega
  fits := by
    simp only [Handle.room,Handle.len,advanced]
    omega
  writes := id
  word := by
    cases word : hold m.data with
    | unpromoted offset =>
      refine .inr ⟨offset,word,by simp [Handle.data,advanced,word],?_⟩
      simp only [Handle.room,advanced]
      omega
    | null => exact .inl ⟨by simp [Handle.data,advanced,word],by simp [Handle.data,word]⟩
    | promoted => exact .inl ⟨by simp [Handle.data,advanced,word],by simp [Handle.data,word]⟩

theorem advance_spec (sound : Sound H [] (.bytesMut m :: R)) (view : (Handle.bytesMut m).view H = some v) :
    Sat (advance n) (H,m) (fun _ p => n ≤ m.len ∧ Turns A H R p.1 [] [(.bytesMut p.2,v.drop n)])
      (fun k p => k = .panic ∧ m.len < n ∧ p = (H,m)) := by
  have turns := Turns.start (A := A) sound view
  have fits : m.len ≤ m.cap := turns.placed.fits
  simp only [advance,sat_bind,Method.sat_self,sat_check]
  refine ⟨fun small => ?_,fun large => ⟨trivial,by omega,trivial⟩⟩
  rw [sat_of_ok (advance_unchecked_ok turns.placed (by omega))]
  refine ⟨small,turns.part (advanced_part fits (by omega)) (.inr ?_) (List.take_of_length_le ?_).symm⟩
  · simp only [Handle.len,advanced]
    omega
  · rw [List.length_drop,length_of_view view]
    exact Nat.le_refl _

/-- A shorter view of the same bytes. -/
theorem shorter_part (fits : m.len ≤ m.cap) (le : n ≤ m.len) : Part (.bytesMut { m with len := n }) (.bytesMut m) 0 where
  ptr := rfl
  room := by simp [Handle.room]
  fits := Nat.le_trans le fits
  writes := id
  word := by
    cases word : hold m.data with
    | unpromoted offset => exact .inr ⟨offset,word,(payload_self word).symm,Nat.zero_add _⟩
    | null => exact .inl ⟨rfl,by simp [Handle.data,word]⟩
    | promoted => exact .inl ⟨rfl,by simp [Handle.data,word]⟩

theorem shorten (sound : Sound H [] (.bytesMut m :: R)) (view : (Handle.bytesMut m).view H = some v) (le : n ≤ m.len) :
    Turns A H R H [] [(.bytesMut { m with len := n },v.take n)] := by
  have turns := Turns.start (A := A) sound view
  exact turns.part (shorter_part turns.placed.fits le) (.inr (by simpa [Handle.len] using le)) rfl

theorem truncate_spec (sound : Sound H [] (.bytesMut m :: R)) (view : (Handle.bytesMut m).view H = some v) :
    Sat (truncate n) (H,m) (fun _ p => Turns A H R p.1 [] [(.bytesMut p.2,v.take n)]) (fun _ _ => False) := by
  simp only [truncate,sat_bind,Method.sat_self,sat_ite,Method.sat_put,sat_pure]
  refine ⟨fun less => shorten sound view (by omega),fun more => ?_⟩
  rw [List.take_of_length_le (by rw [length_of_view view]; exact Nat.le_of_not_lt more)]
  exact .start sound view

theorem truncate_off_spec (sound : Sound H [] (.bytesMut m :: R)) (view : (Handle.bytesMut m).view H = some v) :
    Sat (truncate_off n) (H,m)
      (fun _ p => Turns A H R p.1 [] [(.bytesMut p.2,if n ≤ v.length then v.take (v.length-n) else v)])
      (fun _ _ => False) := by
  have length : v.length = m.len := length_of_view view
  simp only [truncate_off,sat_bind,Method.sat_self,sat_ite,Method.sat_put,sat_pure,length]
  refine ⟨fun small => ?_,fun large => ?_⟩
  · rw [if_pos small]
    exact shorten sound view (by omega)
  · rw [if_neg large]
    exact .start sound view

theorem clear_spec (sound : Sound H [] (.bytesMut m :: R)) (view : (Handle.bytesMut m).view H = some v) :
    Sat clear (H,m) (fun _ p => Turns A H R p.1 [] [(.bytesMut p.2,[])]) (fun _ _ => False) := by
  simp only [clear,sat_bind,Method.sat_self,Method.sat_put]
  exact shorten sound view (Nat.zero_le _)

/-! ### Splitting -/

/-- The handle takes a second claim on its node, to which an owner turns its buffer over. -/
theorem shallow_clone_spec (sound : Sound H [] (.bytesMut m :: R)) (view : (Handle.bytesMut m).view H = some v) :
    Sat (shallow_clone A) (H,m) (fun c p => c = { m with data := c.data } ∧ p.2 = c ∧ hold c.data = .promoted ∧
        Turns A H R p.1 [(Handle.bytesMut c).claim] [(.bytesMut c,v)])
      (fun k _ => k = .abort ∧ Crowded H) := by
  have turns := Turns.start (A := A) sound view
  simp only [shallow_clone,sat_bind,Method.sat_self,sat_onFst]
  rcases turns.placed.bytesMut with ⟨offset,word,low,spans⟩ | ⟨word,boxed,live,addr,_⟩
  · rw [sat_of_ok (as_unpromoted_offset word)]
    simp only [sat_bind,sat_onFst,Method.sat_put]
    rw [sat_of_ok (original_buffer_ok spans turns.placed.fits)]
    have taken := turns.take.goes
    rw [claim_unpromoted word] at taken
    have whole : Spans H (m.ptr.sub offset) (m.cap+offset) := by
      rw [Nat.add_comm]
      exact spans
    refine (promote_spec taken.sound whole Nat.two_pos).mono ?_ (fun _ _ => False.elim)
    rintro data H' ⟨goes,same,promoted,live⟩
    have claim : (Handle.bytesMut { m with data }).claim = .share data.prov := claim_promoted promoted
    refine ⟨rfl,rfl,promoted,?_⟩
    rw [claim]
    have moved := Turns.of_goes (taken.trans goes)
    have seen : (Handle.bytesMut { m with data }).view H' = some v := by
      rw [Handle.view,same]
      exact view
    refine Turns.put (claim ▸ moved) ⟨by simp [seen],turns.placed.fits,?_⟩ seen turns.apart
    have word' : hold (Handle.bytesMut { m with data }).data = .promoted := promoted
    rw [word']
    refine ⟨_,live,rfl,rfl,?_,?_⟩
    · exact Nat.sub_le _ _
    · simp only [Handle.region,Handle.ptr,Handle.room,Ptr.sub]
      omega
  · rw [sat_of_ok (as_unpromoted_node word live addr)]
    simp only [sat_bind,sat_onFst,Method.sat_self]
    refine (increment_spec A sound live addr).mono ?_ ?_
    · rintro _ H' ⟨goes,_⟩
      refine ⟨trivial,trivial,word,?_⟩
      rw [show (Handle.bytesMut m).claim = .share m.data.prov from claim_promoted word]
      exact turns.step goes
    · rintro k _ ⟨abort,many⟩
      exact ⟨abort,_,boxed,live,many⟩

/-- The view before `at_` comes out, the view from there on stays. -/
theorem try_split_to_spec (sound : Sound H [] (.bytesMut m :: R)) (view : (Handle.bytesMut m).view H = some v) :
    Sat (try_split_to A at_) (H,m) (fun o p => match o with
        | none => m.len < at_ ∧ p = (H,m)
        | some front => at_ ≤ m.len ∧ front.cap = at_ ∧ p.2.cap = m.cap-at_ ∧
          Turns A H R p.1 [] [(.bytesMut p.2,v.drop at_),(.bytesMut front,v.take at_)])
      (fun k _ => k = .abort ∧ Crowded H) := by
  have length : v.length = m.len := length_of_view view
  have room : m.len ≤ m.cap := (Turns.start (A := A) sound view).placed.fits
  simp only [try_split_to,sat_bind,Method.sat_self,sat_ite,sat_pure]
  refine ⟨fun large => ⟨large,trivial⟩,fun small => ?_⟩
  refine (shallow_clone_spec sound view).mono ?_ (fun _ _ stops => stops)
  rintro c ⟨H',c'⟩ ⟨shape,same,promoted,turns⟩
  simp only at same turns
  subst same
  have len : c'.len = m.len := by rw [shape]
  have cap : c'.cap = m.cap := by rw [shape]
  rw [sat_of_ok (advance_unchecked_ok turns.placed (by omega))]
  refine ⟨by omega,trivial,by rw [← cap]; rfl,?_⟩
  have rest := advanced_part (m := c') (n := at_) (by omega) (by omega)
  have front : Part (.bytesMut { c' with cap := at_, len := at_ }) (.bytesMut c') 0 :=
    ⟨rfl,by simp only [Handle.room]; omega,Nat.le_refl _,id,.inl ⟨rfl,by simp [Handle.data,promoted]⟩⟩
  refine turns.fork rest front (.inr ?_) (.inr ?_) ?_ ?_ ?_
  · simp only [Handle.len,advanced]
    omega
  · simp only [Handle.len]
    omega
  · rintro - -
    simp only [Handle.region,Handle.ptr,Handle.room,advanced,Ptr.add]
    omega
  · refine (List.take_of_length_le ?_).symm
    simp only [Handle.len,advanced,List.length_drop]
    omega
  · rfl

theorem split_to_spec (sound : Sound H [] (.bytesMut m :: R)) (view : (Handle.bytesMut m).view H = some v) :
    Sat (split_to A at_) (H,m) (fun front p => at_ ≤ m.len ∧ front.cap = at_ ∧ p.2.cap = m.cap-at_ ∧
        Turns A H R p.1 [] [(.bytesMut p.2,v.drop at_),(.bytesMut front,v.take at_)])
      (fun k p => k = .abort ∧ Crowded H ∨ k = .panic ∧ m.len < at_ ∧ p = (H,m)) := by
  simp only [split_to,sat_bind,sat_ofOption]
  refine (try_split_to_spec sound view).mono ?_ (fun _ _ stops => .inl stops)
  rintro (_ | front) p post
  · exact ⟨fun _ bad => (by cases bad),fun _ => .inr ⟨trivial,post⟩⟩
  · refine ⟨?_,fun bad => by cases bad⟩
    rintro _ ⟨⟩
    exact post

/-- The view from `at_` on comes out, with the capacity behind it. -/
theorem try_split_off_spec (sound : Sound H [] (.bytesMut m :: R)) (view : (Handle.bytesMut m).view H = some v) :
    Sat (try_split_off A at_) (H,m) (fun o p => match o with
        | none => m.cap < at_ ∧ p = (H,m)
        | some back => at_ ≤ m.cap ∧ p.2.cap = at_ ∧ back.cap = m.cap-at_ ∧
          Turns A H R p.1 [] [(.bytesMut p.2,v.take at_),(.bytesMut back,v.drop at_)])
      (fun k _ => k = .abort ∧ Crowded H) := by
  have length : v.length = m.len := length_of_view view
  have room : m.len ≤ m.cap := (Turns.start (A := A) sound view).placed.fits
  simp only [try_split_off,sat_bind,Method.sat_self,sat_ite,sat_pure,sat_onFst,sat_lend,Method.sat_put]
  refine ⟨fun large => ⟨large,trivial⟩,fun small => ?_⟩
  refine (shallow_clone_spec sound view).mono ?_ (fun _ _ stops => stops)
  rintro c ⟨H',c'⟩ ⟨shape,same,promoted,turns⟩
  simp only at same turns
  subst same
  have len : c'.len = m.len := by rw [shape]
  have cap : c'.cap = m.cap := by rw [shape]
  rw [sat_of_ok (advance_unchecked_ok turns.placed (by omega))]
  refine ⟨by omega,trivial,by rw [← cap]; rfl,?_⟩
  have back := advanced_part (m := c') (n := at_) (by omega) (by omega)
  have front : Part (.bytesMut { c' with cap := at_, len := min c'.len at_ }) (.bytesMut c') 0 :=
    ⟨rfl,by simp only [Handle.room]; omega,Nat.min_le_right _ _,id,.inl ⟨rfl,by simp [Handle.data,promoted]⟩⟩
  refine turns.fork front back (.inr ?_) ?_ ?_ ?_ ?_
  · simp only [Handle.len]
    omega
  · simp only [Handle.len,advanced]
    omega
  · rintro - -
    simp only [Handle.region,Handle.ptr,Handle.room,advanced,Ptr.add]
    omega
  · simp only [Handle.len,List.drop_zero,len,← length]
    rw [Nat.min_comm,← List.take_eq_take_min]
  · refine (List.take_of_length_le ?_).symm
    simp only [Handle.len,advanced,List.length_drop]
    omega

theorem split_off_spec (sound : Sound H [] (.bytesMut m :: R)) (view : (Handle.bytesMut m).view H = some v) :
    Sat (split_off A at_) (H,m) (fun back p => at_ ≤ m.cap ∧ p.2.cap = at_ ∧ back.cap = m.cap-at_ ∧
        Turns A H R p.1 [] [(.bytesMut p.2,v.take at_),(.bytesMut back,v.drop at_)])
      (fun k p => k = .abort ∧ Crowded H ∨ k = .panic ∧ m.cap < at_ ∧ p = (H,m)) := by
  simp only [split_off,sat_bind,sat_ofOption]
  refine (try_split_off_spec sound view).mono ?_ (fun _ _ stops => .inl stops)
  rintro (_ | back) p post
  · exact ⟨fun _ bad => (by cases bad),fun _ => .inr ⟨trivial,post⟩⟩
  · refine ⟨?_,fun bad => by cases bad⟩
    rintro _ ⟨⟩
    exact post

theorem split_spec (sound : Sound H [] (.bytesMut m :: R)) (view : (Handle.bytesMut m).view H = some v) :
    Sat (split A) (H,m) (fun front p => Turns A H R p.1 [] [(.bytesMut p.2,[]),(.bytesMut front,v)])
      (fun k _ => k = .abort ∧ Crowded H) := by
  have length : v.length = m.len := length_of_view view
  simp only [split,sat_bind,Method.sat_self]
  refine (split_to_spec sound view).mono ?_ ?_
  · rintro front p ⟨_,_,_,turns⟩
    rwa [List.drop_of_length_le (by omega),List.take_of_length_le (by omega)] at turns
  · rintro k p (stops | ⟨_,large,_⟩)
    · exact stops
    · exact absurd large (Nat.lt_irrefl _)

/-- A handle that is dropped gives up its claim. -/
theorem drop_spec (A : Allocator) {P : List Handle} (sound : Sound H ((Handle.bytesMut m).claim :: C) P)
    (placed : Placed H (.bytesMut m)) : Sat m.drop H (fun _ H' => Goes A H P H' C) (fun _ _ => False) := by
  simp only [BytesMut.drop,sat_bind]
  rcases placed.bytesMut with ⟨offset,word,low,spans⟩ | ⟨word,boxed,live,addr,_⟩
  · rw [sat_of_ok (show into_unpromoted m.data H = _ from as_unpromoted_offset word)]
    simp only [sat_bind]
    rw [sat_of_ok (original_buffer_ok spans placed.fits)]
    rw [claim_unpromoted word] at sound
    have whole : Spans H (m.ptr.sub offset) (m.cap+offset) := by
      rw [Nat.add_comm]
      exact spans
    exact (vec_drop_spec A sound whole).mono (fun _ _ post => post.1) (fun _ _ => False.elim)
  · rw [sat_of_ok (show into_unpromoted m.data H = _ from as_unpromoted_node word live addr)]
    rw [show (Handle.bytesMut m).claim = .share m.data.prov from claim_promoted word] at sound
    exact release_spec A sound live addr

/-! ### Allocation -/

/-- There is no room for `n` bytes, and the capacity asked for, or twice that of the buffer, is
    more than a buffer may have. -/
def Overflows (H : Heap) (m : BytesMut) (n : Nat) : Prop := m.cap-m.len < n ∧ (isizeMax < n+m.cap ∨ H.Vast m.ptr)

theorem wrap_le (n : Nat) : wrap n ≤ n := Nat.mod_le n _
theorem wrap_eq (low : n < 2^64) : wrap n = n := Nat.mod_eq_of_lt low

theorem excess {p : Ptr} {cap c : Nat} (spans : Spans H p cap) (same : p.prov = m.ptr.prov) (inside : c ≤ cap)
    (fits : m.len ≤ m.cap) (large : isizeMax < max (wrap (c*2)) (wrap (m.len+n))) : isizeMax < n+m.cap ∨ H.Vast m.ptr := by
  have twice := wrap_le (c*2)
  have more := wrap_le (m.len+n)
  by_cases grown : isizeMax < c*2
  · exact .inr ⟨_,same ▸ spans.live (by omega),by simp only; omega⟩
  · exact .inl (by omega)

/-- A new buffer for a handle: its bytes are copied, and the old buffer is not touched. -/
theorem regrow_spec (sound : Sound H [] (.bytesMut m :: R)) (view : (Handle.bytesMut m).view H = some v)
    (room : m.len ≤ n) {data : Ptr} (word : hold data = .unpromoted 0) :
    Sat (Vec.with_capacity A n) H
      (fun vec H₁ => Sat (Heap.copy_nonoverlapping m.ptr vec.ptr m.len) H₁
        (fun _ H' => n ≤ vec.cap ∧
          Turns A H R H' [] [(.bytesMut ⟨vec.ptr,m.len,vec.cap,data⟩,v),(.bytesMut m,v)]) (fun _ _ => False))
      (fun k H' => k = .panic ∧ isizeMax < n ∧ H' = H) := by
  have turns := Turns.start (A := A) sound view
  have length : v.length = m.len := length_of_view view
  refine (with_capacity_spec sound).mono ?_ (fun _ _ stops => stops)
  rintro vec H₁ ⟨goes,spans,_,large,reads⟩
  have grown := turns.step goes
  obtain ⟨loaded,other⟩ := reads m.ptr m.len v view
  have elsewhere : m.len = 0 ∨ m.ptr.prov ≠ vec.ptr.prov := by
    by_cases none : m.len = 0
    · exact .inl none
    · exact .inr ((other (by omega)).resolve_right (by omega))
  rw [sat_congr (copy_nonoverlapping_eq (elsewhere.imp id .inl) loaded)]
  refine (write_own A grown.sound spans rfl (Nat.le_refl _) (by omega)).mono ?_ (fun _ _ => False.elim)
  rintro _ H₂ ⟨more,stored,_,seen⟩
  refine ⟨large,(grown.step more).put_vec (spans_keep spans fun _ e live => ?_) word rfl (Nat.zero_add _) ?_ ?_⟩
  · rw [stored.extent]
    exact live
  · simp only [Handle.len,Handle.room]
    omega
  · rw [length] at seen
    exact seen

theorem reserve_unpromoted_spec {allocate : Bool} (sound : Sound H [] (.bytesMut m :: R))
    (view : (Handle.bytesMut m).view H = some v) (word : hold m.data = .unpromoted offset) :
    Sat (reserve_unpromoted A offset n allocate) (H,m)
      (fun ok p => Turns A H R p.1 [] [(.bytesMut p.2,v)] ∧ p.2.len = m.len ∧ m.cap ≤ p.2.cap ∧ (allocate = true → ok = true) ∧
        (ok = true → m.len+n < 2^64 → n ≤ p.2.cap-m.len))
      (fun k p => k = .panic ∧ p = (H,m) ∧ allocate = true ∧ (isizeMax < n+m.cap ∨ H.Vast m.ptr)) := by
  have turns := Turns.start (A := A) sound view
  have length : v.length = m.len := length_of_view view
  have fits : m.len ≤ m.cap := turns.placed.fits
  obtain ⟨low,spans⟩ := turns.placed.of_unpromoted word
  simp only [Handle.ptr,Handle.room] at low spans
  have small := spans.small
  have back : hold (payload m.data 0) = .unpromoted 0 := hold_payload
  simp only [reserve_unpromoted,sat_bind,Method.sat_self,sat_usize_sub,fits,forall_const,not_true_eq_false,
    false_implies,and_true,sat_ite,sat_onFst,sat_pure]
  refine ⟨fun back => ?_,fun _ => ⟨fun no => ?_,fun yes => ?_⟩⟩
  · obtain ⟨enough,apart⟩ := back
    have taken := turns.take
    rw [claim_unpromoted word,Nat.add_comm] at taken
    have loaded : H.mem.load m.ptr m.len = some v := view
    rw [sat_congr (copy_nonoverlapping_eq (.inr (.inr (.inr (by simp only [Ptr.sub]; omega)))) loaded)]
    refine (write_own A taken.sound spans rfl (Nat.le_refl _) (by omega)).mono ?_ (fun _ _ => False.elim)
    rintro _ H' ⟨goes,stored,_,seen⟩
    rw [sat_of_ok (mask_payload_ok word (by decide))]
    simp only [Method.sat_put]
    refine ⟨?_,trivial,Nat.le_add_right _ _,fun _ => trivial,fun _ => by omega⟩
    refine (taken.step goes).put_vec (spans_keep spans fun _ e live => ?_) back rfl ?_ ?_ ?_
    · rw [stored.extent]
      exact live
    · simp only [Handle.room]
      omega
    · simp only [Handle.len,Handle.room]
      omega
    · rw [length] at seen
      exact seen
  · refine ⟨turns,trivial,Nat.le_refl _,fun always => ?_,fun bad => by cases bad⟩
    simp [always] at no
  · have double : wrap (m.cap*2) = m.cap*2 := wrap_eq (by rw [isizeMax] at small; omega)
    have enough : m.len ≤ max (wrap (m.cap*2)) (wrap (m.len+n)) := by
      rw [double]
      omega
    refine (regrow_spec sound view enough back).mono ?_ ?_
    · intro vec H₁ copy
      refine copy.mono ?_ (fun _ _ => False.elim)
      rintro _ H₂ ⟨large,grown⟩
      have old := grown.swap
      obtain ⟨_,spans'⟩ := old.placed.of_unpromoted word
      rw [sat_of_ok (original_buffer_ok spans' fits)]
      have taken := old.take
      rw [claim_unpromoted word] at taken
      have whole : Spans H₂ (m.ptr.sub offset) (m.cap+offset) := by
        rw [Nat.add_comm]
        exact spans'
      refine (vec_drop_spec A taken.sound whole).mono ?_ (fun _ _ => False.elim)
      rintro _ H₃ ⟨goes,_⟩
      rw [sat_of_ok (mask_payload_ok word (by decide))]
      simp only [Method.sat_put]
      refine ⟨taken.step goes,trivial,by omega,fun _ => trivial,fun low => ?_⟩
      rw [wrap_eq low] at large
      omega
    · rintro k H' ⟨panic,large,same⟩
      exact ⟨panic,by rw [same],by simpa using yes,excess spans rfl (Nat.le_add_left _ _) fits large⟩

/-! #### The promoted half -/

/-- A handle alone on its node takes over what is left behind it. -/
theorem widened (sound : Sound H [] (.bytesMut m :: R)) (view : (Handle.bytesMut m).view H = some v)
    (word : hold m.data = .promoted) (live : H.nodes.get m.data.prov = some boxed) (addr : boxed.addr = m.data.addr)
    (one : boxed.shared.ref_count = 1) (fits : m.len ≤ n)
    (inside : m.ptr.addr+n ≤ boxed.shared.ptr.addr+boxed.shared.cap) :
    Turns A H R H [] [(.bytesMut { m with cap := n },v)] := by
  have turns := Turns.start (A := A) sound view
  have taken := turns.take
  rw [show (Handle.bytesMut m).claim = .share m.data.prov from claim_promoted word] at taken
  obtain ⟨_,live',_,prov,low,_⟩ := turns.placed.of_promoted word
  cases live.symm.trans live'
  exact taken.put_alone word live addr one ⟨prov,low,inside⟩ fits view

/-- A handle alone on its node moves its bytes to the start of the buffer. -/
theorem moved_back (A : Allocator) (sound : Sound H [] (.bytesMut m :: R)) (view : (Handle.bytesMut m).view H = some v)
    (word : hold m.data = .promoted) (live : H.nodes.get m.data.prov = some boxed) (addr : boxed.addr = m.data.addr)
    (one : boxed.shared.ref_count = 1) (far : m.len ≤ m.ptr.addr-boxed.shared.ptr.addr) :
    Sat (Heap.copy_nonoverlapping m.ptr boxed.shared.ptr m.len) H
      (fun _ H' => H'.nodes = H.nodes ∧ Turns A H R H' []
        [(.bytesMut { m with ptr := boxed.shared.ptr, cap := m.cap+(m.ptr.addr-boxed.shared.ptr.addr) },v)])
      (fun _ _ => False) := by
  have turns := Turns.start (A := A) sound view
  have length : v.length = m.len := length_of_view view
  have fits : m.len ≤ m.cap := turns.placed.fits
  have taken := turns.take
  rw [show (Handle.bytesMut m).claim = .share m.data.prov from claim_promoted word] at taken
  obtain ⟨_,_,spans⟩ := sound.nodes _ _ live
  obtain ⟨_,live',_,prov,low,high⟩ := turns.placed.of_promoted word
  cases live.symm.trans live'
  simp only [Handle.region,Handle.ptr,Handle.room] at prov low high
  have loaded : H.mem.load m.ptr m.len = some v := view
  rw [sat_congr (copy_nonoverlapping_eq (.inr (.inr (.inr (by omega)))) loaded)]
  refine (write_within A taken.sound spans rfl (Nat.le_refl _) (by omega) fun some' r mem =>
    taken.sound.node_apart live one mem (by omega)).mono ?_ (fun _ _ => False.elim)
  rintro _ H' ⟨goes,_,same,seen⟩
  refine ⟨same,(taken.step goes).put_alone word (by rw [same]; exact live) addr one ⟨rfl,Nat.le_refl _,?_⟩ ?_ ?_⟩
  · simp only [Handle.region,Handle.ptr,Handle.room]
    omega
  · simp only [Handle.len,Handle.room]
    omega
  · rw [length] at seen
    exact seen

theorem reclaim_promoted_spec (A : Allocator) (sound : Sound H [] (.bytesMut m :: R)) (view : (Handle.bytesMut m).view H = some v)
    (word : hold m.data = .promoted) (live : H.nodes.get m.data.prov = some boxed) (addr : boxed.addr = m.data.addr)
    (one : boxed.shared.ref_count = 1) : Sat (reclaim_promoted m.data n) (H,m)
      (fun ok p => Turns A H R p.1 [] [(.bytesMut p.2,v)] ∧ p.2.len = m.len ∧ p.2.data = m.data ∧
        p.1.nodes = H.nodes ∧ m.cap ≤ p.2.cap ∧ p.2.cap ≤ boxed.shared.cap ∧ (ok = true → n ≤ p.2.cap-m.len) ∧
        (ok = false → p.1 = H ∧ p.2.ptr.prov = m.ptr.prov))
      (fun _ _ => False) := by
  have turns := Turns.start (A := A) sound view
  have fits : m.len ≤ m.cap := turns.placed.fits
  obtain ⟨_,live',_,prov,low,high⟩ := turns.placed.of_promoted word
  cases live.symm.trans live'
  simp only [Handle.region,Handle.ptr,Handle.room] at prov low high
  simp only [reclaim_promoted,sat_bind,Method.sat_self,sat_onFst]
  rw [sat_of_ok (deref_ok live addr)]
  simp only [sat_check,prov,sat_usize_sub,low,forall_const,not_true_eq_false,false_implies,and_true,sat_ite,
    Method.sat_put,sat_pure,sat_bind,sat_onFst]
  refine ⟨fun tail => ?_,fun bad => bad (by omega)⟩
  have wide := widened (A := A) sound view word live addr one
    (n := m.cap+(boxed.shared.cap-(m.cap+(m.ptr.addr-boxed.shared.ptr.addr)))) (by omega) (by omega)
  refine ⟨fun enough => ?_,fun _ => ⟨fun _ => ⟨fun back => ?_,fun _ => ?_⟩,fun bad => bad (by omega)⟩⟩
  · exact ⟨wide,trivial,trivial,trivial,by omega,by omega,by omega,fun bad => by cases bad⟩
  · obtain ⟨enough,apart⟩ := back
    refine (moved_back A wide.sound wide.view word live addr one apart).mono ?_ (fun _ _ => False.elim)
    rintro _ H' ⟨same,moved⟩
    exact ⟨moved,trivial,trivial,same,by omega,by omega,by omega,fun bad => by cases bad⟩
  · exact ⟨wide,trivial,trivial,trivial,by omega,by omega,fun bad => by cases bad⟩

/-- The buffer that a promoted handle grows to has room for its bytes. -/
theorem len_le_grown (sound : Sound H [] (.bytesMut m :: R)) (word : hold m.data = .promoted) :
    m.len ≤ max (wrap (m.cap*2)) (wrap (m.len+n)) ∧ m.cap ≤ max (wrap (m.cap*2)) (wrap (m.len+n)) := by
  have placed := (sound_cons.mp sound).2.1
  have fits : m.len ≤ m.cap := placed.fits
  obtain ⟨boxed,live,_,_,low,high⟩ := placed.of_promoted word
  obtain ⟨_,_,spans⟩ := sound.nodes _ _ live
  have small := spans.small
  simp only [Handle.region,Handle.ptr,Handle.room] at low high
  rw [wrap_eq (n := m.cap*2) (by rw [isizeMax] at small; omega)]
  exact ⟨by omega,by omega⟩

theorem reallocate_promoted_spec (sound : Sound H [] (.bytesMut m :: R)) (view : (Handle.bytesMut m).view H = some v)
    (word : hold m.data = .promoted) : Sat (reallocate_promoted A m.data n) (H,m)
      (fun _ p => Turns A H R p.1 [] [(.bytesMut p.2,v)] ∧ p.2.len = m.len ∧ m.cap ≤ p.2.cap ∧
        (m.len+n < 2^64 → n ≤ p.2.cap-m.len))
      (fun k p => k = .panic ∧ p = (H,m) ∧ isizeMax < max (wrap (m.cap*2)) (wrap (m.len+n))) := by
  obtain ⟨enough,more⟩ := len_le_grown (n := n) sound word
  simp only [reallocate_promoted,sat_bind,Method.sat_self,sat_onFst,Method.sat_put]
  refine (regrow_spec sound view enough hold_new_unpromoted).mono ?_ ?_
  · intro vec H₁ copy
    refine copy.mono ?_ (fun _ _ => False.elim)
    rintro _ H₂ ⟨large,grown⟩
    have old := grown.swap
    obtain ⟨boxed',live',addr',_⟩ := old.placed.of_promoted word
    have taken := old.take
    rw [show (Handle.bytesMut m).claim = .share m.data.prov from claim_promoted word] at taken
    refine (release_spec A taken.sound live' addr').mono ?_ (fun _ _ => False.elim)
    rintro _ H₃ goes
    refine ⟨taken.step goes,trivial,more.trans large,fun low => ?_⟩
    rw [wrap_eq low] at large
    omega
  · rintro k H' ⟨panic,large,same⟩
    exact ⟨panic,by rw [same],large⟩

/-! #### Both halves -/

theorem reserve_inner_spec {allocate : Bool} (sound : Sound H [] (.bytesMut m :: R))
    (view : (Handle.bytesMut m).view H = some v) : Sat (reserve_inner A n allocate) (H,m)
      (fun ok p => Turns A H R p.1 [] [(.bytesMut p.2,v)] ∧ p.2.len = m.len ∧ m.cap ≤ p.2.cap ∧ (allocate = true → ok = true) ∧
        (ok = true → m.len+n < 2^64 → n ≤ p.2.cap-m.len))
      (fun k p => k = .panic ∧ Turns A H R p.1 [] [(.bytesMut p.2,v)] ∧ (p.1 = H ∧ p.2.ptr.prov = m.ptr.prov ∧ m.cap ≤ p.2.cap) ∧
        (isizeMax < n+m.cap ∨ allocate = true ∧ H.Vast m.ptr)) := by
  have turns := Turns.start (A := A) sound view
  have fits : m.len ≤ m.cap := turns.placed.fits
  simp only [reserve_inner,sat_ite,sat_pure,sat_bind,Method.sat_self,sat_check,sat_onFst]
  refine ⟨fun none => ⟨turns,trivial,Nat.le_refl _,fun _ => trivial,by omega⟩,fun _ => ⟨fun _ => ?_,fun large => ?_⟩⟩
  · rcases turns.placed.bytesMut with ⟨offset,word,low,spans⟩ | ⟨word,boxed,live,addr,prov,low,high⟩
    · rw [sat_of_ok (show as_unpromoted_mut m.data H = _ from as_unpromoted_offset word)]
      refine (reserve_unpromoted_spec sound view word).mono (fun _ _ post => post) ?_
      rintro k p ⟨panic,rfl,always,why⟩
      exact ⟨panic,turns,⟨rfl,rfl,Nat.le_refl _⟩,why.imp_right (.intro always)⟩
    · obtain ⟨_,_,spans⟩ := sound.nodes _ _ live
      rw [sat_of_ok (show as_unpromoted_mut m.data H = _ from as_unpromoted_node word live addr)]
      simp only [sat_bind,sat_onFst]
      rw [sat_of_ok (is_unique_ok live addr)]
      -- what is left when the buffer has no room: a handle that may have taken the tail over
      have rest : ∀ p : Heap × BytesMut, Turns A H R p.1 [] [(.bytesMut p.2,v)] → p.2.len = m.len →
          hold p.2.data = .promoted → p.2.data = m.data → m.cap ≤ p.2.cap → p.2.cap ≤ boxed.shared.cap → p.1 = H ∧ p.2.ptr.prov = m.ptr.prov →
          Sat (if (!allocate) = true then pure false
            else do
              reallocate_promoted A m.data n
              return true) p
            (fun ok p => Turns A H R p.1 [] [(.bytesMut p.2,v)] ∧ p.2.len = m.len ∧ m.cap ≤ p.2.cap ∧ (allocate = true → ok = true) ∧
              (ok = true → m.len+n < 2^64 → n ≤ p.2.cap-m.len))
            (fun k p => k = .panic ∧ Turns A H R p.1 [] [(.bytesMut p.2,v)] ∧ (p.1 = H ∧ p.2.ptr.prov = m.ptr.prov ∧ m.cap ≤ p.2.cap) ∧
              (isizeMax < n+m.cap ∨ allocate = true ∧ H.Vast m.ptr)) := by
        rintro ⟨H',m'⟩ moved len word' data wide inside same
        simp only at moved len word' data wide inside same
        simp only [sat_ite,sat_pure,sat_bind]
        refine ⟨fun no => ⟨moved,len,wide,fun always => ?_,fun bad => by cases bad⟩,fun yes => ?_⟩
        · simp [always] at no
        · rw [← data]
          refine (reallocate_promoted_spec moved.sound moved.view word').mono ?_ ?_
          · rintro _ p ⟨again,len',wide',more⟩
            rw [len] at more
            exact ⟨moved.trans again,len'.trans len,wide.trans wide',fun _ => trivial,fun _ => more⟩
          · rintro k p ⟨panic,rfl,large⟩
            have always : allocate = true := by simpa using yes
            refine ⟨panic,moved,⟨same.1,same.2,wide⟩,?_⟩
            rw [len] at large
            exact (excess spans prov.symm inside fits large).imp_right (.intro always)
      by_cases one : boxed.shared.ref_count = 1
      · simp only [one,beq_self_eq_true,↓reduceIte,sat_bind]
        refine (reclaim_promoted_spec A sound view word live addr one).mono ?_ (fun _ _ => False.elim)
        rintro ok p ⟨moved,len,data,_,wide,inside,enough,still⟩
        cases ok with
        | true => exact ⟨moved,len,wide,fun _ => rfl,fun _ _ => enough rfl⟩
        | false => exact rest p moved len (data ▸ word) data wide inside (still rfl)
      · have more : (boxed.shared.ref_count == 1) = false := by simpa using one
        simp only [more]
        exact rest (H,m) turns rfl word rfl (Nat.le_refl _) (by simp only; omega) ⟨rfl,rfl⟩
  · have less := wrap_le (n+m.cap)
    exact ⟨trivial,turns,⟨trivial,trivial,Nat.le_refl _⟩,.inl (by omega)⟩

theorem reserve_spec (sound : Sound H [] (.bytesMut m :: R)) (view : (Handle.bytesMut m).view H = some v) :
    Sat (reserve A n) (H,m)
      (fun _ p => Turns A H R p.1 [] [(.bytesMut p.2,v)] ∧ p.2.len = m.len ∧ m.cap ≤ p.2.cap ∧
        (m.len+n < 2^64 → n ≤ p.2.cap-m.len))
      (fun k p => k = .panic ∧ Turns A H R p.1 [] [(.bytesMut p.2,v)] ∧ (p.1 = H ∧ p.2.ptr.prov = m.ptr.prov ∧ m.cap ≤ p.2.cap) ∧ Overflows H m n) := by
  have turns := Turns.start (A := A) sound view
  have fits : m.len ≤ m.cap := turns.placed.fits
  simp only [reserve,sat_bind,Method.sat_self,sat_usize_sub,fits,forall_const,not_true_eq_false,false_implies,and_true,
    sat_ite,sat_pure]
  refine ⟨fun enough => ⟨turns,trivial,Nat.le_refl _,fun _ => enough⟩,fun less => ?_⟩
  refine (reserve_inner_spec sound view).mono ?_ ?_
  · rintro ok p ⟨moved,len,wide,always,more⟩
    exact ⟨moved,len,wide,more (always rfl)⟩
  · rintro k p ⟨panic,moved,same,why⟩
    exact ⟨panic,moved,same,Nat.lt_of_not_le less,why.imp_right And.right⟩

/-- Nothing is allocated, so that only the capacity asked for may be too large. -/
theorem try_reclaim_spec (sound : Sound H [] (.bytesMut m :: R)) (view : (Handle.bytesMut m).view H = some v) :
    Sat (try_reclaim A n) (H,m)
      (fun ok p => Turns A H R p.1 [] [(.bytesMut p.2,v)] ∧ p.2.len = m.len ∧
        (ok = true → m.len+n < 2^64 → n ≤ p.2.cap-m.len))
      (fun k p => k = .panic ∧ Turns A H R p.1 [] [(.bytesMut p.2,v)] ∧ (p.1 = H ∧ p.2.ptr.prov = m.ptr.prov ∧ m.cap ≤ p.2.cap) ∧
        m.cap-m.len < n ∧ isizeMax < n+m.cap) := by
  have turns := Turns.start (A := A) sound view
  have fits : m.len ≤ m.cap := turns.placed.fits
  simp only [try_reclaim,sat_bind,Method.sat_self,sat_usize_sub,fits,forall_const,not_true_eq_false,false_implies,
    and_true,sat_ite,sat_pure]
  refine ⟨fun enough => ⟨turns,trivial,fun _ => enough⟩,fun less => ?_⟩
  refine (reserve_inner_spec sound view).mono ?_ ?_
  · rintro ok p ⟨moved,len,_,_,more⟩
    exact ⟨moved,len,more⟩
  · rintro k p ⟨panic,moved,same,large | ⟨no,_⟩⟩
    · exact ⟨panic,moved,same,Nat.lt_of_not_le less,large⟩
    · cases no

/-- What `try_reclaim_full` asks for: all of the buffer that is not in the view. -/
def beyond (H : Heap) (m : BytesMut) : Nat :=
  match hold m.data with
  | .unpromoted offset => offset+(m.cap-m.len)
  | _ => ((H.nodes.get m.data.prov).map fun boxed => boxed.shared.cap).getD 0-m.len

/-- The whole buffer behind the start of a handle that is alone on it. -/
theorem try_reclaim_full_spec (sound : Sound H [] (.bytesMut m :: R)) (view : (Handle.bytesMut m).view H = some v) :
    Sat (try_reclaim_full A) (H,m)
      (fun _ p => Turns A H R p.1 [] [(.bytesMut p.2,v)] ∧ p.2.len = m.len)
      (fun k p => k = .panic ∧ Turns A H R p.1 [] [(.bytesMut p.2,v)] ∧ (p.1 = H ∧ p.2.ptr.prov = m.ptr.prov ∧ m.cap ≤ p.2.cap) ∧
        isizeMax < m.beyond H+m.cap) := by
  have turns := Turns.start (A := A) sound view
  have fits : m.len ≤ m.cap := turns.placed.fits
  have inner : Sat (reserve_inner A (m.beyond H) false) (H,m)
      (fun _ p => Turns A H R p.1 [] [(.bytesMut p.2,v)] ∧ p.2.len = m.len)
      (fun k p => k = .panic ∧ Turns A H R p.1 [] [(.bytesMut p.2,v)] ∧ (p.1 = H ∧ p.2.ptr.prov = m.ptr.prov ∧ m.cap ≤ p.2.cap) ∧
        isizeMax < m.beyond H+m.cap) := by
    refine (reserve_inner_spec sound view).mono ?_ ?_
    · rintro _ p ⟨moved,len,_⟩
      exact ⟨moved,len⟩
    · rintro k p ⟨panic,moved,same,large | ⟨no,_⟩⟩
      · exact ⟨panic,moved,same,large⟩
      · cases no
  simp only [try_reclaim_full,sat_bind,Method.sat_self,sat_onFst]
  rcases turns.placed.bytesMut with ⟨offset,word,low,spans⟩ | ⟨word,boxed,live,addr,_,low,high⟩
  · have asked : m.beyond H = offset+(m.cap-m.len) := by rw [beyond,word]
    rw [sat_of_ok (as_unpromoted_offset word)]
    simp only [sat_bind,sat_usize_sub,sat_pure,fits,forall_const,not_true_eq_false,false_implies,and_true]
    rwa [← asked]
  · have asked : m.beyond H = boxed.shared.cap-m.len := by rw [beyond,word,live]; rfl
    rw [sat_of_ok (as_unpromoted_node word live addr)]
    simp only [sat_bind,sat_onFst]
    rw [sat_of_ok (deref_ok live addr)]
    simp only [sat_usize_sub,← asked]
    exact ⟨fun _ => inner,fun bad => absurd (by omega) bad⟩

/-! ### Write -/

/-- The buffer a handle lies in. -/
theorem ground (sound : Sound H C (.bytesMut m :: R)) : ∃ p cap, Spans H p cap ∧ m.ptr.prov = p.prov ∧
    p.addr ≤ m.ptr.addr ∧ m.ptr.addr+m.cap ≤ p.addr+cap := by
  obtain ⟨_,placed,_⟩ := sound_cons.mp sound
  rcases placed.bytesMut with ⟨offset,word,low,spans⟩ | ⟨word,boxed,live,addr,inside⟩
  · refine ⟨_,_,spans,rfl,?_,?_⟩ <;> simp only [Ptr.sub] <;> omega
  · exact ⟨_,_,(sound.nodes _ _ live).2.2,inside⟩

theorem cap_small (sound : Sound H C (.bytesMut m :: R)) : m.cap ≤ isizeMax := by
  obtain ⟨_,_,spans,_,low,high⟩ := ground sound
  have := spans.small
  omega

/-- A handle writes in its own region and takes any written length. -/
theorem write_region (A : Allocator) (sound : Sound H [] (.bytesMut m :: R)) (room : at_+w.length ≤ m.cap) :
    Sat (Heap.write (m.ptr.add at_) w) H
      (fun _ H' => Memory.Stored H.mem H'.mem (m.ptr.add at_) w.length ∧
        H'.mem.load (m.ptr.add at_) w.length = some w ∧
        ∀ l u, l ≤ m.cap → H'.mem.load m.ptr l = some u → Turns A H R H' [] [(.bytesMut { m with len := l },u)])
      (fun _ _ => False) := by
  obtain ⟨free,placed,apart⟩ := sound_cons.mp sound
  obtain ⟨p,cap,spans,prov,low,high⟩ := ground sound
  have low' : p.addr ≤ (m.ptr.add at_).addr := by simp only [Ptr.add]; omega
  have high' : (m.ptr.add at_).addr+w.length ≤ p.addr+cap := by simp only [Ptr.add]; omega
  refine (write_within A free spans (show (m.ptr.add at_).prov = p.prov from prov) low' high' fun _ r mem => ?_).mono ?_ (fun _ _ => False.elim)
  · refine ((apart r mem (.inl trivial)).within ⟨prov.symm,?_,?_⟩).symm
    · simp only [Handle.region,Handle.ptr,Ptr.add]
      omega
    · simp only [Handle.region,Handle.ptr,Handle.room,Ptr.add]
      omega
  · rintro _ H' ⟨goes,stored,same,seen⟩
    refine ⟨stored,seen,fun l u fits loaded => ?_⟩
    have moved : Turns A H R H' [(Handle.bytesMut { m with len := l }).claim] [] := .of_goes goes
    have before : Placed H (.bytesMut { m with len := 0 }) := placed.resize (Nat.zero_le _) Memory.load_zero
    have after := before.rewritten stored same (by simp [Handle.view,Handle.len])
    exact moved.put (after.resize fits loaded) loaded apart

/-- Writing through the slice replaces the bytes written. -/
theorem as_mut_slice_spec (A : Allocator) (sound : Sound H [] (.bytesMut m :: R)) (view : (Handle.bytesMut m).view H = some v) :
    Sat (as_mut_slice m at_ w) H
      (fun _ H' => at_+w.length ≤ v.length ∧
        Turns A H R H' [] [(.bytesMut m,v.take at_++w++v.drop (at_+w.length))])
      (fun k H' => k = .panic ∧ v.length < at_+w.length ∧ H' = H) := by
  have length : v.length = m.len := length_of_view view
  have fits : m.len ≤ m.cap := (Turns.start (A := A) sound view).placed.fits
  simp only [as_mut_slice,sat_bind,sat_check]
  refine ⟨fun inside => ?_,fun outside => ⟨trivial,by omega,trivial⟩⟩
  refine (write_region A sound (by omega)).mono ?_ (fun _ _ => False.elim)
  rintro _ H' ⟨stored,seen,turns⟩
  exact ⟨by omega,turns m.len _ fits (stored.load_overwritten seen view inside)⟩

/-- What was written behind the view becomes part of it. -/
theorem write_behind (A : Allocator) (sound : Sound H [] (.bytesMut m :: R)) (view : (Handle.bytesMut m).view H = some v)
    (room : w.length ≤ m.cap-m.len) : Sat (Heap.write (m.ptr.add m.len) w) H
      (fun _ H' => Turns A H R H' [] [(.bytesMut { m with len := m.len+w.length },v++w)]) (fun _ _ => False) := by
  have fits : m.len ≤ m.cap := (Turns.start (A := A) sound view).placed.fits
  refine (write_region A sound (by omega)).mono ?_ (fun _ _ => False.elim)
  rintro _ H' ⟨stored,seen,written⟩
  refine written _ _ (by omega) (Memory.load_append (stored.load view ?_) seen)
  intro _
  simp only [Ptr.add]
  omega

theorem extend_from_slice_spec (sound : Sound H [] (.bytesMut m :: R)) (view : (Handle.bytesMut m).view H = some v)
    (word : w.length ≤ isizeMax) : Sat (extend_from_slice A w) (H,m)
      (fun _ p => Turns A H R p.1 [] [(.bytesMut p.2,v++w)] ∧ m.cap ≤ p.2.cap)
      (fun k p => k = .panic ∧ Turns A H R p.1 [] [(.bytesMut p.2,v)] ∧ (p.1 = H ∧ p.2.ptr.prov = m.ptr.prov ∧ m.cap ≤ p.2.cap) ∧ Overflows H m w.length) := by
  have fits : m.len ≤ m.cap := (Turns.start (A := A) sound view).placed.fits
  obtain ⟨_,_,spans,_,low,high⟩ := ground sound
  have small := spans.small
  simp only [extend_from_slice,sat_bind,Method.sat_self,sat_onFst,Method.sat_put,spare_capacity_mut,sat_usize_sub,sat_check]
  refine (reserve_spec sound view).mono ?_ (fun _ _ stops => stops)
  rintro _ ⟨H₁,m'⟩ ⟨turns,len,wide,room⟩
  simp only at turns len wide room ⊢
  have fits' : m'.len ≤ m'.cap := turns.placed.fits
  have enough : w.length ≤ m'.cap-m'.len := by
    rw [len]
    refine room ?_
    rw [isizeMax] at small word
    omega
  refine ⟨fun _ => ⟨fun _ => ?_,fun bad => absurd enough bad⟩,fun bad => absurd fits' bad⟩
  exact (write_behind A turns.sound turns.view enough).mono (fun _ _ written => ⟨turns.trans written,wide⟩) (fun _ _ => False.elim)

theorem reserve_roomy (fits : m.len ≤ m.cap) (room : n ≤ m.cap-m.len) : reserve A n (H,m) = (.ok (),H,m) := by
  apply run_eq
  simp [reserve,fits,room]

/-- What there is room for is appended in place. -/
theorem extend_roomy (sound : Sound H [] (.bytesMut m :: R)) (view : (Handle.bytesMut m).view H = some v)
    (room : w.length ≤ m.cap-m.len) : Sat (extend_from_slice A w) (H,m)
      (fun _ p => p.2 = { m with len := m.len+w.length } ∧ Turns A H R p.1 [] [(.bytesMut p.2,v++w)]) (fun _ _ => False) := by
  have fits : m.len ≤ m.cap := (Turns.start (A := A) sound view).placed.fits
  rw [extend_from_slice,sat_bind,sat_of_ok (reserve_roomy fits room)]
  simp only [sat_bind,Method.sat_self,sat_onFst,Method.sat_put,spare_capacity_mut,sat_usize_sub,sat_check,fits,room,
    forall_const,not_true_eq_false,false_implies,and_true,true_and]
  exact write_behind A sound view room

/-! ### Joining -/

/-- `other` begins where the view of `self` ends and both are promoted. -/
def Joins (self other : BytesMut) : Prop :=
  (self.ptr.add self.len).addr = other.ptr.addr ∧ is_promoted self.data ∧ is_promoted other.data
/-- `try_unsplit` would join two handles that are not on the same node. -/
def Misjoins (self other : BytesMut) : Prop := other.cap ≠ 0 ∧ Joins self other ∧ self.data ≠ other.data

instance (self other : BytesMut) : Decidable (Joins self other) := inferInstanceAs (Decidable (_ ∧ _))
instance (self other : BytesMut) : Decidable (Misjoins self other) := inferInstanceAs (Decidable (_ ∧ _))

/-- A region next to another, both apart from a third. -/
theorem apart_join {prov lo mid hi : Nat} {r : Region} (one : Region.Apart ⟨prov,lo,mid⟩ r)
    (two : Region.Apart ⟨prov,mid,hi⟩ r) (le : lo ≤ mid) (le' : mid ≤ hi) : Region.Apart ⟨prov,lo,hi⟩ r := by
  intro same
  have first := one same
  have second := two same
  simp only at first second ⊢
  omega

theorem promoted_of_joins (placed : Placed H (.bytesMut m)) (even : is_promoted m.data = true) : hold m.data = .promoted := by
  rw [is_promoted_iff] at even
  rcases placed.bytesMut with ⟨offset,word,_⟩ | ⟨word,_⟩
  · rw [hold_unpromoted] at word
    omega
  · exact word

/-- Two handles on one node, the second right behind the view of the first, become one. -/
theorem join_spec (A : Allocator) (sound : Sound H [] (.bytesMut m :: .bytesMut o :: R))
    (view : (Handle.bytesMut m).view H = some v) (view' : (Handle.bytesMut o).view H = some w)
    (joins : Joins m o) (same : m.data = o.data) (some' : o.cap ≠ 0) :
    Turns A H R H [(Handle.bytesMut o).claim] [(.bytesMut { m with len := m.len+o.len, cap := m.cap+o.cap },v++w)] := by
  obtain ⟨here,even,_⟩ := joins
  have one := Turns.start (A := A) sound view
  have both := one.adopt (List.Perm.refl _) view'
  have fits : m.len ≤ m.cap := one.placed.fits
  have fits' : o.len ≤ o.cap := both.placed.fits
  have word : hold m.data = .promoted := promoted_of_joins one.placed even
  have claim : (Handle.bytesMut m).claim = .share m.data.prov := claim_promoted word
  obtain ⟨boxed,live,addr,prov,low,high⟩ := one.placed.of_promoted word
  obtain ⟨boxed',live',_,prov',low',high'⟩ := both.placed.of_promoted (show hold o.data = .promoted from same ▸ word)
  simp only [Handle.data,← same] at live'
  cases live.symm.trans live'
  simp only [Handle.region,Handle.ptr,Handle.room] at prov low high prov' low' high'
  simp only [Ptr.add] at here
  -- the regions do not overlap, so the view of the first fills its region
  have full : m.len = m.cap := by
    have := one.apart (.bytesMut o) List.mem_cons_self (.inl trivial) (prov.trans prov'.symm)
    simp only [Handle.region,Handle.ptr,Handle.room] at this
    omega
  have merged : hold (Handle.bytesMut { m with len := m.len+o.len, cap := m.cap+o.cap }).data = .promoted := word
  have seen : (Handle.bytesMut { m with len := m.len+o.len, cap := m.cap+o.cap }).view H = some (v++w) := by
    have next : m.ptr.add m.len = o.ptr := Ptr.ext here (prov.trans prov'.symm)
    exact Memory.load_append view (next ▸ view')
  refine Turns.put ?_ ⟨by simp [seen],?_,?_⟩ seen ?_
  · rw [claim_promoted merged]
    have taken := (both.take.perm (List.Perm.refl _)).take
    rw [claim] at taken
    exact taken
  · simp only [Handle.len,Handle.room]
    omega
  · rw [merged]
    refine ⟨boxed,live,addr,prov,low,?_⟩
    simp only [Handle.region,Handle.ptr,Handle.room]
    omega
  · intro r mem _
    have first : Region.Apart ⟨m.ptr.prov,m.ptr.addr,m.ptr.addr+m.cap⟩ r.region :=
      one.apart r (List.mem_cons_of_mem _ mem) (.inl trivial)
    have second := both.apart r (List.mem_cons_of_mem _ mem) (.inl trivial)
    have behind : Region.Apart ⟨m.ptr.prov,m.ptr.addr+m.cap,m.ptr.addr+(m.cap+o.cap)⟩ r.region :=
      second.within ⟨prov.trans prov'.symm,by simp only [Handle.region,Handle.ptr]; omega,
        by simp only [Handle.region,Handle.ptr,Handle.room]; omega⟩
    have whole : Region.Apart ⟨m.ptr.prov,m.ptr.addr,m.ptr.addr+(m.cap+o.cap)⟩ r.region :=
      apart_join first behind (Nat.le_add_right _ _) (by omega)
    exact whole

theorem joined_data (joins : Joins m o) (misses : ¬ Misjoins m o)
    (some' : o.cap ≠ 0) : m.data = o.data := by
  by_contra other
  exact misses ⟨some',joins,other⟩

/-- The views are joined where the handles fit together, and else `other` comes back. -/
theorem try_unsplit_spec (A : Allocator) (sound : Sound H [] (.bytesMut m :: .bytesMut o :: R))
    (view : (Handle.bytesMut m).view H = some v) (view' : (Handle.bytesMut o).view H = some w)
    (misses : ¬ Misjoins m o) : Sat (try_unsplit o) (H,m)
      (fun r p => match r with
        | .ok _ => (o.cap = 0 ∨ Joins m o) ∧ Turns A H R p.1 [] [(.bytesMut p.2,v++w)]
        | .error back => back = o ∧ p = (H,m) ∧ o.cap ≠ 0 ∧ ¬ Joins m o)
      (fun _ _ => False) := by
  have one := Turns.start (A := A) sound view
  have both := one.adopt (List.Perm.refl _) view'
  have fits : o.len ≤ o.cap := both.placed.fits
  have length : w.length = o.len := length_of_view view'
  simp only [try_unsplit,sat_bind,sat_ite,Method.sat_self,Method.sat_put,sat_onFst,sat_pure]
  refine ⟨fun none => ?_,fun some' => ⟨fun joins => ?_,fun apart => ⟨trivial,trivial,some',apart⟩⟩⟩
  · have taken := both.take
    refine (drop_spec A taken.sound both.placed).mono ?_ (fun _ _ => False.elim)
    rintro _ H' goes
    have empty : w = [] := List.length_eq_zero_iff.mp (by omega)
    rw [empty,List.append_nil]
    exact ⟨.inl none,taken.step goes⟩
  · have joined := join_spec A sound view view' joins (joined_data joins misses some') some'
    refine (drop_spec A joined.sound both.placed).mono ?_ (fun _ _ => False.elim)
    rintro _ H' goes
    exact ⟨.inr joins,joined.step goes⟩

theorem unsplit_spec (sound : Sound H [] (.bytesMut m :: .bytesMut o :: R))
    (view : (Handle.bytesMut m).view H = some v) (view' : (Handle.bytesMut o).view H = some w)
    (misses : m.len = 0 ∨ ¬ Misjoins m o) : Sat (unsplit A o) (H,m)
      (fun _ p => Turns A H R p.1 [] [(.bytesMut p.2,v++w)])
      (fun k p => k = .panic ∧ Turns A H R p.1 [] [(.bytesMut p.2,v)] ∧ Overflows H m o.len) := by
  have one := Turns.start (A := A) sound view
  have both := one.adopt (List.Perm.refl _) view'
  have length : v.length = m.len := length_of_view view
  simp only [unsplit,sat_bind,sat_ite,Method.sat_self,Method.sat_put,sat_onFst,sat_pure,is_empty,beq_iff_eq]
  refine ⟨fun none => ?_,fun some' => ?_⟩
  · have taken := both.swap.take
    refine (drop_spec A taken.sound one.placed).mono ?_ (fun _ _ => False.elim)
    rintro _ H' goes
    have empty : v = [] := List.length_eq_zero_iff.mp (by omega)
    rw [empty,List.nil_append]
    exact taken.step goes
  · refine (try_unsplit_spec A sound view view' (misses.resolve_left some')).mono ?_ (fun _ _ => False.elim)
    rintro (back | _) p post
    · obtain ⟨rfl,rfl,_⟩ := post
      have small := cap_small (sound.perm (List.Perm.swap ..))
      have fits : back.len ≤ back.cap := both.placed.fits
      have finish : ∀ (p : Heap × BytesMut) (u : List UInt8),
          Turns A H (.bytesMut back :: R) p.1 [] [(.bytesMut p.2,u)] →
          Sat back.drop p.1 (fun _ H' => Turns A H R H' [] [(.bytesMut p.2,u)]) (fun _ _ => False) := by
        intro p u turns
        have both := turns.adopt (List.Perm.refl _) view'
        have taken := both.take
        exact (drop_spec A taken.sound both.placed).mono (fun _ _ goes => taken.step goes) (fun _ _ => False.elim)
      have length' : w.length = back.len := length_of_view view'
      apply sat_ensure
      simp only [sat_bind,sat_onFst,as_slice]
      rw [sat_of_ok (show Heap.read back.ptr back.len H = _ from read_ok view')]
      refine (extend_from_slice_spec sound view (by omega)).mono ?_ ?_
      · rintro _ p ⟨turns,_⟩
        exact (finish p _ turns).mono (fun _ _ post => post) (fun _ _ => False.elim)
      · rintro k p ⟨rfl,turns,_,why⟩
        rw [if_pos rfl,← length']
        exact (finish p _ turns).mono (fun _ _ post => ⟨trivial,post,why⟩) (fun _ _ => False.elim)
    · exact post.2

/-! ### Constructors -/

theorem from_vec_spec {vec : Vec} (sound : Sound H [] (.vec vec :: R)) (view : (Handle.vec vec).view H = some v) :
    Turns A H R H [] [(.bytesMut (from_vec vec),v)] := by
  have turns := Turns.start (A := A) sound view
  have taken := turns.take
  rw [claim_vec] at taken
  have word : hold (Handle.vec vec).data = .unpromoted 0 := hold_new_unpromoted
  obtain ⟨_,spans⟩ := turns.placed.of_unpromoted word
  rw [Nat.zero_add] at spans
  exact taken.put_vec spans hold_new_unpromoted rfl (Nat.zero_add _) turns.placed.fits view

theorem new_spec (sound : Sound H [] R) : Turns A H R H [] [(.bytesMut new,[])] := by
  have turns : Turns A H R H [own Vec.new.ptr 0] [] := Turns.idle.mpr (.of_goes (.refl sound))
  refine turns.put_vec spans_new hold_new_unpromoted rfl rfl (Nat.le_refl _) ?_
  exact Memory.load_zero

theorem with_capacity_spec (sound : Sound H [] R) : Sat (with_capacity A n) H
    (fun m H' => n ≤ m.cap ∧ Turns A H R H' [] [(.bytesMut m,[])])
    (fun k H' => k = .panic ∧ isizeMax < n ∧ H' = H) := by
  simp only [with_capacity,sat_bind,sat_pure]
  refine (Tcio.with_capacity_spec sound).mono ?_ (fun _ _ stops => stops)
  rintro vec H' ⟨goes,spans,empty,room,_⟩
  refine ⟨room,(Turns.of_goes goes).put_vec spans hold_new_unpromoted rfl (Nat.zero_add _) ?_ ?_⟩
  · simp [Handle.len,Handle.room,from_vec,empty]
  · simp [Handle.view,Handle.len,from_vec,empty]

theorem copy_from_slice_spec (sound : Sound H [] R) : Sat (copy_from_slice A v) H
    (fun m H' => Turns A H R H' [] [(.bytesMut m,v)])
    (fun k H' => k = .panic ∧ isizeMax < v.length ∧ H' = H) := by
  simp only [copy_from_slice,sat_bind,sat_pure]
  refine (to_vec_spec sound).mono ?_ (fun _ _ stops => stops)
  rintro vec H' ⟨goes,spans,_,fits,loaded⟩
  exact (Turns.of_goes goes).put_vec spans hold_new_unpromoted rfl (Nat.zero_add _) fits loaded

theorem clone_spec (sound : Sound H [] (.bytesMut m :: R)) (view : (Handle.bytesMut m).view H = some v) :
    Sat (m.clone A) H (fun c H' => Turns A H R H' [] [(.bytesMut c,v),(.bytesMut m,v)]) (fun _ _ => False) := by
  have turns := Turns.start (A := A) sound view
  have fits : m.len ≤ m.cap := turns.placed.fits
  have small := cap_small sound
  have length : v.length = m.len := length_of_view view
  simp only [clone,sat_bind]
  rw [sat_of_ok (show Heap.read m.ptr m.len H = _ from read_ok view)]
  refine (copy_from_slice_spec sound).mono ?_ ?_
  · intro c H' copied
    exact (copied.adopt (List.Perm.refl _) view).swap
  · rintro _ _ ⟨_,large,_⟩
    omega

end BytesMut
end Tcio
