import Tcio.Puts

/-!
A message in one buffer, cut into fields at pointers that a parser has found in it. The
pointers stay good while the message is cut at one after the other: the fields are views of
the bytes where they lie, and nothing is copied.
-/
namespace Tcio
open Exec Ledger Shared Method

variable {A : Allocator} {H : Heap} {M : Memory UInt8} {R : List Handle} {m : BytesMut} {b : Bytes} {v : List UInt8} {p data : Ptr} {n : Nat}

/-! ### What leaves the memory alone -/

theorem increment_leaves : Keeps (fun H : Heap => H.mem = M) (increment data) :=
  .bind (.bind (deref_still _) fun _ => .bind (.modify fun _ holds => holds) fun _ => .pure) fun _ => .ite .stop .pure
theorem promote_with_vec_leaves {vec : Vec} : Keeps (fun H : Heap => H.mem = M) (promote_with_vec A vec n) := by
  intro H holds
  simp only [promote_with_vec,sat_bind,sat_get,sat_set,sat_pure]
  exact holds

namespace BytesMut

theorem shallow_clone_leaves : Keeps (fun q : Heap × BytesMut => q.1.mem = M) (shallow_clone A) := by
  have here : Keeps (fun q : Heap × BytesMut => q.1.mem = M) self := fun _ holds => holds
  refine .bind here fun me => .bind (.onFst (as_unpromoted_still (Heap.mem · = M))) fun word => ?_
  rcases word with node | offset
  · exact .bind (.onFst increment_leaves) fun _ => here
  · refine .bind (.onFst (from_raw_parts_still (Heap.mem · = M))) fun vec => .bind (.onFst promote_with_vec_leaves) fun data => ?_
    exact .bind (fun _ holds => holds) fun _ => here

/-- The front lies where the view began, the rest where the front ends. -/
theorem split_to_lies (sound : Sound H [] (.bytesMut m :: R)) (view : (Handle.bytesMut m).view H = some v) : Sat (split_to A n) (H,m)
    (fun front q => q.1.mem = H.mem ∧ front.ptr = m.ptr ∧ hold front.data = .promoted ∧ q.2.ptr = m.ptr.add n ∧ q.2.len = m.len-n)
    (fun _ _ => True) := by
  have fits : m.len ≤ m.cap := (sound_cons.mp sound).2.1.fits
  simp only [split_to,try_split_to,sat_bind,Method.sat_self,sat_ite,sat_pure,sat_ofOption]
  refine ⟨fun _ => ⟨fun _ bad => (by cases bad),fun _ => trivial⟩,fun inside => ?_⟩
  refine ((shallow_clone_spec sound view).and (shallow_clone_leaves (M := H.mem) (H,m) rfl)).mono ?_ (fun _ _ _ => trivial)
  rintro c ⟨H',c'⟩ ⟨⟨shape,same,promoted,turns⟩,mem⟩
  simp only at same turns
  subst same
  rw [sat_of_ok (advance_unchecked_ok turns.placed (by rw [shape]; simp only; omega))]
  refine ⟨fun front found => ?_,fun bad => (by cases bad)⟩
  cases found
  rw [shape]
  exact ⟨mem,rfl,promoted,rfl,rfl⟩

/-- A node's handle is frozen as it is. -/
theorem freeze_lies (placed : Placed H (.bytesMut m)) (word : hold m.data = .promoted) :
    m.freeze A H = (.ok (Bytes.from_mut m.data m),H) := by
  rcases placed.bytesMut with ⟨offset,word',_⟩ | ⟨_,boxed,live,addr,_⟩
  · cases word.symm.trans word'
  · refine run_eq ?_
    simp only [freeze,sat_bind]
    rw [sat_of_ok (as_unpromoted_node word live addr)]
    exact ⟨rfl,rfl⟩

theorem advance_to_ptr_lies (sound : Sound H [] (.bytesMut m :: R)) (view : (Handle.bytesMut m).view H = some v)
    (same : p.prov = m.ptr.prov) (low : m.ptr.addr ≤ p.addr) (high : p.addr ≤ m.ptr.addr+m.len) : Sat (advance_to_ptr p) (H,m)
    (fun _ q => q.1 = H ∧ q.2.ptr = p ∧ q.2.len = m.len-(p.addr-m.ptr.addr) ∧ Turns A H R q.1 [] [(.bytesMut q.2,v.drop (p.addr-m.ptr.addr))])
    (fun _ _ => False) := by
  have turns := Turns.start (A := A) sound view
  have fits : m.len ≤ m.cap := turns.placed.fits
  simp only [advance_to_ptr,Ptr.offset_from_unsigned,sat_bind,Method.sat_self,sat_check,sat_usize_sub]
  refine ⟨fun _ => ⟨fun _ => ?_,fun bad => bad low⟩,fun bad => bad same⟩
  rw [sat_of_ok (advance_unchecked_ok turns.placed (by omega))]
  refine ⟨rfl,Ptr.ext ?_ same.symm,rfl,turns.part (advanced_part fits (by omega)) (.inr ?_) (List.take_of_length_le ?_).symm⟩
  · simp only [advanced,Ptr.add_addr]
    omega
  · simp only [Handle.len,advanced]
    omega
  · rw [List.length_drop,length_of_view view]
    exact Nat.le_refl _

/-! ### Cutting -/

/-- What is done at a pointer into the message. -/
inductive Cut where
  /-- What is in front of it is a field: `split_to_ptr` and `freeze`. -/
  | field (ptr : Ptr)
  /-- What is in front of it is skipped: `advance_to_ptr`. -/
  | skip (ptr : Ptr)

def Cut.ptr : Cut → Ptr
  | field p => p
  | skip p => p

/-- The fields come out, the message is left behind the last pointer. -/
def cut_all (A : Allocator) : List Cut → Method BytesMut (List Bytes)
  | [] => return []
  | .field p :: cuts => do
    let front ← split_to_ptr A p.addr
    let field ← onFst (front.freeze A)
    return field :: (← cut_all A cuts)
  | .skip p :: cuts => do
    advance_to_ptr p
    cut_all A cuts

/-- Pointers into an allocation from `addr` to `last`, in order. -/
def InOrder (prov last : Nat) : Nat → List Cut → Prop
  | _,[] => True
  | addr,c :: cuts => c.ptr.prov = prov ∧ addr ≤ c.ptr.addr ∧ c.ptr.addr ≤ last ∧ InOrder prov last c.ptr.addr cuts

/-- Where the fields of the bytes from `addr` on begin, and what they show. -/
def fields : Nat → List UInt8 → List Cut → List (Nat × List UInt8)
  | _,_,[] => []
  | addr,v,.field p :: cuts => (addr,v.take (p.addr-addr)) :: fields p.addr (v.drop (p.addr-addr)) cuts
  | addr,v,.skip p :: cuts => fields p.addr (v.drop (p.addr-addr)) cuts
/-- What is left of them. -/
def behind : Nat → List UInt8 → List Cut → List UInt8
  | _,v,[] => v
  | addr,v,c :: cuts => behind c.ptr.addr (v.drop (c.ptr.addr-addr)) cuts

/-- The fields and the message, each where its bytes were all along. -/
structure CutInto (A : Allocator) (H : Heap) (R : List Handle) (m : BytesMut) (v : List UInt8) (cuts : List Cut) (bs : List Bytes)
    (q : Heap × BytesMut) : Prop where
  mem : q.1.mem = H.mem
  lie : bs.map Bytes.ptr = (fields m.ptr.addr v cuts).map fun f => ⟨f.1,m.ptr.prov⟩
  turns : Turns A H R q.1 [] ((.bytesMut q.2,behind m.ptr.addr v cuts) :: (bs.map Handle.bytes).zip ((fields m.ptr.addr v cuts).map Prod.snd))

/-- There were too many handles when the message was cut at some of the pointers. -/
def CrowdedAt (A : Allocator) (H : Heap) (R : List Handle) (m : BytesMut) (v : List UInt8) (cuts : List Cut) : Prop :=
  ∃ before after bs q, before++after = cuts ∧ CutInto A H R m v before bs q ∧ Crowded q.1

theorem CutInto.nil (sound : Sound H [] (.bytesMut m :: R)) (view : (Handle.bytesMut m).view H = some v) :
    CutInto A H R m v [] [] (H,m) := ⟨rfl,rfl,.start sound view⟩
theorem CutInto.skip {r : BytesMut} {cuts : List Cut} {bs : List Bytes} {q : Heap × BytesMut} (same : r.ptr.prov = m.ptr.prov)
    (turns : Turns A H R H [] [(.bytesMut r,v.drop (r.ptr.addr-m.ptr.addr))])
    (cut : CutInto A H R r (v.drop (r.ptr.addr-m.ptr.addr)) cuts bs q) : CutInto A H R m v (.skip r.ptr :: cuts) bs q :=
  ⟨cut.mem,by rw [cut.lie,same]; rfl,turns.trans cut.turns⟩
theorem CutInto.field {r : BytesMut} {H₁ : Heap} {cuts : List Cut} {bs : List Bytes} {q : Heap × BytesMut} (same : r.ptr.prov = m.ptr.prov)
    (mem : H₁.mem = H.mem) (start : b.ptr = m.ptr)
    (turns : Turns A H R H₁ [] [(.bytesMut r,v.drop (r.ptr.addr-m.ptr.addr)),(.bytes b,v.take (r.ptr.addr-m.ptr.addr))])
    (cut : CutInto A H₁ (.bytes b :: R) r (v.drop (r.ptr.addr-m.ptr.addr)) cuts bs q) :
    CutInto A H R m v (.field r.ptr :: cuts) (b :: bs) q where
  mem := cut.mem.trans mem
  lie := by
    rw [List.map_cons,cut.lie,fields,List.map_cons,same]
    exact congrArg (· :: _) start
  turns := by
    have all := Turns.seq (X := [_]) turns cut.turns
    exact all.perm ((List.perm_append_singleton _ _).cons _)

theorem split_to_ptr_lies (sound : Sound H [] (.bytesMut m :: R)) (view : (Handle.bytesMut m).view H = some v)
    (same : p.prov = m.ptr.prov) (low : m.ptr.addr ≤ p.addr) (high : p.addr ≤ m.ptr.addr+m.len) : Sat (split_to_ptr A p.addr) (H,m)
    (fun front q => q.1.mem = H.mem ∧ front.ptr = m.ptr ∧ hold front.data = .promoted ∧ q.2.ptr = p ∧ q.2.len = m.len-(p.addr-m.ptr.addr) ∧
      Turns A H R q.1 [] [(.bytesMut q.2,v.drop (p.addr-m.ptr.addr)),(.bytesMut front,v.take (p.addr-m.ptr.addr))])
    (fun k _ => k = .abort ∧ Crowded H) := by
  simp only [split_to_ptr,sat_bind,Method.sat_self,sat_check]
  refine ⟨fun _ => ?_,fun bad => absurd low bad⟩
  refine ((split_to_spec sound view).and (split_to_lies (A := A) (n := p.addr-m.ptr.addr) sound view)).mono ?_ ?_
  · rintro front q ⟨⟨_,_,_,turns⟩,mem,start,word,ptr,len⟩
    refine ⟨mem,start,word,?_,len,turns⟩
    rw [ptr]
    refine Ptr.ext ?_ same.symm
    simp only [Ptr.add_addr]
    omega
  · rintro k q ⟨stops | ⟨_,short,_⟩,_⟩
    · exact stops
    · omega

/-- A message is cut at pointers into it, in their order: its fields and what is left show the
    bytes between them, from where these are, and no byte is copied. -/
theorem cuts_in_place {cuts : List Cut} (sound : Sound H [] (.bytesMut m :: R)) (view : (Handle.bytesMut m).view H = some v)
    (ordered : InOrder m.ptr.prov (m.ptr.addr+m.len) m.ptr.addr cuts) :
    Sat (cut_all A cuts) (H,m) (CutInto A H R m v cuts) (fun k _ => k = .abort ∧ CrowdedAt A H R m v cuts) := by
  induction cuts generalizing H R m v with
  | nil => exact .nil sound view
  | cons c cuts ih =>
    obtain ⟨same,low,high,more⟩ := ordered
    have length : v.length = m.len := length_of_view view
    cases c with
    | skip p =>
      simp only [Cut.ptr] at same low high more
      simp only [cut_all,sat_bind]
      refine (advance_to_ptr_lies (A := A) sound view same low high).mono ?_ (fun _ _ => False.elim)
      rintro _ ⟨H₁,r⟩ ⟨rfl,rfl,len,turns⟩
      simp only at same low high more len turns
      refine (ih turns.sound turns.view ?_).mono ?_ ?_
      · rw [same,len,show r.ptr.addr+(m.len-(r.ptr.addr-m.ptr.addr)) = m.ptr.addr+m.len by omega]
        exact more
      · exact fun _ _ => .skip same turns
      · rintro k _ ⟨abort,before,after,bs,q,rfl,cut,crowded⟩
        exact ⟨abort,.skip r.ptr :: before,after,bs,q,rfl,.skip same turns cut,crowded⟩
    | field p =>
      simp only [Cut.ptr] at same low high more
      simp only [cut_all,sat_bind,sat_onFst,sat_pure]
      refine (split_to_ptr_lies sound view same low high).mono ?_ ?_
      · rintro front ⟨H₁,r⟩ ⟨mem,start,word,rfl,len,turns⟩
        simp only at same low high more mem len turns
        have frozen := BytesMut.freeze_spec (A := A) turns.swap.sound turns.swap.view
        rw [sat_of_ok (freeze_lies turns.swap.placed word)] at frozen ⊢
        have both : Turns A H R H₁ [] [(.bytesMut r,v.drop (r.ptr.addr-m.ptr.addr)),
            (.bytes (Bytes.from_mut front.data front),v.take (r.ptr.addr-m.ptr.addr))] :=
          Turns.swap (Turns.seq (X := [_]) (L := [_]) turns.swap frozen)
        refine (ih both.sound both.view ?_).mono ?_ ?_
        · rw [same,len,show r.ptr.addr+(m.len-(r.ptr.addr-m.ptr.addr)) = m.ptr.addr+m.len by omega]
          exact more
        · exact fun _ _ => .field same mem start both
        · rintro k _ ⟨abort,before,after,bs,q,rfl,cut,crowded⟩
          exact ⟨abort,.field r.ptr :: before,after,_ :: bs,q,rfl,.field same mem start both cut,crowded⟩
      · rintro k _ ⟨abort,crowded⟩
        exact ⟨abort,[],_,[],(H,m),rfl,.nil sound view,crowded⟩

/-- A message of two bytes, of which the first is a field and the second is skipped. -/
theorem cuts_in_place_pair : ∃ w, World.JoinableRun (bump 0) (World.start []) w ∧
    Sat (cut_all (bump 0) [.field ⟨20,3⟩,.skip ⟨21,3⟩]) (w.heap,⟨⟨19,3⟩,2,2,⟨1,0⟩⟩)
      (CutInto (bump 0) w.heap [.bytes ⟨⟨16,2⟩,3,⟨1,0⟩⟩] ⟨⟨19,3⟩,2,2,⟨1,0⟩⟩ [4,5] [.field ⟨20,3⟩,.skip ⟨21,3⟩])
      (fun k _ => k = .abort ∧
        CrowdedAt (bump 0) w.heap [.bytes ⟨⟨16,2⟩,3,⟨1,0⟩⟩] ⟨⟨19,3⟩,2,2,⟨1,0⟩⟩ [4,5] [.field ⟨20,3⟩,.skip ⟨21,3⟩]) := by
  obtain ⟨w,run,_,sound,view,_⟩ := Buf.joined_sound
  exact ⟨w,run,cuts_in_place (Tcio.Sound.perm sound (List.Perm.swap ..)) view (by simp [InOrder,Cut.ptr])⟩

end BytesMut

/-! ### Slicing -/

namespace Bytes

/-- A slice of the message that was found. -/
structure Mark where
  addr : Nat
  len : Nat

/-- The slice is one of the view, in the address space. -/
structure Mark.Inside (b : Bytes) (k : Mark) : Prop where
  low : b.ptr.addr ≤ k.addr
  high : k.addr+k.len ≤ b.ptr.addr+b.len
  space : k.addr+k.len < 2^64

/-- The slices, each where its bytes were all along, and the message, of which `left` is left. -/
structure SlicedInto (A : Allocator) (H : Heap) (R : List Handle) (b : Bytes) (v : List UInt8) (marks : List Mark) (left : List UInt8)
    (bs : List Bytes) (q : Heap × Bytes) : Prop where
  mem : q.1.mem = H.mem
  lie : bs.map Bytes.ptr = marks.map fun k => ⟨k.addr,b.ptr.prov⟩
  turns : Turns A H R q.1 [] ((.bytes q.2,left) :: (bs.map Handle.bytes).zip (marks.map fun k => (v.drop (k.addr-b.ptr.addr)).take k.len))

/-- There were too many handles when some of the slices were handed out. -/
def CrowdedAt (A : Allocator) (H : Heap) (R : List Handle) (b : Bytes) (v : List UInt8) (marks : List Mark) : Prop :=
  ∃ before after bs q, before++after = marks ∧ SlicedInto A H R b v before v bs q ∧ Crowded q.1

theorem SlicedInto.cons {c r : Bytes} {k : Mark} {H₁ : Heap} {marks : List Mark} {left : List UInt8} {bs : List Bytes} {q : Heap × Bytes}
    (mem : H₁.mem = H.mem) (start : c.ptr = ⟨k.addr,b.ptr.prov⟩) (here : r.ptr = b.ptr)
    (turns : Turns A H R H₁ [] [(.bytes r,v),(.bytes c,(v.drop (k.addr-b.ptr.addr)).take k.len)])
    (rest : SlicedInto A H₁ (.bytes c :: R) r v marks left bs q) : SlicedInto A H R b v (k :: marks) left (c :: bs) q where
  mem := rest.mem.trans mem
  lie := by rw [List.map_cons,List.map_cons,rest.lie,start,here]
  turns := by
    have all := Turns.seq (X := [_]) (L := [_]) turns rest.turns
    rw [here] at all
    exact all.perm ((List.perm_append_singleton _ _).cons _)

/-- The memory is what it was, and the handle is where it was. -/
def Left (M : Memory UInt8) (b : Bytes) (q : Heap × Bytes) : Prop := q.1.mem = M ∧ q.2.ptr = b.ptr ∧ q.2.len = b.len

theorem advance_to_ptr_lies (sound : Sound H [] (.bytes b :: R)) (view : (Handle.bytes b).view H = some v)
    (same : p.prov = b.ptr.prov) (low : b.ptr.addr ≤ p.addr) (high : p.addr ≤ b.ptr.addr+b.len) : Sat (advance_to_ptr p) (H,b)
    (fun _ q => q.1 = H ∧ Turns A H R q.1 [] [(.bytes q.2,v.drop (p.addr-b.ptr.addr))]) (fun _ _ => False) := by
  have turns := Turns.start (A := A) sound view
  have inside : p.addr-b.ptr.addr ≤ b.len := by omega
  simp only [advance_to_ptr,Ptr.offset_from_unsigned,sat_bind,Method.sat_self,sat_check,sat_usize_sub]
  refine ⟨fun _ => ⟨fun _ => ?_,fun bad => bad low⟩,fun bad => bad same⟩
  rw [sat_of_ok (advance_unchecked_ok inside (low_of_placed turns.placed inside))]
  refine ⟨rfl,turns.part (b.advanced_part inside) (.inr ?_) (List.take_of_length_le ?_).symm⟩
  · simp only [Handle.len,advanced]
    omega
  · rw [List.length_drop,length_of_view view]
    exact Nat.le_refl _

end Bytes
end Tcio
