import Tcio.Atomic

/-!
What a step of a call does beside the handles of all other threads, and that in every
interleaving each call returns the view its handle had when it began, as long as no step
takes the bytes away that a call has still to copy after it gave its reference up.
-/
namespace Tcio
open Exec Ledger

variable {A : Allocator} {H H' : Heap} {R L L' : List Handle} {v w : List UInt8} {c c' : Call} {m : BytesMut} {b : Bytes}
variable {i k n : Nat} {t t' : Task} {M M' : Threads}

/-- A thread goes on: its handles become others, on no node it was not on before, and the
    handles of the other threads see no change. -/
structure Passes (A : Allocator) (H : Heap) (R L : List Handle) (H' : Heap) (L' : List Handle) : Prop where
  sound : Sound H' [] (L' ++ R)
  frame : ∀ r ∈ R, r.view H' = r.view H
  later : H.Later A H'
  fewer : ∀ k, (L'.map Handle.claim).count (.share k) ≤ (L.map Handle.claim).count (.share k)

theorem Passes.of_turns {X : List (Handle × List UInt8)} (turns : Turns A H R H' [] X)
    (fewer : ∀ k, ((X.map Prod.fst).map Handle.claim).count (.share k) ≤ (L.map Handle.claim).count (.share k)) :
    Passes A H R L H' (X.map Prod.fst) :=
  ⟨turns.sound,turns.frame,turns.later,fewer⟩

theorem Passes.refl (sound : Sound H [] (L++R)) : Passes A H R L H L :=
  ⟨sound,fun _ _ => rfl,.refl A H,fun _ => Nat.le_refl _⟩

/-- A handle of another thread that is alone on its node stays alone. -/
theorem Passes.alone {h : Handle} {boxed : Boxed} (passes : Passes A H R L H' L') (sound : Sound H [] (L++R)) (mem : h ∈ R)
    (claim : h.claim = .share k) (live : H.nodes.get k = some boxed) (one : boxed.shared.ref_count = 1) :
    ∃ boxed', H'.nodes.get k = some boxed' ∧ boxed'.shared.ref_count = 1 ∧ boxed'.shared.ptr = boxed.shared.ptr := by
  have before := (sound.ledger.counted _ _ _ (Shared.entry_of_get live)).1
  have here : .share k ∈ R.map Handle.claim := claim ▸ List.mem_map_of_mem mem
  have some' := List.count_pos_iff.mpr here
  obtain ⟨n,o,found⟩ := passes.sound.ledger.backed k (List.mem_append_right _ (by simp [here]))
  obtain ⟨boxed',live',rfl,rfl⟩ := entry_eq_some.mp found
  have after := (passes.sound.ledger.counted _ _ _ found).1
  have fewer := passes.fewer k
  simp only [List.nil_append,List.map_append,List.count_append] at before after
  exact ⟨boxed',live',by omega,(passes.later.kept k boxed boxed' live live').ptr⟩

namespace Call

/-- What is left of the buffer for a call that took it over, from its first byte on. -/
def taken (b : Bytes) (advanced : Nat) (vec : Vec) : BytesMut :=
  ⟨b.ptr,b.len,vec.cap-advanced,Shared.payload Shared.new_unpromoted advanced⟩

/-- The handles whose claims the call holds. -/
def handles : Call → List Handle
  | .into_vec b => [.bytes b]
  | .into_vec_copy _ => []
  | .into_vec_back b advanced vec => [.bytesMut (taken b advanced vec)]
  | .into_mut b => [.bytes b]
  | .into_mut_copy _ => []
  | .release h back => h :: back.toList
  | .free vec back => .vec { vec with len := 0 } :: back.toList
  | .reserve m _ => [.bytesMut m]
  | .reserve_back m _ => [.bytesMut m]
  | .reserve_copy m _ => [.bytesMut m]
  | .freeze m => [.bytesMut m]
  | .as_mut_slice m _ _ => [.bytesMut m]

/-- What the call relies on besides its claims: `v` is the view it is to return. -/
def Fits (H : Heap) (v : List UInt8) : Call → Prop
  | .into_vec b => hold b.data = .promoted ∧ (Handle.bytes b).view H = some v
  | .into_vec_copy b => b.len ≤ isizeMax ∧ (Handle.bytes b).view H = some v
  | .into_vec_back b advanced vec => b.ptr = vec.ptr.add advanced ∧ advanced+b.len ≤ vec.cap ∧
    (Handle.bytesMut (taken b advanced vec)).view H = some v
  | .into_mut b => hold b.data = .promoted ∧ (Handle.bytes b).view H = some v
  | .into_mut_copy b => b.len ≤ isizeMax ∧ (Handle.bytes b).view H = some v
  | .release h back => hold h.data = .promoted ∧ ∀ r, back = some r → r.view H = some v
  | .free _ back => ∀ r, back = some r → r.view H = some v
  | .reserve m _ => hold m.data = .promoted ∧ (Handle.bytesMut m).view H = some v
  | .reserve_back m shared_ptr => hold m.data = .promoted ∧ (Handle.bytesMut m).view H = some v ∧
    m.len ≤ m.ptr.addr-shared_ptr.addr ∧
    ∃ boxed, H.nodes.get m.data.prov = some boxed ∧ boxed.shared.ref_count = 1 ∧ boxed.shared.ptr = shared_ptr
  | .reserve_copy m _ => hold m.data = .promoted ∧ (Handle.bytesMut m).view H = some v
  | .freeze m => hold m.data = .promoted ∧ (Handle.bytesMut m).view H = some v
  | .as_mut_slice m at_ u => ∃ w, (Handle.bytesMut m).view H = some w ∧ v = w.take at_++u++w.drop (at_+u.length)

end Call

namespace Next

def handles : Next → List Handle
  | .go c => c.handles
  | .ret back => back.toList
def Fits (H : Heap) (v : List UInt8) : Next → Prop
  | .go c => c.Fits H v
  | .ret back => ∀ r, back = some r → r.view H = some v

end Next

namespace Call

/-- A step of a call meets this beside the handles `R`. -/
def Passing (A : Allocator) (H : Heap) (R : List Handle) (v : List UInt8) (c : Call) : Prop :=
  Sat (c.step A) H (fun next H' => Passes A H R c.handles H' next.handles ∧ next.Fits H' v)
    (fun k H' => k = .panic ∧ H' = H ∧ ∃ h, c.unwound = some h ∧ c.handles = [h])

/-- A handle that owns its buffer is on no node. -/
theorem count_owner {h : Handle} {offset : Nat} (word : hold h.data = .unpromoted offset) :
    ((h :: L).map Handle.claim).count (.share k) = (L.map Handle.claim).count (.share k) := by
  rw [List.map_cons,List.count_cons_of_ne]
  rw [claim_own word,own,blockOf]
  split_ifs <;> simp [Claim.ofBlock]
theorem fewer_of_owner {h : Handle} {offset : Nat} (word : hold h.data = .unpromoted offset) (k : Nat) :
    ([h].map Handle.claim).count (.share k) ≤ (L.map Handle.claim).count (.share k) := by
  rw [count_owner word]
  exact Nat.zero_le _

theorem into_vec_passes (sound : Sound H [] (.bytes b :: R)) (fits : (into_vec b).Fits H v) :
    Passing A H R v (.into_vec b) := by
  obtain ⟨word,view⟩ := fits
  have small := Bytes.len_small sound
  obtain ⟨boxed,live,addr,prov,low,high⟩ := (sound_cons.mp sound).2.1.of_promoted word
  simp only [Handle.region,Handle.ptr,Handle.room,Handle.data] at live addr prov low high
  simp only [Passing,step,sat_bind]
  rw [sat_of_ok (Shared.deref_ok live addr)]
  refine (Bytes.handed_over (A := A) sound view word live addr).mono ?_ (fun _ _ => False.elim)
  rintro o H' ⟨loaded,released⟩
  by_cases one : boxed.shared.ref_count = 1
  · rw [if_pos one] at released
    obtain ⟨rfl,spans,owned⟩ := released
    have start : b.ptr = boxed.shared.ptr.add (b.ptr.addr-boxed.shared.ptr.addr) :=
      Ptr.ext (by simp only [Ptr.add]; omega) prov
    have made : Turns A H R H' [] [(.bytesMut (taken b (b.ptr.addr-boxed.shared.ptr.addr)
        ⟨boxed.shared.ptr,boxed.shared.cap,boxed.shared.cap⟩),v)] := by
      refine owned.put_vec spans Shared.hold_payload start ?_ ?_ loaded
      · simp only [taken,Handle.room]
        omega
      · simp only [taken,Handle.len,Handle.room]
        omega
    simp only [sat_bind,sat_check,sat_usize_sub,sat_pure,prov,low,forall_const,not_true_eq_false,false_implies,and_true]
    exact ⟨.of_turns made (fewer_of_owner Shared.hold_payload),start,by simp only; omega,made.view⟩
  · rw [if_neg one] at released
    obtain ⟨rfl,left⟩ := released
    exact ⟨.of_turns left fun _ => Nat.zero_le _,small,loaded⟩

theorem into_mut_passes (sound : Sound H [] (.bytes b :: R)) (fits : (into_mut b).Fits H v) :
    Passing A H R v (.into_mut b) := by
  obtain ⟨word,view⟩ := fits
  have small := Bytes.len_small sound
  obtain ⟨boxed,live,addr,prov,low,high⟩ := (sound_cons.mp sound).2.1.of_promoted word
  simp only [Handle.region,Handle.ptr,Handle.room,Handle.data] at live addr prov low high
  simp only [Passing,step,sat_bind]
  rw [sat_of_ok (Shared.deref_ok live addr)]
  refine (Bytes.handed_over (A := A) sound view word live addr).mono ?_ (fun _ _ => False.elim)
  rintro o H' ⟨loaded,released⟩
  by_cases one : boxed.shared.ref_count = 1
  · rw [if_pos one] at released
    obtain ⟨rfl,spans,owned⟩ := released
    have back : b.ptr = boxed.shared.ptr.add (b.ptr.addr-boxed.shared.ptr.addr) :=
      Ptr.ext (by simp only [Ptr.add]; omega) prov
    obtain ⟨ran,made⟩ := Bytes.forward_spec owned spans back (by omega) loaded (n := boxed.shared.cap)
    simp only [sat_bind,sat_check,sat_usize_sub,sat_lend,sat_pure,prov,low,forall_const,not_true_eq_false,false_implies,and_true]
    rw [sat_of_ok ran]
    simp only [BytesMut.set_len,sat_bind,Method.sat_self,Method.sat_put]
    refine ⟨.of_turns made (fewer_of_owner (@Shared.hold_payload Shared.new_unpromoted _)),?_⟩
    rintro r ⟨⟩
    exact made.view
  · rw [if_neg one] at released
    obtain ⟨rfl,left⟩ := released
    exact ⟨.of_turns left fun _ => Nat.zero_le _,small,loaded⟩

theorem into_vec_copy_passes (sound : Sound H [] R) (fits : (into_vec_copy b).Fits H v) :
    Passing A H R v (.into_vec_copy b) := by
  obtain ⟨small,view⟩ := fits
  have copied := Bytes.copied_out (Turns.of_goes (Goes.refl (A := A) sound)) view small
  simp only [Passing,step,sat_bind,sat_pure] at copied ⊢
  refine copied.mono (fun _ _ sat => sat.mono ?_ fun _ _ => False.elim) (fun _ _ => False.elim)
  intro vec H' made
  refine ⟨.of_turns made (fewer_of_owner Shared.hold_new_unpromoted),?_⟩
  rintro r ⟨⟩
  exact made.view

theorem into_mut_copy_passes (sound : Sound H [] R) (fits : (into_mut_copy b).Fits H v) :
    Passing A H R v (.into_mut_copy b) := by
  obtain ⟨small,view⟩ := fits
  have copied := Bytes.copied_out_mut (Turns.of_goes (Goes.refl (A := A) sound)) view small
  simp only [Passing,step,sat_bind,sat_pure] at copied ⊢
  refine copied.mono (fun _ _ sat => sat.mono ?_ fun _ _ => False.elim) (fun _ _ => False.elim)
  intro vec H' made
  refine ⟨.of_turns made (fewer_of_owner Shared.hold_new_unpromoted),?_⟩
  rintro r ⟨⟩
  exact made.view

theorem into_vec_back_passes {advanced : Nat} {vec : Vec} (sound : Sound H [] (.bytesMut (taken b advanced vec) :: R))
    (fits : (into_vec_back b advanced vec).Fits H v) : Passing A H R v (.into_vec_back b advanced vec) := by
  obtain ⟨start,room,view⟩ := fits
  have word : hold (Handle.bytesMut (taken b advanced vec)).data = .unpromoted advanced := Shared.hold_payload
  have turns := Turns.start (A := A) sound view
  have whole : advanced+(vec.cap-advanced) = vec.cap := by omega
  have spans : Spans H vec.ptr vec.cap := by
    have := (turns.placed.of_unpromoted word).2
    simp only [taken,Handle.ptr,Handle.room,whole] at this
    rw [start] at this
    simpa [Ptr.add,Ptr.sub] using this
  have claim : (Handle.bytesMut (taken b advanced vec)).claim = own vec.ptr vec.cap := by
    rw [claim_own word]
    simp only [taken,Handle.ptr,Handle.room,whole]
    exact own_congr (by rw [start]; rfl)
  have owned := turns.take
  rw [claim] at owned
  have finish : ∀ H', Turns A H R H' [] [(.vec { vec with len := b.len },v)] →
      Passes A H R (into_vec_back b advanced vec).handles H' [.vec { vec with len := b.len }] ∧
      (Next.ret (some (.vec { vec with len := b.len }))).Fits H' v := by
    intro H' made
    refine ⟨.of_turns made (fewer_of_owner Shared.hold_new_unpromoted),?_⟩
    rintro r ⟨⟩
    exact made.view
  have moved := (Bytes.rewind_spec owned spans (by rw [start]; rfl) (k := advanced) (by rw [start]; rfl) (by omega) view).mono
    (fun _ => finish) (fun _ _ => id)
  simp only [Passing,step]
  simp only [sat_ite,sat_bind,sat_pure] at moved ⊢
  refine ⟨fun moves => ⟨fun far => ?_,fun near => ?_⟩,moved.2⟩
  · exact ((moved.1 moves).1 far).mono (fun _ _ => id) (fun _ _ => False.elim)
  · exact ((moved.1 moves).2 near).mono (fun _ _ => id) (fun _ _ => False.elim)

theorem release_passes {h : Handle} {back : Option Handle} (sound : Sound H [] (h :: (back.toList ++ R)))
    (fits : (release h back).Fits H v) : Passing A H R v (.release h back) := by
  obtain ⟨word,view⟩ := fits
  obtain ⟨gone,placed,_⟩ := sound_cons.mp sound
  obtain ⟨boxed,live,addr,_⟩ := placed.of_promoted word
  rw [claim_promoted word] at gone
  obtain ⟨_,_,spans⟩ := sound.nodes _ _ live
  -- what the call returns stays as it is
  have stays : ∀ {H'}, (∀ r ∈ back.toList ++ R, r.view H' = r.view H) → ∀ r, back = some r → r.view H' = some v := by
    rintro H' frame r rfl
    rw [frame r (List.mem_append_left _ List.mem_cons_self)]
    exact view r rfl
  have fewer : ∀ k, (back.toList.map Handle.claim).count (.share k) ≤ ((h :: back.toList).map Handle.claim).count (.share k) :=
    fun _ => List.count_le_count_cons
  simp only [Passing,step,sat_bind]
  rw [sat_of_ok (show Shared.fetch_sub h.data H = _ from Shared.fetch_ok (· - 1) live addr)]
  simp only [sat_ite,sat_pure,sat_bind]
  refine ⟨fun more => ?_,fun one => ?_⟩
  · have goes := Shared.release_more A gone live more
    exact ⟨⟨goes.sound,fun r mem => goes.view r (List.mem_append_right _ mem),goes.later,fewer⟩,stays goes.view⟩
  · rw [sat_of_ok (Shared.deref_ok (Shared.recounted_live _ live) addr),sat_of_ok (from_raw_parts_ok (by exact spans) (Nat.zero_le _))]
    rw [Shared.free,sat_modify,Shared.free_recounted]
    have last := Shared.last_spec A gone live (by omega)
    have word' : hold (Handle.vec ⟨boxed.shared.ptr,0,boxed.shared.cap⟩).data = .unpromoted 0 := Shared.hold_new_unpromoted
    have made := (Turns.of_goes last).put_vec (v := []) spans word' rfl (Nat.zero_add _) (Nat.zero_le _) Memory.load_zero
    refine ⟨⟨made.sound,fun r mem => made.frame r (List.mem_append_right _ mem),made.later,fun k => ?_⟩,stays made.frame⟩
    exact (count_owner word').trans_le (fewer k)

theorem free_passes {vec : Vec} {back : Option Handle}
    (sound : Sound H [] (.vec { vec with len := 0 } :: (back.toList ++ R))) (fits : (free vec back).Fits H v) :
    Passing A H R v (.free vec back) := by
  obtain ⟨gone,placed,_⟩ := sound_cons.mp sound
  have word : hold (Handle.vec { vec with len := 0 }).data = .unpromoted 0 := Shared.hold_new_unpromoted
  have spans := (placed.of_unpromoted word).2
  rw [Nat.zero_add] at spans
  rw [claim_vec] at gone
  simp only [Passing,step,sat_bind,sat_pure]
  refine (vec_drop_spec A gone spans).mono ?_ (fun _ _ => False.elim)
  rintro _ H' ⟨goes,_⟩
  refine ⟨⟨goes.sound,fun r mem => goes.view r (List.mem_append_right _ mem),goes.later,fun k => ?_⟩,?_⟩
  · exact (count_owner word).ge
  · rintro r rfl
    rw [goes.view r (List.mem_append_left _ List.mem_cons_self)]
    exact fits r rfl

/-- The handle of a call is returned in another form, with the same claim. -/
theorem returned {h h' : Handle} (turns : Turns A H R H' [] [(h',v)]) (claim : h'.claim = h.claim) :
    Passes A H R [h] H' (Next.ret (some h')).handles ∧ (Next.ret (some h')).Fits H' v := by
  refine ⟨.of_turns turns fun k => ?_,?_⟩
  · simp only [List.map_cons,List.map_nil,claim]
    exact Nat.le_refl _
  · rintro r ⟨⟩
    exact turns.view

theorem claim_of_word {h h' : Handle} (word : hold h.data = .promoted) (same : h'.data = h.data) : h'.claim = h.claim := by
  rw [claim_promoted word,claim_promoted (same ▸ word),same]

theorem freeze_passes (sound : Sound H [] (.bytesMut m :: R)) (fits : (freeze m).Fits H v) :
    Passing A H R v (.freeze m) := by
  obtain ⟨word,view⟩ := fits
  exact returned (BytesMut.frozen sound view word) (claim_of_word (h := .bytesMut m) word rfl)

theorem as_mut_slice_passes {at_ : Nat} (sound : Sound H [] (.bytesMut m :: R)) (fits : (as_mut_slice m at_ w).Fits H v) :
    Passing A H R v (.as_mut_slice m at_ w) := by
  obtain ⟨u,view,rfl⟩ := fits
  simp only [Passing,step,sat_bind,sat_pure]
  refine (BytesMut.as_mut_slice_spec A sound view).mono ?_ ?_
  · rintro _ H' ⟨_,turns⟩
    exact returned turns rfl
  · rintro k H' ⟨panic,_,same⟩
    exact ⟨panic,same,_,rfl,rfl⟩

theorem reserve_passes (sound : Sound H [] (.bytesMut m :: R)) (fits : (reserve m n).Fits H v) :
    Passing A H R v (.reserve m n) := by
  obtain ⟨word,view⟩ := fits
  have turns := Turns.start (A := A) sound view
  have enough : m.len ≤ m.cap := turns.placed.fits
  obtain ⟨boxed,live,addr,prov,low,high⟩ := turns.placed.of_promoted word
  simp only [Handle.region,Handle.ptr,Handle.room,Handle.data] at live addr prov low high
  have claim : ∀ cap, (Handle.bytesMut { m with cap }).claim = (Handle.bytesMut m).claim :=
    fun cap => claim_of_word (h := .bytesMut m) word rfl
  simp only [Passing,step,sat_bind,sat_usize_sub,sat_ite,sat_pure,sat_check]
  refine ⟨fun _ => ⟨fun _ => returned turns rfl,fun _ => ⟨fun _ => ?_,fun _ => ⟨trivial,trivial,_,rfl,rfl⟩⟩⟩,fun bad => absurd enough bad⟩
  rw [sat_of_ok (Shared.is_unique_ok live addr)]
  refine ⟨fun _ => ⟨(returned turns rfl).1,word,view⟩,fun one => ?_⟩
  have one : boxed.shared.ref_count = 1 := by simpa using one
  rw [sat_of_ok (Shared.deref_ok live addr)]
  simp only [prov,low,forall_const,not_true_eq_false,false_implies,and_true]
  have wide := BytesMut.widened (A := A) sound view word live addr one
    (n := m.cap+(boxed.shared.cap-(m.cap+(m.ptr.addr-boxed.shared.ptr.addr)))) (by omega) (by omega)
  have passes := (returned wide (claim _)).1
  refine ⟨fun _ => ⟨fun _ => returned wide (claim _),fun _ => ⟨fun _ => ⟨fun moves => ?_,fun _ => ?_⟩,fun bad => ?_⟩⟩,fun bad => ?_⟩
  · exact ⟨passes,word,wide.view,moves.2,boxed,live,one,rfl⟩
  · exact ⟨passes,word,wide.view⟩
  · omega
  · omega

theorem reserve_back_passes {shared_ptr : Ptr} (sound : Sound H [] (.bytesMut m :: R))
    (fits : (reserve_back m shared_ptr).Fits H v) : Passing A H R v (.reserve_back m shared_ptr) := by
  obtain ⟨word,view,far,boxed,live,one,rfl⟩ := fits
  obtain ⟨_,live',addr,_,low,_⟩ := (sound_cons.mp sound).2.1.of_promoted word
  cases live.symm.trans live'
  simp only [Handle.region,Handle.ptr] at low
  simp only [Passing,step,sat_bind,sat_usize_sub,sat_pure]
  refine ⟨fun _ => ?_,fun bad => absurd low bad⟩
  refine (BytesMut.moved_back A sound view word live addr one far).mono ?_ (fun _ _ => False.elim)
  rintro _ H' ⟨_,moved⟩
  exact returned moved (claim_of_word (h := .bytesMut m) word rfl)

theorem reserve_copy_passes (sound : Sound H [] (.bytesMut m :: R)) (fits : (reserve_copy m n).Fits H v) :
    Passing A H R v (.reserve_copy m n) := by
  obtain ⟨word,view⟩ := fits
  have enough := (BytesMut.len_le_grown (n := n) sound word).1
  simp only [Passing,step,sat_bind,sat_pure]
  refine (BytesMut.regrow_spec sound view enough Shared.hold_new_unpromoted).mono ?_ ?_
  · intro vec H₁ copy
    refine copy.mono ?_ (fun _ _ => False.elim)
    rintro _ H₂ ⟨_,grown⟩
    have word' : hold (Handle.bytesMut ⟨vec.ptr,m.len,vec.cap,Shared.new_unpromoted⟩).data = .unpromoted 0 :=
      Shared.hold_new_unpromoted
    refine ⟨.of_turns grown.swap fun k => ?_,word,?_⟩
    · have swap := (List.Perm.swap (Handle.bytesMut ⟨vec.ptr,m.len,vec.cap,Shared.new_unpromoted⟩) (.bytesMut m) []).map Handle.claim
      exact (swap.count_eq _).trans_le (count_owner word').le
    · rintro r ⟨⟩
      exact grown.view
  · rintro k H' ⟨panic,_,same⟩
    exact ⟨panic,same,_,rfl,rfl⟩

/-- One step of a call, beside the handles of the other threads. -/
theorem passes (sound : Sound H [] (c.handles ++ R)) (fits : c.Fits H v) : Passing A H R v c := by
  cases c with
  | into_vec b => exact into_vec_passes sound fits
  | into_vec_copy b => exact into_vec_copy_passes sound fits
  | into_vec_back b advanced vec => exact into_vec_back_passes sound fits
  | into_mut b => exact into_mut_passes sound fits
  | into_mut_copy b => exact into_mut_copy_passes sound fits
  | release h back => exact release_passes sound fits
  | free vec back => exact free_passes sound fits
  | reserve m n => exact reserve_passes sound fits
  | reserve_back m shared_ptr => exact reserve_back_passes sound fits
  | reserve_copy m n => exact reserve_copy_passes sound fits
  | freeze m => exact freeze_passes sound fits
  | as_mut_slice m at_ u => exact as_mut_slice_passes sound fits

end Call

/-! ### What a step leaves alone -/

/-- The program does not touch the buffers. -/
def Quiet {α : Type} (x : Exec Heap α) : Prop := ∀ H, Sat x H (fun _ H' => H'.mem = H.mem) (fun _ _ => True)

namespace Quiet
variable {α β : Type} {x : Exec Heap α} {f : α → Exec Heap β} {p data : Ptr}

theorem pure (a : α) : Quiet (Pure.pure a) := fun _ => rfl
theorem bind (one : Quiet x) (two : ∀ a, Quiet (f a)) : Quiet (x >>= f) := fun H =>
  (one H).bind (fun a H₁ same => (two a H₁).mono (fun _ _ same' => same'.trans same) (fun _ _ => id)) (fun _ _ => id)
theorem ite {p : Prop} [Decidable p] {y : Exec Heap α} (one : Quiet x) (two : Quiet y) : Quiet (if p then x else y) := by
  split
  · exact one
  · exact two
theorem check {k : Stop} {p : Prop} [Decidable p] : Quiet (check k p) := fun H => by simp
theorem usize_sub {k n : Nat} : Quiet (usize_sub k n) := fun H => by simp
theorem deref : Quiet (Shared.deref data) := by
  intro H
  simp only [Shared.deref,sat_bind,sat_get]
  split <;> simp
theorem from_raw_parts {k n : Nat} : Quiet (Vec.from_raw_parts p k n) := fun H => by simp [Vec.from_raw_parts]
theorem recount {f : Nat → Nat} : Quiet (Shared.recount data f) := fun _ => rfl
theorem free : Quiet (Shared.free data) := fun _ => rfl
theorem fetch_sub : Quiet (Shared.fetch_sub data) := deref.bind fun _ => recount.bind fun _ => pure _
theorem is_unique : Quiet (Shared.is_unique data) := deref.bind fun _ => pure _
theorem release_into_vec {k : Nat} : Quiet (Shared.release_into_vec data k) :=
  fetch_sub.bind fun _ => ite (pure _) (deref.bind fun _ => from_raw_parts.bind fun _ => free.bind fun _ => pure _)

theorem as_unpromoted : Quiet (Shared.as_unpromoted data) := ite (pure _) (deref.bind fun _ => pure _)
theorem lend {S : Type} {t : S} {y : Exec (Heap × S) α} (quiet : ∀ p, Sat y p (fun _ p' => p'.1.mem = p.1.mem) (fun _ _ => True)) :
    Quiet (lend t y) := fun H => by
  rw [sat_lend]
  exact (quiet (H,t)).mono (fun _ _ => id) (fun _ _ => id)

end Quiet

/-- Moving a handle forward and cutting it short does not touch the buffers. -/
theorem forward_quiet {k : Nat} (p : Heap × BytesMut) : Sat (do BytesMut.advance_unchecked k; BytesMut.set_len n) p
    (fun _ p' => p'.1.mem = p.1.mem) (fun _ _ => True) := by
  simp only [BytesMut.advance_unchecked,BytesMut.set_len,sat_bind,sat_ite,sat_pure,Method.sat_self,Method.sat_put,sat_onFst,
    implies_true,true_and]
  intro _
  refine (Quiet.as_unpromoted p.1).mono (fun o H' same => ?_) (fun _ _ => id)
  cases o <;> simp [Shared.mask_payload,same]

theorem write_stores {p : Ptr} : Sat (Heap.write p w) H (fun _ H' => Memory.Stored H.mem H'.mem p w.length) (fun _ _ => True) := by
  simp only [Heap.write,sat_bind,sat_get,sat_ofOption,sat_set,implies_true,and_true]
  exact fun mem stored => Memory.store_stored stored
theorem copy_stores {p q : Ptr} : Sat (Heap.copy p q n) H (fun _ H' => Memory.Stored H.mem H'.mem q n) (fun _ _ => True) := by
  simp only [Heap.copy,Heap.read,sat_bind,sat_get,sat_ofOption,implies_true,and_true]
  intro u loaded
  exact Memory.load_length loaded ▸ write_stores
theorem copy_nonoverlapping_stores {p q : Ptr} :
    Sat (Heap.copy_nonoverlapping p q n) H (fun _ H' => Memory.Stored H.mem H'.mem q n) (fun _ _ => True) := by
  simp only [Heap.copy_nonoverlapping,sat_bind,sat_check,implies_true,and_true]
  exact fun _ => copy_stores

/-- What can be read can still be read. -/
def Reads (H H' : Heap) : Prop := ∀ p n u, H.mem.load p n = some u → H'.mem.load p n = some u

/-- A new buffer that is filled. -/
theorem fill_reads {α : Type} {f : Vec → Exec Heap α} (k : Nat)
    (fills : ∀ vec H, Sat (f vec) H (fun _ H' => Memory.Stored H.mem H'.mem vec.ptr k) (fun _ _ => True)) (le : k ≤ n) :
    Sat (Vec.with_capacity A n) H (fun vec H₁ => Sat (f vec) H₁ (fun _ H' => Reads H H') (fun _ _ => True))
      (fun _ _ => True) := by
  simp only [Vec.with_capacity,sat_bind,sat_check,sat_ite,sat_pure,sat_get,sat_set,implies_true,and_true]
  refine fun _ => ⟨fun none => ?_,fun some' => ?_⟩
  · refine (fills Vec.new H).mono (fun _ H' stored p n u loaded => stored.load loaded ?_) (fun _ _ => id)
    exact (Region.apart_of_empty (by simp only; omega)).symm
  · refine (fills _ _).mono (fun _ H' stored p n u loaded => stored.load (Memory.load_alloc loaded) ?_) (fun _ _ => id)
    by_cases empty : n = 0
    · exact Region.apart_of_empty (by simp only; omega)
    · obtain ⟨_,live,_⟩ := (Memory.load_eq_some.mp loaded).2 (by omega)
      exact Region.apart_of_prov (Nat.ne_of_lt (Arena.lt_bound live))

theorem to_vec_reads : Sat (Vec.to_vec A w) H (fun _ H' => Reads H H') (fun _ _ => True) := by
  simp only [Vec.to_vec,sat_bind,sat_pure]
  exact fill_reads (f := fun vec => Heap.write vec.ptr w) w.length (fun _ _ => write_stores) (Nat.le_refl _)
theorem copied_reads {α : Type} {f : Vec → α} : Sat (do return f (← Vec.to_vec A (← b.as_slice))) H
    (fun _ H' => Reads H H') (fun _ _ => True) := by
  simp only [Bytes.as_slice,Heap.read,sat_bind,sat_get,sat_ofOption,sat_pure,implies_true,and_true]
  exact fun _ _ => to_vec_reads

namespace Call

/-- A step can read afterwards what it spares. -/
def Leaves (c : Call) (H H' : Heap) : Prop := ∀ p n u, H.mem.load p n = some u → c.Spares p n → H'.mem.load p n = some u

theorem leaves_of_mem (same : H'.mem = H.mem) : c.Leaves H H' := fun _ _ _ loaded _ => same ▸ loaded
theorem leaves_of_reads (reads : Reads H H') : c.Leaves H H' := fun p n u loaded _ => reads p n u loaded
theorem leaves_of_stored {p : Ptr} (stored : Memory.Stored H.mem H'.mem p n)
    (writes : 0 < n → c.writes = some ⟨p.prov,p.addr,p.addr+n⟩) : c.Leaves H H' := by
  intro q k u loaded spares
  refine stored.load loaded ?_
  by_cases none : n = 0
  · exact (Region.apart_of_empty (by simp only; omega)).symm
  by_cases none' : k = 0
  · exact Region.apart_of_empty (by simp only; omega)
  exact (spares (by omega)).2 _ (writes (by omega))

theorem step_leaves (sound : Sound H [] (c.handles ++ R)) (fits : c.Fits H v) :
    Sat (c.step A) H (fun _ H' => c.Leaves H H') (fun _ _ => True) := by
  cases c with
  | into_vec b =>
    have quiet : Quiet ((into_vec b).step A) := Quiet.deref.bind fun _ => Quiet.release_into_vec.bind fun o => by
      cases o with
      | none => exact Quiet.pure _
      | some vec => exact Quiet.check.bind fun _ => Quiet.usize_sub.bind fun _ => Quiet.pure _
    exact (quiet H).mono (fun _ _ => leaves_of_mem) (fun _ _ => id)
  | into_vec_copy b => exact copied_reads.mono (fun _ _ => leaves_of_reads) (fun _ _ => id)
  | into_vec_back b advanced vec =>
    simp only [step,sat_bind,sat_ite,sat_pure]
    refine ⟨fun moved => ⟨fun _ => ?_,fun _ => ?_⟩,fun _ => leaves_of_mem rfl⟩
    · exact copy_nonoverlapping_stores.mono (fun _ _ stored => leaves_of_stored stored fun _ => if_neg moved) (fun _ _ => id)
    · exact copy_stores.mono (fun _ _ stored => leaves_of_stored stored fun _ => if_neg moved) (fun _ _ => id)
  | into_mut b =>
    have quiet : Quiet ((into_mut b).step A) := Quiet.deref.bind fun _ => Quiet.release_into_vec.bind fun o => by
      cases o with
      | none => exact Quiet.pure _
      | some vec => exact Quiet.check.bind fun _ => Quiet.usize_sub.bind fun _ => (Quiet.lend forward_quiet).bind fun _ => Quiet.pure _
    exact (quiet H).mono (fun _ _ => leaves_of_mem) (fun _ _ => id)
  | into_mut_copy b => exact copied_reads.mono (fun _ _ => leaves_of_reads) (fun _ _ => id)
  | release h back =>
    have quiet : Quiet ((release h back).step A) := Quiet.fetch_sub.bind fun _ => Quiet.ite (Quiet.pure _)
      (Quiet.deref.bind fun _ => Quiet.from_raw_parts.bind fun _ => Quiet.free.bind fun _ => Quiet.pure _)
    exact (quiet H).mono (fun _ _ => leaves_of_mem) (fun _ _ => id)
  | free vec back =>
    simp only [step,Vec.drop,sat_bind,sat_ite,sat_pure,sat_get,sat_check,sat_set,implies_true,and_true]
    refine ⟨fun _ => leaves_of_mem rfl,fun some' _ p n u loaded spares => ?_⟩
    refine Memory.load_free (fun more same => ?_) loaded
    exact (spares more).1 (by rw [frees,blockOf,if_neg some',same])
  | reserve m n =>
    have quiet : Quiet ((reserve m n).step A) := Quiet.usize_sub.bind fun _ => Quiet.ite (Quiet.pure _) <|
      Quiet.check.bind fun _ => Quiet.is_unique.bind fun _ => Quiet.ite (Quiet.pure _) <|
      Quiet.deref.bind fun _ => Quiet.check.bind fun _ => Quiet.usize_sub.bind fun _ => Quiet.usize_sub.bind fun _ =>
      Quiet.ite (Quiet.pure _) <| Quiet.usize_sub.bind fun _ => Quiet.ite (Quiet.pure _) (Quiet.pure _)
    exact (quiet H).mono (fun _ _ => leaves_of_mem) (fun _ _ => id)
  | reserve_back m shared_ptr =>
    simp only [step,sat_bind,sat_usize_sub,sat_pure,implies_true,and_true]
    exact fun _ => copy_nonoverlapping_stores.mono (fun _ _ stored => leaves_of_stored stored fun _ => rfl) (fun _ _ => id)
  | reserve_copy m n =>
    simp only [step,sat_bind,sat_pure]
    refine (fill_reads (f := fun vec => Heap.copy_nonoverlapping m.ptr vec.ptr m.len) m.len (fun _ _ => copy_nonoverlapping_stores) (BytesMut.len_le_grown sound fits.1).1).mono ?_ (fun _ _ => id)
    exact fun _ _ fills => fills.mono (fun _ _ => leaves_of_reads) (fun _ _ => id)
  | freeze m => exact leaves_of_mem rfl
  | as_mut_slice m at_ u =>
    simp only [step,BytesMut.as_mut_slice,sat_bind,sat_check,sat_pure,implies_true,and_true]
    exact fun _ => write_stores.mono (fun _ _ stored => leaves_of_stored stored fun _ => rfl) (fun _ _ => id)

end Call
end Tcio
