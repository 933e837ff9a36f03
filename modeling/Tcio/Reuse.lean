import Tcio.Capacity
import Tcio.Views

/-!
When `into_vec` and `into_mut` take a buffer over and when they copy out of it, and what
comes back when a `BytesMut` that is alone on its buffer is frozen and made mutable again.
-/
namespace Tcio
open Exec Ledger Shared

variable {A : Allocator} {H H' : Heap} {C : List Own} {R : List Handle} {b : Bytes} {m : BytesMut} {e : Extent}
variable {v : List UInt8} {n k offset : Nat} {p q : Ptr} {boxed : Boxed}

namespace Bytes

/-- What `is_unique` returns. -/
def unique (H : Heap) (b : Bytes) : Bool :=
  match hold b.data with
  | .null => false
  | .unpromoted _ => true
  | .promoted => (H.nodes.get b.data.prov).any fun boxed => boxed.shared.ref_count == 1

/-- The handle lies in the allocation `e` and holds it, as its word says. -/
structure Lies (H : Heap) (b : Bytes) (e : Extent) : Prop where
  extent : H.mem.extent b.ptr.prov = some e
  low : e.base ≤ b.ptr.addr
  high : b.ptr.addr+b.len ≤ e.base+e.size
  unpromoted : ∀ offset, hold b.data = .unpromoted offset → offset = b.ptr.addr-e.base ∧ b.ptr.addr+b.len = e.base+e.size
  promoted : hold b.data = .promoted → ∃ boxed, H.nodes.get b.data.prov = some boxed ∧ boxed.addr = b.data.addr ∧
    boxed.shared.ptr = ⟨e.base,b.ptr.prov⟩ ∧ boxed.shared.cap = e.size

theorem lies (sound : Sound H C (.bytes b :: R)) (empty : H.mem.extent 0 = some dangling) (holds : hold b.data ≠ .null) :
    ∃ e, b.Lies H e := by
  have placed := (sound_cons.mp sound).2.1
  rcases placed_cases placed with ⟨word,_,_⟩ | ⟨offset,word,low,spans⟩ | ⟨word,boxed,live,addr,prov,low,high⟩
  · exact absurd word holds
  · obtain ⟨e,extent,base,size⟩ := spans.extent empty
    simp only [Ptr.sub_addr,Ptr.sub_prov] at extent base
    refine ⟨e,extent,by omega,by omega,fun offset' word' => ?_,by simp [word]⟩
    cases word.symm.trans word'
    omega
  · obtain ⟨_,_,spans⟩ := sound.nodes _ _ live
    obtain ⟨e,extent,base,size⟩ := spans.extent empty
    rw [← prov] at extent
    exact ⟨e,extent,by omega,by omega,by simp [word],fun _ => ⟨boxed,live,addr,Ptr.ext base.symm prov.symm,size.symm⟩⟩

theorem is_unique_eq (sound : Sound H C (.bytes b :: R)) : b.is_unique H = (.ok (b.unique H),H) := by
  apply run_eq
  simp only [is_unique,unique,sat_ite,sat_bind,sat_pure]
  rcases placed_cases (sound_cons.mp sound).2.1 with ⟨word,_,_⟩ | ⟨offset,word,_⟩ | ⟨word,boxed,live,addr,_⟩
  · have null := is_null_iff.mpr word
    simp [word,null]
  · refine ⟨fun none => absurd none (by simp [not_null,word]),fun _ => ?_⟩
    rw [sat_of_ok (as_unpromoted_offset word)]
    simp [word]
  · refine ⟨fun none => absurd none (by simp [not_null,word]),fun _ => ?_⟩
    rw [sat_of_ok (as_unpromoted_node word live addr)]
    simp [word,live,sat_of_ok (is_unique_ok live addr)]

theorem unique_promoted (word : hold b.data = .promoted) (live : H.nodes.get b.data.prov = some boxed) :
    b.unique H = (boxed.shared.ref_count == 1) := by simp [unique,word,live]

/-! ### Where the result lies -/

/-- The result takes over the buffer that is asked for where `b` is alone on it, and
    nothing is allocated; or else it has a buffer of its own, if any. -/
def Lands (H : Heap) (b : Bytes) (ptr : Ptr) (cap : Nat) (H' : Heap) (h : Handle) : Prop :=
  if b.unique H then H.Quiet H' ∧ h.ptr = ptr ∧ h.room = cap else h.room = 0 ∨ 0 < b.len ∧ h.ptr.prov = H.mem.bound

theorem to_vec_fresh : Sat (Vec.to_vec A v) H (fun vec _ => vec.cap = 0 ∨ v.length ≠ 0 ∧ vec.ptr.prov = H.mem.bound)
    (fun _ _ => True) := by
  simp only [Vec.to_vec,Vec.with_capacity,Heap.write,sat_bind,sat_check,sat_ite,sat_pure,sat_get,sat_set,sat_ofOption]
  refine ⟨fun _ => ⟨fun _ => ⟨fun _ _ => .inl rfl,fun _ => trivial⟩,fun some' => ⟨fun _ _ => ?_,fun _ => trivial⟩⟩,
    fun _ => trivial⟩
  exact .inr ⟨some',trivial⟩

theorem copied_fresh : Sat (do Vec.to_vec A (← b.as_slice)) H
    (fun vec _ => vec.cap = 0 ∨ 0 < b.len ∧ vec.ptr.prov = H.mem.bound) (fun _ _ => True) := by
  simp only [as_slice,Heap.read,sat_bind,sat_get,sat_ofOption]
  refine ⟨fun v loaded => ?_,fun _ => trivial⟩
  have length := Memory.load_length loaded
  refine to_vec_fresh.mono (fun vec _ fresh => ?_) (fun _ _ => id)
  exact fresh.imp id fun new => ⟨by rw [← length]; exact Nat.pos_of_ne_zero new.1,new.2⟩

theorem release_into_vec_quiet {data : Ptr} (live : H.nodes.get data.prov = some boxed) (addr : boxed.addr = data.addr) :
    Sat (Shared.release_into_vec data n) H (fun o H' => H'.mem.bound = H.mem.bound ∧ H.Quiet H' ∧
      o = if boxed.shared.ref_count = 1 then some ⟨boxed.shared.ptr,n,boxed.shared.cap⟩ else none) (fun _ _ => True) := by
  simp only [Shared.release_into_vec,sat_bind]
  rw [sat_of_ok (show fetch_sub data H = _ from fetch_ok (· - 1) live addr)]
  simp only [sat_ite,sat_pure,sat_bind]
  refine ⟨fun more => ?_,fun one => ?_⟩
  · rw [if_neg more]
    exact ⟨rfl,⟨rfl,rfl⟩,rfl⟩
  · rw [sat_of_ok (deref_ok (recounted_live _ live) addr)]
    simp only [Vec.from_raw_parts,Shared.free,sat_bind,sat_get,sat_check,sat_pure,sat_modify]
    refine ⟨fun _ => ?_,fun _ => trivial⟩
    rw [if_pos (by omega)]
    exact ⟨rfl,⟨rfl,rfl⟩,rfl⟩

theorem rewind_quiet : Sat (if k ≠ 0 then
      if k ≥ n then Heap.copy_nonoverlapping p q n else Heap.copy p q n
    else pure ()) H (fun _ H' => H.Quiet H') (fun _ _ => True) := by
  simp only [sat_ite,sat_pure]
  refine ⟨fun _ => ⟨fun _ => ?_,fun _ => ?_⟩,fun _ => .refl H⟩
  · exact copy_quiet.mono (fun _ _ => id) (fun _ _ _ => trivial)
  · simp only [Heap.copy,Heap.read,sat_bind,sat_get,sat_ofOption]
    exact ⟨fun _ _ => write_quiet.mono (fun _ _ => id) (fun _ _ _ => trivial),fun _ => trivial⟩

theorem lands_alone {ptr : Ptr} {cap : Nat} {h : Handle} (alone : b.unique H = true) :
    b.Lands H ptr cap H' h ↔ H.Quiet H' ∧ h.ptr = ptr ∧ h.room = cap := by simp [Lands,alone]
theorem lands_shared {ptr : Ptr} {cap : Nat} {h : Handle} (others : b.unique H = false) :
    b.Lands H ptr cap H' h ↔ h.room = 0 ∨ 0 < b.len ∧ h.ptr.prov = H.mem.bound := by simp [Lands,others]

theorem into_vec_lands (lies : hold b.data ≠ .null → b.Lies H e) : Sat (into_vec A b) H
    (fun vec H' => b.Lands H ⟨e.base,b.ptr.prov⟩ e.size H' (.vec vec)) (fun _ _ => True) := by
  simp only [into_vec,sat_bind,sat_ite]
  cases word : hold b.data with
  | null =>
    refine ⟨fun _ => ?_,fun some' => absurd (is_null_iff.mpr word) some'⟩
    have copied := copied_fresh (A := A) (b := b) (H := H)
    simp only [lands_shared (show b.unique H = false by simp [unique,word]),Handle.room,Handle.ptr]
    simpa only [sat_bind] using copied
  | unpromoted offset =>
    have alone : b.unique H = true := by simp [unique,word]
    refine ⟨fun none => absurd none (by simp [not_null,word]),fun _ => ?_⟩
    obtain ⟨extent,low,high,owner,_⟩ := lies (by simp [word])
    obtain ⟨same,all⟩ := owner offset word
    rw [sat_of_ok (show into_unpromoted b.data H = _ from as_unpromoted_offset word)]
    simp only [build_unpromoted_vec,Vec.from_raw_parts,sat_bind,sat_pure,sat_get,sat_check]
    refine ⟨fun _ => ?_,fun _ => trivial⟩
    have moved := rewind_quiet (H := H) (k := offset) (n := b.len) (p := b.ptr) (q := b.ptr.sub offset)
    have start : b.ptr.sub offset = ⟨e.base,b.ptr.prov⟩ := Ptr.ext (by simp only [Ptr.sub]; omega) rfl
    have all : b.len+offset = e.size := by omega
    simpa only [sat_ite,sat_bind,sat_pure,lands_alone alone,Handle.ptr,Handle.room,start,all,and_true] using moved
  | promoted =>
    refine ⟨fun none => absurd none (by simp [not_null,word]),fun _ => ?_⟩
    obtain ⟨extent,low,high,_,onNode⟩ := lies (by simp [word])
    obtain ⟨boxed,live,addr,ptr,cap⟩ := onNode word
    rw [sat_of_ok (show into_unpromoted b.data H = _ from as_unpromoted_node word live addr)]
    simp only [sat_bind]
    rw [sat_of_ok (deref_ok live addr)]
    refine (release_into_vec_quiet live addr).mono ?_ (fun _ _ => id)
    rintro o H₁ ⟨bound,quiet,found⟩
    by_cases one : boxed.shared.ref_count = 1
    · rw [if_pos one] at found
      subst found
      have alone : b.unique H = true := by simp [unique_promoted word live,one]
      simp only [sat_bind,sat_check,sat_usize_sub,sat_pure]
      refine ⟨fun _ => ⟨fun _ => ?_,fun _ => trivial⟩,fun _ => trivial⟩
      have moved := rewind_quiet (H := H₁) (k := b.ptr.addr-boxed.shared.ptr.addr) (n := b.len) (p := b.ptr)
        (q := boxed.shared.ptr)
      have moved := moved.mono (fun _ _ quiet' => quiet.trans quiet') (fun _ _ => id)
      simpa only [sat_ite,sat_bind,sat_pure,lands_alone alone,Handle.ptr,Handle.room,ptr,cap,and_true] using moved
    · rw [if_neg one] at found
      subst found
      have others : b.unique H = false := by simp [unique_promoted word live,one]
      simp only [lands_shared others,Handle.room,Handle.ptr]
      have copied := copied_fresh (A := A) (b := b) (H := H₁)
      rw [bound] at copied
      simpa only [sat_bind,sat_pure] using copied

/-- A `BytesMut` made of a vector starts where it does, after `k` bytes were left out. -/
theorem advance_from_vec {vec : Vec} : Sat (BytesMut.advance_unchecked k) (H,BytesMut.from_vec vec)
    (fun _ p => p.1 = H ∧ p.2.ptr = vec.ptr.add k ∧ p.2.cap = vec.cap-k) (fun _ _ => True) := by
  simp only [BytesMut.advance_unchecked,sat_ite,sat_pure,sat_bind,Method.sat_self,sat_onFst]
  refine ⟨fun none => by subst none; exact ⟨trivial,rfl,rfl⟩,fun _ => ?_⟩
  rw [sat_of_ok (as_unpromoted_offset (show hold (BytesMut.from_vec vec).data = .unpromoted 0 from hold_new_unpromoted))]
  simp only [Shared.mask_payload,sat_bind,sat_check,sat_pure,sat_usize_sub,Method.sat_put]
  exact ⟨fun _ => ⟨fun _ => ⟨fun _ => ⟨trivial,rfl,rfl⟩,fun _ => trivial⟩,fun _ => trivial⟩,fun _ => trivial⟩

theorem into_mut_lands (lies : hold b.data ≠ .null → b.Lies H e) : Sat (into_mut A b) H
    (fun m H' => b.Lands H b.ptr (e.size-(b.ptr.addr-e.base)) H' (.bytesMut m)) (fun _ _ => True) := by
  have copied : ∀ H₁ : Heap, b.unique H = false → H₁.mem.bound = H.mem.bound →
      Sat (do return BytesMut.from_vec (← Vec.to_vec A (← b.as_slice))) H₁
        (fun m H' => b.Lands H b.ptr (e.size-(b.ptr.addr-e.base)) H' (.bytesMut m)) (fun _ _ => True) := by
    intro H₁ others bound
    have fresh := copied_fresh (A := A) (b := b) (H := H₁)
    rw [bound] at fresh
    simp only [lands_shared others,Handle.room,Handle.ptr]
    simpa only [sat_bind,sat_pure,BytesMut.from_vec] using fresh
  simp only [into_mut,sat_bind,sat_ite,sat_pure] at copied ⊢
  cases word : hold b.data with
  | null =>
    refine ⟨fun _ => ?_,fun some' => absurd (is_null_iff.mpr word) some'⟩
    exact copied H (by simp [unique,word]) rfl
  | unpromoted offset =>
    have alone : b.unique H = true := by simp [unique,word]
    refine ⟨fun none => absurd none (by simp [not_null,word]),fun _ => ?_⟩
    obtain ⟨extent,low,high,owner,_⟩ := lies (by simp [word])
    obtain ⟨same,all⟩ := owner offset word
    rw [sat_of_ok (show into_unpromoted b.data H = _ from as_unpromoted_offset word)]
    simp only [build_unpromoted_vec,Vec.from_raw_parts,sat_bind,sat_pure,sat_get,sat_check,sat_lend]
    refine ⟨fun _ => ?_,fun _ => trivial⟩
    refine advance_from_vec.mono ?_ (fun _ _ => id)
    rintro _ p ⟨still,ptr,cap⟩
    refine (lands_alone alone).mpr ⟨still ▸ .refl H,ptr.trans (Ptr.ext ?_ rfl),cap.trans ?_⟩
    · simp only [Ptr.sub,Ptr.add]
      omega
    · simp only
      omega
  | promoted =>
    refine ⟨fun none => absurd none (by simp [not_null,word]),fun _ => ?_⟩
    obtain ⟨extent,low,high,_,onNode⟩ := lies (by simp [word])
    obtain ⟨boxed,live,addr,ptr,cap⟩ := onNode word
    rw [sat_of_ok (show into_unpromoted b.data H = _ from as_unpromoted_node word live addr)]
    simp only [sat_bind]
    rw [sat_of_ok (deref_ok live addr)]
    refine (release_into_vec_quiet live addr).mono ?_ (fun _ _ => id)
    rintro o H₁ ⟨bound,quiet,found⟩
    by_cases one : boxed.shared.ref_count = 1
    · rw [if_pos one] at found
      subst found
      have alone : b.unique H = true := by simp [unique_promoted word live,one]
      simp only [sat_bind,sat_check,sat_usize_sub,sat_lend,sat_pure,BytesMut.set_len,Method.sat_self,Method.sat_put]
      refine ⟨fun _ => ⟨fun _ => ?_,fun _ => trivial⟩,fun _ => trivial⟩
      refine advance_from_vec.mono ?_ (fun _ _ => id)
      rintro _ p ⟨still,start,all⟩
      refine (lands_alone alone).mpr ⟨still ▸ quiet,start.trans (Ptr.ext ?_ ?_),all.trans ?_⟩
      · simp only [Ptr.add,ptr]
        omega
      · simp only [Ptr.add,ptr]
      · simp only [cap,ptr]
    · rw [if_neg one] at found
      subst found
      simp only [sat_bind,sat_pure]
      exact copied H₁ (by simp [unique_promoted word live,one]) bound

/-! ### Frozen and made mutable again -/

/-- A handle further on holds what it held. -/
theorem advanced_unique : (b.advanced k).unique H = b.unique H ∧ (hold (b.advanced k).data = .null ↔ hold b.data = .null) := by
  simp only [unique,advanced]
  cases word : hold b.data <;> simp [word]

/-- A vector with something in it becomes a handle that is alone on it. -/
theorem from_vec_unique {vec : Vec} (some' : vec.len ≠ 0) : Sat (from_vec A vec) H
    (fun b H' => H'.mem = H.mem ∧ b.ptr = vec.ptr ∧ b.len = vec.len ∧ b.unique H' = true ∧ hold b.data ≠ .null ∧
      ∀ offset, hold b.data = .unpromoted offset → offset = 0) (fun _ _ => True) := by
  simp only [from_vec,some',sat_ite,sat_bind,sat_pure,false_implies,not_false_eq_true,forall_const,true_and,
    Shared.promote_with_vec,sat_get,sat_set]
  refine ⟨fun _ => ?_,fun _ => ?_⟩
  · simp [unique]
  · have word : hold ⟨A.node H,H.nodes.bound⟩ = .promoted := hold_promoted.mpr (by have := A.aligned H; simp only; omega)
    simp [unique,word]

end Bytes

theorem BytesMut.freeze_unique (lies : m.Lies H e) (alone : m.unique H = true) (some' : 0 < m.head H+m.len) :
    Sat (m.freeze A) H (fun b H' => H'.mem = H.mem ∧ b.ptr = m.ptr ∧ b.unique H' = true ∧ hold b.data ≠ .null)
      (fun _ _ => True) := by
  have low := lies.low
  have high := lies.high
  have small := lies.small
  have head := lies.head
  have fits := lies.fits
  rw [isizeMax] at small
  simp only [freeze,sat_bind]
  cases word : hold m.data with
  | null => exact absurd word lies.word
  | unpromoted offset =>
    obtain ⟨same,_⟩ := lies.unpromoted offset word
    rw [sat_of_ok (as_unpromoted_offset word)]
    simp only [original_buffer,Vec.from_raw_parts,sat_bind,sat_get,sat_check,sat_pure,sat_lend]
    refine ⟨fun _ => ?_,fun _ => trivial⟩
    refine (Bytes.from_vec_unique (by simp only; omega)).mono ?_ (fun _ _ => id)
    rintro b H' ⟨mem,ptr,len,unique,holds,start⟩
    have low' : ∀ o, hold b.data = .unpromoted o → o+offset < 2^63 := by
      intro o word'
      have := start o word'
      omega
    simp only [Bytes.advance,sat_bind,Method.sat_self,sat_check]
    refine ⟨fun inside => ?_,fun _ => trivial⟩
    rw [sat_of_ok (Bytes.advance_unchecked_ok inside low')]
    obtain ⟨keeps,still⟩ := Bytes.advanced_unique (H := H') (b := b) (k := offset)
    refine ⟨mem,?_,keeps.trans unique,fun none => holds (still.mp none)⟩
    simp only [Bytes.advanced,ptr]
    exact Ptr.ext (by simp only [Ptr.sub,Ptr.add]; omega) rfl
  | promoted =>
    obtain ⟨boxed,live,addr,_⟩ := lies.promoted word
    rw [sat_of_ok (as_unpromoted_node word live addr)]
    simp only [sat_pure,Bytes.from_mut,word]
    refine ⟨trivial,trivial,?_,by simp⟩
    simpa [Bytes.unique,BytesMut.unique,word] using alone

namespace World
variable {w₀ w w' : World} {i : Nat} {h : Handle} {α : Type}

/-! ### Conversions of the handle in a slot -/

/-- The value moves out of its slot and becomes another with the same view, which gets a
    slot of its own. -/
theorem moved (inj : α → Handle) {x : Exec Heap α} {Q : α → Heap → Prop} (A : Allocator) (sound : w.Sound) (here : w.slot i = some h)
    (spec : ∀ v, h.view w.heap = some v → Tcio.Sound w.heap [] (h :: w.rest i) → Sat x w.heap (fun a H' =>
      Turns A w.heap (w.rest i) H' [] [(inj a,v)] ∧ Q a H') (fun _ _ => False)) :
    Sat (do push (inj (← onHeap x)); return Outcome.done) (w.without i) (fun out w' => out = .done ∧ ∃ a V,
      Settles A w w' V ∧ w'.slot w.pool.length = some (inj a) ∧ w'.pool.length = w.pool.length+1 ∧
        w'.views[w.pool.length]? = w.views[i]? ∧ Q a w'.heap) (fun _ _ => False) := by
  obtain ⟨v,viewed,view,focused⟩ := sound.focus here
  simp only [onHeap,push,without,sat_bind,sat_zoom,sat_modify,sat_pure]
  refine (spec v view focused).mono ?_ (fun _ _ => id)
  rintro a H' ⟨turns,holds⟩
  have settles := settle_move turns
  have long : (w.pool.set i none).length = w.pool.length := List.length_set
  have long' : (w.views.set i none).length = w.pool.length := by simp [views]
  refine ⟨trivial,a,_,settles,?_,?_,?_,holds⟩
  · rw [slot_eq_some,← long]
    exact List.getElem?_concat_length
  · simp
  · rw [settles.views,viewed,← long']
    exact List.getElem?_concat_length

/-- Where `u`, which is what `is_unique` returned, the new handle is on the buffer that `b` was
    on, at the given place, and nothing is allocated; otherwise it is on a new one, if on any. -/
structure Reuses (w w' : World) (b : Bytes) (u : Bool) (h : Handle) (ptr : Extent → Ptr) (room : Extent → Nat) : Prop where
  reused : u = true → w.heap.Quiet w'.heap ∧ ∃ e, w.heap.mem.extent b.ptr.prov = some e ∧ h.ptr = ptr e ∧ h.room = room e
  copied : u = false → h.room = 0 ∨ h.ptr.prov = w.heap.mem.bound
  only : 0 < h.room → (h.ptr.prov = b.ptr.prov ↔ u = true)

/-- `into_vec` and `into_mut` take the buffer over exactly if `is_unique` returned true just
    before: a vector from the start of the allocation, or a `BytesMut` from where `b` is to
    the end of it. -/
def ConvertsWell (A : Allocator) (w : World) (i : Nat) (b : Bytes) : Prop :=
  ∃ u, b.is_unique w.heap = (.ok u,w.heap) ∧
    (∃ w' v, exec A (.into_vec i) w = (.ok .done,w') ∧ w'.slot w.pool.length = some (.vec v) ∧
      w'.views[w.pool.length]? = w.views[i]? ∧ Reuses w w' b u (.vec v) (fun e => ⟨e.base,b.ptr.prov⟩) Extent.size) ∧
    ∃ w' m, exec A (.into_mut i) w = (.ok .done,w') ∧ w'.slot w.pool.length = some (.bytesMut m) ∧
      w'.views[w.pool.length]? = w.views[i]? ∧
      Reuses w w' b u (.bytesMut m) (fun _ => b.ptr) (fun e => e.size-(b.ptr.addr-e.base))

/-- Frozen and made mutable again, the handle is where it was, with its bytes and no less
    capacity. -/
def ThawsWell (A : Allocator) (w : World) (i : Nat) (m : BytesMut) : Prop :=
  ∃ w₁ w₂ m', exec A (.freeze i) w = (.ok .done,w₁) ∧ exec A (.into_mut w.pool.length) w₁ = (.ok .done,w₂) ∧
    w₂.slot w₁.pool.length = some (.bytesMut m') ∧ m'.ptr = m.ptr ∧ w₂.views[w₁.pool.length]? = w.views[i]? ∧ m.cap ≤ m'.cap

/-- A run that has led to a sound state, from which `op` returns. -/
theorem returns {op : Op} {Q : Outcome → World → Prop} (sat : Sat (exec A op) w Q (fun _ _ => False)) :
    ∃ out w', exec A op w = (.ok out,w') ∧ Q out w' := by
  rcases sat.cases with ⟨out,w',ran,holds⟩ | ⟨_,_,_,no⟩
  · exact ⟨out,w',ran,holds⟩
  · exact no.elim

theorem reuses_of_lands {b : Bytes} {h : Handle} {ptr : Ptr} {room : Nat} {e : Extent} (sound : Tcio.Sound w.heap [] (.bytes b :: R))
    (lies : hold b.data ≠ .null → b.Lies w.heap e) (lands : b.Lands w.heap ptr room w'.heap h) (same : ptr.prov = b.ptr.prov)
    {ptr' : Extent → Ptr} {room' : Extent → Nat} (at_ : ptr' e = ptr) (size : room' e = room) :
    Reuses w w' b (b.unique w.heap) h ptr' room' := by
  cases unique : b.unique w.heap with
  | true =>
    obtain ⟨quiet,here,cap⟩ := (Bytes.lands_alone unique).mp lands
    have holds : hold b.data ≠ .null := fun null => by simp [Bytes.unique,null] at unique
    refine ⟨fun _ => ⟨quiet,e,(lies holds).extent,by rw [at_,here],by rw [size,cap]⟩,nofun,fun _ => ?_⟩
    simp [here,same]
  | false =>
    have fresh := (Bytes.lands_shared unique).mp lands
    refine ⟨nofun,fun _ => fresh.imp id And.right,fun some' => ?_⟩
    obtain ⟨more,new⟩ := fresh.resolve_left (by omega)
    have live : ∃ e, w.heap.mem.extent b.ptr.prov = some e := by
      cases word : hold b.data with
      | null =>
        obtain ⟨_,e,extent,_⟩ := ((sound.placed _ List.mem_cons_self).of_null word).2.2 more
        exact ⟨e,extent⟩
      | unpromoted offset => exact ⟨e,(lies (by simp [word])).extent⟩
      | promoted => exact ⟨e,(lies (by simp [word])).extent⟩
    obtain ⟨e,extent⟩ := live
    obtain ⟨block,found,_⟩ := Memory.extent_eq_some.mp extent
    have low := Arena.lt_bound found
    simp only [Bool.false_eq_true,iff_false]
    omega

theorem exec_into_vec {b : Bytes} {e : Extent} (sound : w.Sound) (here : w.slot i = some (.bytes b))
    (lies : hold b.data ≠ .null → b.Lies w.heap e) : Sat (exec A (.into_vec i)) w (fun out w' => out = .done ∧ ∃ v V,
      Settles A w w' V ∧ w'.slot w.pool.length = some (.vec v) ∧ w'.pool.length = w.pool.length+1 ∧
        w'.views[w.pool.length]? = w.views[i]? ∧ b.Lands w.heap ⟨e.base,b.ptr.prov⟩ e.size w'.heap (.vec v))
      (fun _ _ => False) := by
  simp only [exec]
  rw [sat_bind]
  refine sat_move_bytes (fun b' here' => ?_) (fun none => absurd ⟨b,here⟩ none)
  cases here.symm.trans here'
  refine moved Handle.vec (Q := fun v H' => b.Lands w.heap ⟨e.base,b.ptr.prov⟩ e.size H' (.vec v)) A sound here ?_
  intro v view focused
  exact ((Bytes.into_vec_spec focused view).and (Bytes.into_vec_lands lies)).mono (fun _ _ => id) (fun _ _ no => no.1)

theorem exec_into_mut {b : Bytes} {e : Extent} (sound : w.Sound) (here : w.slot i = some (.bytes b))
    (lies : hold b.data ≠ .null → b.Lies w.heap e) : Sat (exec A (.into_mut i)) w (fun out w' => out = .done ∧ ∃ m V,
      Settles A w w' V ∧ w'.slot w.pool.length = some (.bytesMut m) ∧ w'.pool.length = w.pool.length+1 ∧
        w'.views[w.pool.length]? = w.views[i]? ∧
        b.Lands w.heap b.ptr (e.size-(b.ptr.addr-e.base)) w'.heap (.bytesMut m)) (fun _ _ => False) := by
  simp only [exec]
  rw [sat_bind]
  refine sat_move_bytes (fun b' here' => ?_) (fun none => absurd ⟨b,here⟩ none)
  cases here.symm.trans here'
  refine moved Handle.bytesMut
    (Q := fun m H' => b.Lands w.heap b.ptr (e.size-(b.ptr.addr-e.base)) H' (.bytesMut m)) A sound here ?_
  intro v view focused
  exact ((Bytes.into_mut_spec focused view).and (Bytes.into_mut_lands lies)).mono (fun _ _ => id) (fun _ _ no => no.1)

theorem exec_freeze {e : Extent} (sound : w.Sound) (here : w.slot i = some (.bytesMut m)) (lies : m.Lies w.heap e)
    (alone : m.unique w.heap = true) (some' : 0 < m.head w.heap+m.len) : Sat (exec A (.freeze i)) w (fun out w' => out = .done ∧
      ∃ b V, Settles A w w' V ∧ w'.slot w.pool.length = some (.bytes b) ∧ w'.pool.length = w.pool.length+1 ∧
        w'.views[w.pool.length]? = w.views[i]? ∧
        w'.heap.mem = w.heap.mem ∧ b.ptr = m.ptr ∧ b.unique w'.heap = true ∧ hold b.data ≠ .null)
      (fun _ _ => False) := by
  simp only [exec]
  rw [sat_bind]
  refine sat_move_bytes_mut (fun m' here' => ?_) (fun none => absurd ⟨m,here⟩ none)
  cases here.symm.trans here'
  refine moved Handle.bytes
    (Q := fun b H' => H'.mem = w.heap.mem ∧ b.ptr = m.ptr ∧ b.unique H' = true ∧ hold b.data ≠ .null) A sound here ?_
  intro v view focused
  exact ((BytesMut.freeze_spec focused view).and (BytesMut.freeze_unique lies alone some')).mono (fun _ _ => id)
    (fun _ _ no => no.1)

/-! ### In every state -/

theorem converts_well {b : Bytes} (sound : w.Sound) (empty : w.heap.mem.extent 0 = some dangling)
    (here : w.slot i = some (.bytes b)) : ConvertsWell A w i b := by
  obtain ⟨_,_,_,focused⟩ := sound.focus here
  have lies : ∃ e, hold b.data ≠ .null → b.Lies w.heap e := by
    by_cases holds : hold b.data = .null
    · exact ⟨dangling,fun no => absurd holds no⟩
    · obtain ⟨e,lies⟩ := Bytes.lies focused empty holds
      exact ⟨e,fun _ => lies⟩
  obtain ⟨e,lies⟩ := lies
  refine ⟨b.unique w.heap,Bytes.is_unique_eq focused,?_,?_⟩
  · obtain ⟨_,w',ran,rfl,v,_,_,there,_,viewed,lands⟩ := returns (exec_into_vec (A := A) sound here lies)
    exact ⟨w',v,ran,there,viewed,reuses_of_lands focused lies lands rfl rfl rfl⟩
  · obtain ⟨_,w',ran,rfl,m,_,_,there,_,viewed,lands⟩ := returns (exec_into_mut (A := A) sound here lies)
    exact ⟨w',m,ran,there,viewed,reuses_of_lands focused lies lands rfl rfl rfl⟩

theorem thaws_well (sound : w.Sound) (empty : w.heap.mem.extent 0 = some dangling) (here : w.slot i = some (.bytesMut m))
    (alone : m.unique w.heap = true) (some' : 0 < m.head w.heap+m.len) : ThawsWell A w i m := by
  obtain ⟨_,_,_,focused⟩ := sound.focus here
  obtain ⟨e,lies⟩ := BytesMut.lies focused empty
  obtain ⟨_,w₁,ran,rfl,b,_,settles,there,_,viewed,mem,ptr,unique,holds⟩ :=
    returns (exec_freeze (A := A) sound here lies alone some')
  obtain ⟨_,_,_,focused'⟩ := settles.sound.focus there
  have empty' : w₁.heap.mem.extent 0 = some dangling := by rw [mem,empty]
  obtain ⟨e',lies'⟩ := Bytes.lies focused' empty' holds
  have same : e' = e := by
    have extent := lies'.extent
    rw [mem,ptr,lies.extent] at extent
    cases extent
    rfl
  subst same
  obtain ⟨_,w₂,ran',rfl,m',_,_,there',_,viewed',lands⟩ := returns (exec_into_mut (A := A) settles.sound there fun _ => lies')
  obtain ⟨_,start,room⟩ := (Bytes.lands_alone unique).mp lands
  refine ⟨w₁,w₂,m',ran,ran',there',?_,viewed'.trans viewed,?_⟩
  · exact Eq.trans start ptr
  · have high := lies.high
    have low := lies.low
    simp only [Handle.room,ptr] at room
    omega

/-- In every state of a run that joins no handles of different nodes the conversions of each
    handle are as they are to be. -/
theorem run_converts (initial : w₀.Initial) (run : JoinableRun A w₀ w) :
    (∀ i b, w.slot i = some (.bytes b) → ConvertsWell A w i b) ∧
    ∀ i m, w.slot i = some (.bytesMut m) → m.unique w.heap = true → 0 < m.head w.heap+m.len → ThawsWell A w i m :=
  ⟨fun _ _ here => converts_well (run_sound initial run) (run_dangling initial run) here,
    fun _ _ here alone some' => thaws_well (run_sound initial run) (run_dangling initial run) here alone some'⟩

/-- A frozen and a mutable copy. -/
def copies : List Op := [.bytes_copy_from_slice [1,2,3],.bytes_mut_copy_from_slice [4,5]]

theorem copies_slots : (play (bump 0) copies (start [])).map (fun w => (w.slot 0,w.slot 1)) =
    some (some (.bytes ⟨⟨16,2⟩,3,⟨1,0⟩⟩),some (.bytesMut ⟨⟨19,3⟩,2,2,⟨1,0⟩⟩)) := by
  decide +kernel

theorem run_converts_copies : ∃ w, JoinableRun (bump 0) (start []) w ∧ ConvertsWell (bump 0) w 0 ⟨⟨16,2⟩,3,⟨1,0⟩⟩ ∧
    ThawsWell (bump 0) w 1 ⟨⟨19,3⟩,2,2,⟨1,0⟩⟩ := by
  obtain ⟨w,played,slots⟩ := Option.map_eq_some_iff.mp copies_slots
  simp only [Prod.mk.injEq] at slots
  have run := plain_run (by decide) played
  obtain ⟨converts,thaws⟩ := run_converts (start_initial []) run
  exact ⟨w,run,converts 0 _ slots.1,thaws 1 _ slots.2 (by simp [BytesMut.unique,hold]) (by simp)⟩

/-- The handle that took another buffer over, frozen and made mutable again. -/
theorem meeting_thawed : (play (bump 0) (meeting++[.try_unsplit 1 3]) (start [])).map (fun w => (w.slot 1,w.pool.length,
    BytesMut.unique w.heap ⟨⟨16,2⟩,3,3,⟨8,0⟩⟩,(exec (bump 0) (.freeze 1) w).2.pool.length,
    (exec (bump 0) (.into_mut 6) (exec (bump 0) (.freeze 1) w).2).2.slot 7)) =
    some (some (.bytesMut ⟨⟨16,2⟩,3,3,⟨8,0⟩⟩),6,true,7,some (.bytesMut ⟨⟨16,2⟩,3,2,⟨1,0⟩⟩)) := by
  decide +kernel

/-- It has lost capacity: less than its own view is left. -/
theorem meeting_shrinks : ¬ ∀ (A : Allocator) (w₀ w : World), w₀.Initial → Run A w₀ w →
    (∀ i b, w.slot i = some (.bytes b) → ConvertsWell A w i b) ∧
    ∀ i m, w.slot i = some (.bytesMut m) → m.unique w.heap = true → 0 < m.head w.heap+m.len → ThawsWell A w i m := by
  intro claim
  obtain ⟨w,played,found⟩ := Option.map_eq_some_iff.mp meeting_thawed
  simp only [Prod.mk.injEq] at found
  obtain ⟨here,length,alone,length',thawed⟩ := found
  have run : Run (bump 0) (start []) w := play_run (fun op _ _ _ step => ⟨op,step⟩) played
  obtain ⟨w₁,w₂,m',frozen,ran,there,_,_,kept⟩ := (claim _ _ w (start_initial []) run).2 1 _ here alone (by simp)
  rw [length] at ran
  rw [frozen] at thawed length'
  simp only at thawed length'
  rw [ran] at thawed
  simp only at thawed
  rw [length',thawed] at there
  cases there
  revert kept
  decide

end World
end Tcio
