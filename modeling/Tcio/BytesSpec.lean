import Tcio.BytesMutSpec

/-!
What the methods of `Bytes` and the conversions between the types do on a sound heap.
-/
namespace Tcio
open Exec Ledger Shared

variable {A : Allocator} {H H₀ H' : Heap} {C : List Own} {R P : List Handle} {b : Bytes}
variable {v w : List UInt8} {n k offset at_ cap : Nat} {boxed : Boxed} {p : Ptr}

namespace Bytes

/-- What a `Bytes` can be: a static view, the owner of its buffer, which it views to the
    end, or one of the handles on a node. -/
theorem placed_cases (placed : Placed H (.bytes b)) :
    (hold b.data = .null ∧ b.data = Shared.null ∧ (0 < b.len → b.len ≤ isizeMax ∧ ∃ e, H.mem.extent b.ptr.prov = some e ∧ e.frozen = true)) ∨
    (∃ offset, hold b.data = .unpromoted offset ∧ offset ≤ b.ptr.addr ∧ Spans H (b.ptr.sub offset) (offset+b.len)) ∨
    (hold b.data = .promoted ∧ ∃ boxed, H.nodes.get b.data.prov = some boxed ∧ boxed.addr = b.data.addr ∧
      b.ptr.prov = boxed.shared.ptr.prov ∧ boxed.shared.ptr.addr ≤ b.ptr.addr ∧
      b.ptr.addr+b.len ≤ boxed.shared.ptr.addr+boxed.shared.cap) := by
  cases word : hold b.data with
  | null => exact .inl ⟨rfl,(placed.of_null word).2⟩
  | unpromoted offset => exact .inr (.inl ⟨offset,rfl,placed.of_unpromoted word⟩)
  | promoted =>
    obtain ⟨boxed,live,addr,prov,low,high⟩ := placed.of_promoted word
    exact .inr (.inr ⟨rfl,boxed,live,addr,prov,low,high⟩)

theorem not_null (word : hold b.data ≠ .null) : is_null b.data = false := by
  rw [Bool.eq_false_iff,ne_eq,is_null_iff]
  exact word

theorem claim_unpromoted (word : hold b.data = .unpromoted offset) :
    (Handle.bytes b).claim = own (b.ptr.sub offset) (b.len+offset) := by
  have word' : hold (Handle.bytes b).data = .unpromoted offset := word
  rw [claim_own word',Nat.add_comm]
  exact own_congr rfl

theorem build_unpromoted_vec_ok (spans : Spans H (b.ptr.sub offset) (offset+b.len)) :
    b.build_unpromoted_vec offset H = (.ok ⟨b.ptr.sub offset,b.len+offset,b.len+offset⟩,H) :=
  from_raw_parts_ok (by rw [Nat.add_comm]; exact spans) (Nat.le_refl _)

theorem len_small (sound : Sound H C (.bytes b :: R)) : b.len ≤ isizeMax := by
  obtain ⟨_,placed,_⟩ := sound_cons.mp sound
  rcases placed_cases placed with ⟨_,_,more⟩ | ⟨_,_,_,spans⟩ | ⟨_,boxed,live,_,_,low,high⟩
  · by_cases none : b.len = 0
    · omega
    · exact (more (by omega)).1
  · have := spans.small
    omega
  · have := (sound.nodes _ _ live).2.2.small
    omega

/-- A handle that is dropped gives up its claim. -/
theorem drop_spec (A : Allocator) (sound : Sound H ((Handle.bytes b).claim :: C) P) (placed : Placed H (.bytes b)) :
    Sat b.drop H (fun _ H' => Goes A H P H' C) (fun _ _ => False) := by
  simp only [Bytes.drop,drop_inner,sat_ite,sat_bind,sat_pure]
  rcases placed_cases placed with ⟨word,_⟩ | ⟨offset,word,low,spans⟩ | ⟨word,boxed,live,addr,_⟩
  · rw [show (Handle.bytes b).claim = .idle from claim_null word,sound_idle] at sound
    exact ⟨fun _ => .refl sound,fun some' => absurd (is_null_iff.mpr word) some'⟩
  · refine ⟨fun none => absurd none (by simp [not_null,word]),fun _ => ?_⟩
    rw [sat_of_ok (show into_unpromoted b.data H = _ from as_unpromoted_offset word)]
    simp only [sat_bind]
    rw [sat_of_ok (build_unpromoted_vec_ok spans)]
    rw [claim_unpromoted word] at sound
    have whole : Spans H (b.ptr.sub offset) (b.len+offset) := by
      rw [Nat.add_comm]
      exact spans
    exact (vec_drop_spec A sound whole).mono (fun _ _ post => post.1) (fun _ _ => False.elim)
  · refine ⟨fun none => absurd none (by simp [not_null,word]),fun _ => ?_⟩
    rw [sat_of_ok (show into_unpromoted b.data H = _ from as_unpromoted_node word live addr)]
    rw [show (Handle.bytes b).claim = .share b.data.prov from claim_promoted word] at sound
    exact release_spec A sound live addr

/-! ### View -/

/-- The handle `count` bytes further on. -/
def advanced (b : Bytes) (count : Nat) : Bytes where
  ptr := b.ptr.add count
  len := b.len-count
  data := match hold b.data with
    | .unpromoted offset => payload b.data (offset+count)
    | _ => b.data

theorem advanced_zero (b : Bytes) : b.advanced 0 = b := by
  unfold advanced
  cases word : hold b.data with
  | unpromoted offset => simp [payload_self word]
  | _ => simp

theorem advance_unchecked_ok (room : n ≤ b.len) (low : ∀ offset, hold b.data = .unpromoted offset → offset+n < 2^63) :
    advance_unchecked n (H,b) = (.ok (),H,b.advanced n) := by
  apply run_eq
  simp only [advance_unchecked,sat_ite,sat_pure,sat_bind,Method.sat_self,to_unpromoted_eq]
  refine ⟨?_,fun _ => ?_⟩
  · rintro rfl
    exact ⟨trivial,by rw [advanced_zero]⟩
  · cases word : hold b.data with
    | unpromoted offset =>
      simp only [sat_bind]
      rw [sat_of_ok (mask_payload_ok word (low offset word))]
      simp [room,advanced,word]
    | null => simp [room,advanced,word]
    | promoted => simp [room,advanced,word]

theorem low_of_placed (placed : Placed H (.bytes b)) (room : n ≤ b.len) :
    ∀ offset, hold b.data = .unpromoted offset → offset+n < 2^63 := by
  intro offset word
  have small := (placed.of_unpromoted word).2.small
  simp only [Handle.room,isizeMax] at small
  omega

theorem advanced_part (b : Bytes) (room : n ≤ b.len) : Part (.bytes (b.advanced n)) (.bytes b) n where
  ptr := rfl
  room := by
    simp only [Handle.room,advanced]
    omega
  fits := Nat.le_refl _
  writes := id
  word := by
    cases word : hold b.data with
    | unpromoted offset =>
      refine .inr ⟨offset,word,by simp [Handle.data,advanced,word],?_⟩
      simp only [Handle.room,advanced]
      omega
    | null => exact .inl ⟨by simp [Handle.data,advanced,word],by simp [Handle.data,word]⟩
    | promoted => exact .inl ⟨by simp [Handle.data,advanced,word],by simp [Handle.data,word]⟩

theorem advance_spec (sound : Sound H [] (.bytes b :: R)) (view : (Handle.bytes b).view H = some v) :
    Sat (advance n) (H,b) (fun _ p => n ≤ b.len ∧ Turns A H R p.1 [] [(.bytes p.2,v.drop n)])
      (fun k p => k = .panic ∧ b.len < n ∧ p = (H,b)) := by
  have turns := Turns.start (A := A) sound view
  simp only [advance,sat_bind,Method.sat_self,sat_check]
  refine ⟨fun small => ?_,fun large => ⟨trivial,by omega,trivial⟩⟩
  rw [sat_of_ok (advance_unchecked_ok small (low_of_placed turns.placed small))]
  refine ⟨small,turns.part (b.advanced_part small) (.inr ?_) (List.take_of_length_le ?_).symm⟩
  · simp only [Handle.len,advanced]
    omega
  · rw [List.length_drop,length_of_view view]
    exact Nat.le_refl _

/-- An owner turns its buffer over to a new node, with a second claim on it. -/
theorem promote_owner (sound : Sound H [] (.bytes b :: R)) (view : (Handle.bytes b).view H = some v)
    (word : hold b.data = .unpromoted offset) :
    Sat (promote_with_vec A ⟨b.ptr.sub offset,b.len+offset,b.len+offset⟩ 2) H
      (fun data H' => hold data = .promoted ∧ Turns A H R H' [.share data.prov] [(.bytes { b with data },v)])
      (fun _ _ => False) := by
  have turns := Turns.start (A := A) sound view
  obtain ⟨low,spans⟩ := turns.placed.of_unpromoted word
  have taken := turns.take.goes
  rw [claim_unpromoted word] at taken
  have whole : Spans H (b.ptr.sub offset) (b.len+offset) := by
    rw [Nat.add_comm]
    exact spans
  refine (promote_spec taken.sound whole Nat.two_pos).mono ?_ (fun _ _ => False.elim)
  rintro data H' ⟨goes,same,promoted,live⟩
  have claim : (Handle.bytes { b with data }).claim = .share data.prov := claim_promoted promoted
  have moved := Turns.of_goes (taken.trans goes)
  have seen : (Handle.bytes { b with data }).view H' = some v := by
    rw [Handle.view,same]
    exact view
  refine ⟨promoted,Turns.put (claim ▸ moved) ⟨by simp [seen],turns.placed.fits,?_⟩ seen turns.apart⟩
  rw [show hold (Handle.bytes { b with data }).data = .promoted from promoted]
  refine ⟨_,live,rfl,rfl,Nat.sub_le _ _,?_⟩
  simp only [Handle.region,Handle.ptr,Handle.room,Ptr.sub] at low ⊢
  omega

/-- What a clone is: the handle itself, with a second claim on its node. A static view
    has no claim to take. -/
def Cloned (A : Allocator) (H : Heap) (R : List Handle) (b : Bytes) (v : List UInt8) (c : Bytes) (p : Heap × Bytes) : Prop :=
  p.2 = c ∧ c.ptr = b.ptr ∧ c.len = b.len ∧ (∀ offset, hold c.data ≠ .unpromoted offset) ∧
    Turns A H R p.1 [(Handle.bytes c).claim] [(.bytes c,v)]

theorem cloned_null (sound : Sound H [] (.bytes b :: R)) (view : (Handle.bytes b).view H = some v)
    (word : hold b.data = .null) (null : b.data = Shared.null) :
    Cloned A H R b v { b with data := Shared.null } (H,b) := by
  have same : b = { b with data := Shared.null } := by rw [← null]
  refine ⟨same,rfl,rfl,nofun,?_⟩
  rw [← same,show (Handle.bytes b).claim = .idle from claim_null word]
  exact Turns.idle.mpr (.start sound view)

theorem cloned_node (sound : Sound H [] (.bytes b :: R)) (view : (Handle.bytes b).view H = some v)
    (word : hold b.data = .promoted) (live : H.nodes.get b.data.prov = some boxed) (addr : boxed.addr = b.data.addr) :
    Sat (increment b.data) H (fun _ H' => Cloned A H R b v b (H',b)) (fun k _ => k = .abort ∧ Crowded H) := by
  refine (increment_spec A sound live addr).mono ?_ ?_
  · rintro _ H' ⟨goes,_⟩
    refine ⟨rfl,rfl,rfl,by simp [word],?_⟩
    rw [show (Handle.bytes b).claim = .share b.data.prov from claim_promoted word]
    exact (Turns.start sound view).step goes
  · rintro k _ ⟨abort,many⟩
    exact ⟨abort,_,boxed,live,many⟩

theorem cloned_owner {data : Ptr} (promoted : hold data = .promoted)
    (turns : Turns A H R H' [.share data.prov] [(.bytes { b with data },v)]) :
    Cloned A H R b v { b with data } (H',{ b with data }) := by
  refine ⟨rfl,rfl,rfl,by simp [promoted],?_⟩
  rw [show (Handle.bytes { b with data }).claim = .share data.prov from claim_promoted promoted]
  exact turns

theorem clone_inner_mut_spec (sound : Sound H [] (.bytes b :: R)) (view : (Handle.bytes b).view H = some v) :
    Sat (clone_inner_mut A) (H,b) (Cloned A H R b v) (fun k _ => k = .abort ∧ Crowded H) := by
  simp only [clone_inner_mut,sat_bind,Method.sat_self,sat_ite,sat_pure,sat_onFst]
  rcases placed_cases (sound_cons.mp sound).2.1 with ⟨word,null,_⟩ | ⟨offset,word,low,spans⟩ | ⟨word,boxed,live,addr,_⟩
  · exact ⟨fun _ => cloned_null sound view word null,fun some' => absurd (is_null_iff.mpr word) some'⟩
  · refine ⟨fun none => absurd none (by simp [not_null,word]),fun _ => ?_⟩
    rw [sat_of_ok (as_unpromoted_offset word)]
    simp only [sat_bind,sat_onFst,Method.sat_put,sat_pure]
    rw [sat_of_ok (build_unpromoted_vec_ok spans)]
    exact (promote_owner sound view word).mono (fun _ _ post => cloned_owner post.1 post.2) (fun _ _ => False.elim)
  · refine ⟨fun none => absurd none (by simp [not_null,word]),fun _ => ?_⟩
    rw [sat_of_ok (as_unpromoted_node word live addr)]
    simp only [sat_bind,sat_onFst,sat_pure]
    exact cloned_node sound view word live addr

/-- Alone, a call finds the word it loaded, and never builds a node in vain. -/
theorem clone_inner_spec (sound : Sound H [] (.bytes b :: R)) (view : (Handle.bytes b).view H = some v) :
    Sat (clone_inner A) (H,b) (Cloned A H R b v) (fun k _ => k = .abort ∧ Crowded H) := by
  simp only [clone_inner,sat_bind,Method.sat_self,sat_ite,sat_pure,sat_onFst]
  rcases placed_cases (sound_cons.mp sound).2.1 with ⟨word,null,_⟩ | ⟨offset,word,low,spans⟩ | ⟨word,boxed,live,addr,_⟩
  · exact ⟨fun _ => cloned_null sound view word null,fun some' => absurd (is_null_iff.mpr word) some'⟩
  · refine ⟨fun none => absurd none (by simp [not_null,word]),fun _ => ?_⟩
    rw [sat_of_ok (as_unpromoted_offset word)]
    simp only [promote_ref,sat_bind,Method.sat_self,sat_onFst]
    rw [sat_of_ok (build_unpromoted_vec_ok spans)]
    refine (promote_owner sound view word).mono ?_ (fun _ _ => False.elim)
    rintro data H' ⟨promoted,turns⟩
    simp only [sat_ite,sat_bind,Method.sat_put,sat_pure,forall_const,not_true_eq_false,false_implies,and_true]
    exact cloned_owner promoted turns
  · refine ⟨fun none => absurd none (by simp [not_null,word]),fun _ => ?_⟩
    rw [sat_of_ok (as_unpromoted_node word live addr)]
    simp only [sat_bind,sat_onFst,sat_pure]
    exact cloned_node sound view word live addr

/-- The handle on a piece of what `c` views. -/
def piece (c : Bytes) (k n : Nat) : Bytes := { c with ptr := c.ptr.add k, len := n }

theorem piece_part {c : Bytes} (word : ∀ offset, hold c.data ≠ .unpromoted offset) (inside : k+n ≤ c.len) :
    Part (.bytes (piece c k n)) (.bytes c) k :=
  ⟨rfl,inside,Nat.le_refl _,id,.inl ⟨rfl,word⟩⟩

/-- A clone and the handle it was cloned from each keep any piece of the view. -/
theorem Cloned.pieces {c : Bytes} {q : Heap × Bytes} (cloned : Cloned A H R b v c q) (k₁ n₁ k₂ n₂ : Nat)
    (one : k₁+n₁ ≤ b.len) (two : k₂+n₂ ≤ b.len) : Turns A H R q.1 []
      [(.bytes (piece c k₁ n₁),(v.drop k₁).take n₁),(.bytes (piece c k₂ n₂),(v.drop k₂).take n₂)] := by
  obtain ⟨_,_,len,word,turns⟩ := cloned
  rw [← len] at one two
  exact turns.fork (piece_part word one) (piece_part word two) (.inr one) (.inr two) (fun w => (w.elim id id).elim) rfl rfl

/-- A clone that keeps the whole view. -/
theorem piece_all (c : Bytes) : piece c 0 c.len = c := rfl

theorem advanced_shared {c : Bytes} (word : ∀ offset, hold c.data ≠ .unpromoted offset) (n : Nat) :
    c.advanced n = piece c n (c.len-n) := by
  unfold advanced piece
  cases kept : hold c.data with
  | unpromoted offset => exact absurd kept (word offset)
  | null => rfl
  | promoted => rfl

theorem take_drop_all {l : List UInt8} (length : l.length = n) : (l.drop 0).take n = l := by
  rw [List.drop_zero,← length,List.take_length]

theorem clone_spec (sound : Sound H [] (.bytes b :: R)) (view : (Handle.bytes b).view H = some v) :
    Sat (clone A) (H,b) (fun c p => Turns A H R p.1 [] [(.bytes p.2,v),(.bytes c,v)])
      (fun k _ => k = .abort ∧ Crowded H) := by
  refine (clone_inner_spec sound view).mono ?_ (fun _ _ stops => stops)
  rintro c ⟨H',c'⟩ cloned
  have length : v.length = b.len := length_of_view view
  have pieces := cloned.pieces 0 b.len 0 b.len (by omega) (by omega)
  obtain ⟨same,_,len,_⟩ := cloned
  simp only at same
  subst same
  rwa [take_drop_all length,← len,piece_all] at pieces

/-! ### Slices -/

/-- The first index of a range. -/
def first : Bound → Nat
  | .Included n => n
  | .Excluded n => n+1
  | .Unbounded => 0
/-- The index a range over `len` bytes ends before. -/
def last (len : Nat) : Bound → Nat
  | .Included n => n+1
  | .Excluded n => n
  | .Unbounded => len

/-- A part of the view comes out as a view of its own; an empty part holds nothing. -/
theorem cut_spec (sound : Sound H [] (.bytes b :: R)) (view : (Handle.bytes b).view H = some v) (inside : k+n ≤ b.len) :
    Sat (if n = 0 then pure (new_empty_with_ptr (b.ptr.add k))
        else do
          let cloned ← clone_inner A
          return { cloned with ptr := b.ptr.add k, len := n }) (H,b)
      (fun c p => (c.ptr = b.ptr.add k ∧ c.len = n) ∧ Turns A H R p.1 [] [(.bytes p.2,v),(.bytes c,(v.drop k).take n)])
      (fun k _ => k = .abort ∧ Crowded H) := by
  have length : v.length = b.len := length_of_view view
  simp only [sat_ite,sat_bind,sat_pure]
  refine ⟨?_,fun _ => ?_⟩
  · rintro rfl
    exact ⟨⟨rfl,rfl⟩,((Turns.start sound view).put_empty _).swap⟩
  · refine (clone_inner_spec sound view).mono ?_ (fun _ _ stops => stops)
    rintro c ⟨H',c'⟩ cloned
    have pieces := cloned.pieces 0 b.len k n (by omega) inside
    obtain ⟨same,ptr,len,_⟩ := cloned
    simp only at same
    subst same
    rw [take_drop_all length,← len,piece_all] at pieces
    rw [← ptr]
    exact ⟨⟨trivial,trivial⟩,pieces⟩

theorem first_spec {p : Heap × Bytes} (lo : Bound) :
    Sat (match lo with
      | .Included n => pure n
      | .Excluded n => bound_succ n
      | .Unbounded => pure 0) p (fun i q => i = first lo ∧ q = p)
      (fun k q => k = .panic ∧ q = p ∧ 2^64 ≤ first lo) := by
  cases lo <;> simp [bound_succ,first]

theorem last_spec {p : Heap × Bytes} (len : Nat) (hi : Bound) :
    Sat (match hi with
      | .Included n => bound_succ n
      | .Excluded n => pure n
      | .Unbounded => pure len) p (fun i q => i = last len hi ∧ q = p)
      (fun k q => k = .panic ∧ q = p ∧ 2^64 ≤ last len hi) := by
  cases hi <;> simp [bound_succ,last]

/-- The part of the view between two indices comes out as a view of its own. -/
theorem slice_spec {lo hi : Bound} (sound : Sound H [] (.bytes b :: R)) (view : (Handle.bytes b).view H = some v) :
    Sat (slice A lo hi) (H,b)
      (fun c p => (first lo ≤ last v.length hi ∧ last v.length hi ≤ v.length) ∧
        (c.ptr = b.ptr.add (first lo) ∧ c.len = last v.length hi-first lo) ∧
        Turns A H R p.1 [] [(.bytes p.2,v),(.bytes c,(v.drop (first lo)).take (last v.length hi-first lo))])
      (fun k p => k = .abort ∧ Crowded H ∧ (first lo ≤ last v.length hi ∧ last v.length hi ≤ v.length) ∨
        k = .panic ∧ p = (H,b) ∧ ¬ (first lo ≤ last v.length hi ∧ last v.length hi ≤ v.length)) := by
  have length : v.length = b.len := length_of_view view
  have small := len_small sound
  rw [isizeMax] at small
  rw [length]
  simp only [slice,slice_bound,sat_bind,Method.sat_self]
  refine (first_spec lo).mono ?_ ?_
  · rintro _ _ ⟨rfl,rfl⟩
    refine (last_spec b.len hi).mono ?_ ?_
    · rintro _ _ ⟨rfl,rfl⟩
      simp only [sat_check]
      refine ⟨fun inside => ⟨fun order => ?_,fun bad => ?_⟩,fun bad => ?_⟩
      · refine (cut_spec sound view (by omega)).mono ?_ (fun _ _ stops => .inl ⟨stops.1,stops.2,order,inside⟩)
        exact fun _ _ cut => ⟨⟨order,inside⟩,cut⟩
      · exact .inr ⟨trivial,trivial,fun both => bad both.1⟩
      · exact .inr ⟨trivial,trivial,fun both => bad both.2⟩
    · rintro _ _ ⟨rfl,rfl,large⟩
      exact .inr ⟨rfl,rfl,fun both => by omega⟩
  · rintro _ _ ⟨rfl,rfl,large⟩
    exact .inr ⟨rfl,rfl,fun both => by omega⟩

/-- The same for a slice given by its address. -/
theorem slice_from_raw_spec {addr : Nat} (sound : Sound H [] (.bytes b :: R)) (view : (Handle.bytes b).view H = some v) :
    Sat (slice_from_raw A addr n) (H,b)
      (fun c p => (addr+n < 2^64 ∧ b.ptr.addr ≤ addr ∧ addr+n ≤ b.ptr.addr+v.length) ∧
        (c.ptr = b.ptr.add (addr-b.ptr.addr) ∧ c.len = n) ∧
        Turns A H R p.1 [] [(.bytes p.2,v),(.bytes c,(v.drop (addr-b.ptr.addr)).take n)])
      (fun k p => k = .abort ∧ Crowded H ∧ (addr+n < 2^64 ∧ b.ptr.addr ≤ addr ∧ addr+n ≤ b.ptr.addr+v.length) ∨
        k = .panic ∧ p = (H,b) ∧
        ¬ (addr+n < 2^64 ∧ b.ptr.addr ≤ addr ∧ addr+n ≤ b.ptr.addr+v.length)) := by
  have length : v.length = b.len := length_of_view view
  rw [length]
  simp only [slice_from_raw,sat_bind,Method.sat_self,sat_check]
  refine ⟨fun fits => ⟨fun high => ⟨fun low => ?_,fun bad => ?_⟩,fun bad => ?_⟩,fun bad => ?_⟩
  · refine (cut_spec sound view (by omega)).mono ?_ (fun _ _ stops => .inl ⟨stops.1,stops.2,fits,low,high⟩)
    exact fun _ _ cut => ⟨⟨fits,low,high⟩,cut⟩
  · exact .inr ⟨trivial,trivial,fun all => bad all.2.1⟩
  · exact .inr ⟨trivial,trivial,fun all => bad all.2.2⟩
  · exact .inr ⟨trivial,trivial,fun all => bad all.1⟩

theorem clear_spec (sound : Sound H [] (.bytes b :: R)) (view : (Handle.bytes b).view H = some v) :
    Sat clear (H,b) (fun _ p => Turns A H R p.1 [] [(.bytes p.2,[])]) (fun _ _ => False) := by
  have turns := Turns.start (A := A) sound view
  have taken := turns.take
  simp only [clear,sat_bind,Method.sat_self,sat_onFst,Method.sat_put]
  refine (drop_spec A taken.sound turns.placed).mono ?_ (fun _ _ => False.elim)
  exact fun _ _ goes => (taken.step goes).put_empty _

/-! ### Splitting -/

theorem try_split_off_spec (sound : Sound H [] (.bytes b :: R)) (view : (Handle.bytes b).view H = some v) :
    Sat (try_split_off A at_) (H,b) (fun o p => match o with
        | none => b.len < at_ ∧ p = (H,b)
        | some back => at_ ≤ b.len ∧ Turns A H R p.1 [] [(.bytes p.2,v.take at_),(.bytes back,v.drop at_)])
      (fun k _ => k = .abort ∧ Crowded H) := by
  have length : v.length = b.len := length_of_view view
  have turns := Turns.start (A := A) sound view
  simp only [try_split_off,sat_bind,Method.sat_self,sat_ite,sat_pure,sat_onFst,sat_lend,Method.sat_put]
  refine ⟨fun large => ⟨large,trivial⟩,fun small => ⟨?_,fun less => ⟨?_,fun some' => ?_⟩⟩⟩
  · rintro rfl
    rw [List.take_of_length_le (by omega),List.drop_of_length_le (by omega)]
    exact ⟨Nat.le_refl _,(turns.put_empty _).swap⟩
  · rintro rfl
    exact ⟨Nat.zero_le _,turns.put_empty _⟩
  · refine (clone_inner_mut_spec sound view).mono ?_ (fun _ _ stops => stops)
    rintro c ⟨H',c'⟩ cloned
    have pieces := cloned.pieces 0 at_ at_ (b.len-at_) (by omega) (by omega)
    obtain ⟨same,_,len,word,_⟩ := cloned
    simp only at same
    subst same
    rw [sat_of_ok (advance_unchecked_ok (by omega) fun offset bad => absurd bad (word offset)),advanced_shared word,len]
    refine ⟨by omega,?_⟩
    rwa [List.drop_zero,List.take_of_length_le (l := v.drop at_) (by rw [List.length_drop]; omega)] at pieces

theorem split_off_spec (sound : Sound H [] (.bytes b :: R)) (view : (Handle.bytes b).view H = some v) :
    Sat (split_off A at_) (H,b)
      (fun back p => at_ ≤ b.len ∧ Turns A H R p.1 [] [(.bytes p.2,v.take at_),(.bytes back,v.drop at_)])
      (fun k p => k = .abort ∧ Crowded H ∨ k = .panic ∧ b.len < at_ ∧ p = (H,b)) := by
  simp only [split_off,sat_bind,sat_ofOption]
  refine (try_split_off_spec sound view).mono ?_ (fun _ _ stops => .inl stops)
  rintro (_ | back) p post
  · exact ⟨fun _ bad => (by cases bad),fun _ => .inr ⟨trivial,post⟩⟩
  · refine ⟨?_,fun bad => by cases bad⟩
    rintro _ ⟨⟩
    exact post

theorem try_split_to_spec (sound : Sound H [] (.bytes b :: R)) (view : (Handle.bytes b).view H = some v) :
    Sat (try_split_to A at_) (H,b) (fun o p => match o with
        | none => b.len < at_ ∧ p = (H,b)
        | some front => at_ ≤ b.len ∧ Turns A H R p.1 [] [(.bytes p.2,v.drop at_),(.bytes front,v.take at_)])
      (fun k _ => k = .abort ∧ Crowded H) := by
  have length : v.length = b.len := length_of_view view
  have turns := Turns.start (A := A) sound view
  simp only [try_split_to,sat_bind,Method.sat_self,sat_ite,sat_pure,Method.sat_put]
  refine ⟨fun large => ⟨large,trivial⟩,fun small => ⟨?_,fun less => ⟨?_,fun some' => ?_⟩⟩⟩
  · rintro rfl
    rw [List.take_of_length_le (by omega),List.drop_of_length_le (by omega)]
    exact ⟨Nat.le_refl _,turns.put_empty _⟩
  · rintro rfl
    exact ⟨Nat.zero_le _,(turns.put_empty _).swap⟩
  · refine (clone_inner_mut_spec sound view).mono ?_ (fun _ _ stops => stops)
    rintro c ⟨H',c'⟩ cloned
    have pieces := cloned.pieces at_ (b.len-at_) 0 at_ (by omega) (by omega)
    obtain ⟨same,_,len,word,_⟩ := cloned
    simp only at same
    subst same
    rw [sat_of_ok (advance_unchecked_ok (by omega) fun offset bad => absurd bad (word offset)),advanced_shared word,len]
    refine ⟨by omega,?_⟩
    rwa [List.drop_zero,List.take_of_length_le (l := v.drop at_) (by rw [List.length_drop]; omega)] at pieces

theorem split_to_spec (sound : Sound H [] (.bytes b :: R)) (view : (Handle.bytes b).view H = some v) :
    Sat (split_to A at_) (H,b)
      (fun front p => at_ ≤ b.len ∧ Turns A H R p.1 [] [(.bytes p.2,v.drop at_),(.bytes front,v.take at_)])
      (fun k p => k = .abort ∧ Crowded H ∨ k = .panic ∧ b.len < at_ ∧ p = (H,b)) := by
  simp only [split_to,sat_bind,sat_ofOption]
  refine (try_split_to_spec sound view).mono ?_ (fun _ _ stops => .inl stops)
  rintro (_ | front) p post
  · exact ⟨fun _ bad => (by cases bad),fun _ => .inr ⟨trivial,post⟩⟩
  · refine ⟨?_,fun bad => by cases bad⟩
    rintro _ ⟨⟩
    exact post

/-- The rest is split off and dropped, so an owner never loses a tail. -/
theorem truncate_spec (sound : Sound H [] (.bytes b :: R)) (view : (Handle.bytes b).view H = some v) :
    Sat (truncate A n) (H,b) (fun _ p => Turns A H R p.1 [] [(.bytes p.2,v.take n)])
      (fun k _ => k = .abort ∧ Crowded H) := by
  have length : v.length = b.len := length_of_view view
  have turns := Turns.start (A := A) sound view
  simp only [truncate,sat_bind,Method.sat_self,sat_ite,sat_pure,Method.sat_put,sat_onFst]
  refine ⟨fun more => ?_,fun less => ⟨fun none => ?_,fun _ => ?_⟩⟩
  · rwa [List.take_of_length_le (by omega)]
  · have word : ∀ offset, hold b.data ≠ .unpromoted offset := by simp [is_null_iff.mp none]
    have shorter := turns.part (piece_part word (k := 0) (n := n) (by omega)) (.inr (by simp only [Handle.len,piece]; omega)) rfl
    rwa [List.drop_zero] at shorter
  · refine (split_off_spec sound view).mono ?_ ?_
    · rintro back p ⟨_,cut⟩
      have rest := cut.swap
      have taken := rest.take
      refine (drop_spec A taken.sound rest.placed).mono ?_ (fun _ _ => False.elim)
      exact fun _ _ goes => taken.step goes
    · rintro k p (stops | ⟨_,large,_⟩)
      · exact stops
      · omega

theorem truncate_off_spec (sound : Sound H [] (.bytes b :: R)) (view : (Handle.bytes b).view H = some v) :
    Sat (truncate_off A n) (H,b)
      (fun _ p => Turns A H R p.1 [] [(.bytes p.2,if n ≤ v.length then v.take (v.length-n) else v)])
      (fun k _ => k = .abort ∧ Crowded H) := by
  have length : v.length = b.len := length_of_view view
  simp only [truncate_off,sat_bind,Method.sat_self,sat_ite,sat_pure,length]
  refine ⟨fun small => ?_,fun large => ?_⟩
  · rw [if_pos small]
    exact truncate_spec sound view
  · rw [if_neg large]
    exact .start sound view

/-! ### Constructors -/

theorem new_spec (sound : Sound H [] R) : Turns A H R H [] [(.bytes new,[])] :=
  (Turns.of_goes (.refl sound)).put_empty _

/-- A handle that may write lies in a buffer, which is not static memory. -/
theorem frozen_apart {r : Handle} {e : Extent} {i lo hi : Nat} (sound : Sound H C P) (mem : r ∈ P) (writes : r.writes)
    (live : H.mem.extent i = some e) (frozen : e.frozen = true) : r.region.Apart ⟨i,lo,hi⟩ := by
  by_cases some' : 0 < r.room
  · refine Region.apart_of_prov ?_
    rintro rfl
    have placed := sound.placed r mem
    cases word : hold r.data with
    | null => exact (placed.of_null word).1 writes
    | unpromoted offset =>
      have live' := (placed.of_unpromoted word).2.live (by omega)
      cases live.symm.trans live'
      cases frozen
    | promoted =>
      obtain ⟨boxed,node,_,prov,low,high⟩ := placed.of_promoted word
      simp only [Handle.region] at prov low high
      have live' := (sound.nodes _ _ node).2.2.live (by omega)
      rw [← prov] at live'
      cases live.symm.trans live'
      cases frozen
  · exact Region.apart_of_empty (by simp only [Handle.region]; omega)

theorem from_static_spec {e : Extent} (sound : Sound H [] R) (live : H.mem.extent p.prov = some e) (frozen : e.frozen = true)
    (small : n ≤ isizeMax) (loaded : H.mem.load p n = some v) : Turns A H R H [] [(.bytes (from_static p n),v)] := by
  have word : hold (Handle.bytes (from_static p n)).data = .null := hold_nullWord
  refine Turns.put ?_ ⟨by rw [show (Handle.bytes (from_static p n)).view H = some v from loaded]; simp,Nat.le_refl _,?_⟩ loaded ?_
  · rw [claim_null word]
    exact Turns.idle.mpr (.of_goes (.refl sound))
  · rw [word]
    exact ⟨id,rfl,fun _ => ⟨small,e,live,frozen⟩⟩
  · rintro r mem (w | w)
    · exact w.elim
    · exact (frozen_apart sound mem w live frozen).symm

/-- A vector becomes a view of all its bytes, or of those from some offset on. -/
theorem from_vec_cases (turns : Turns A H₀ R H [own p cap] []) (spans : Spans H p cap) (fits : n ≤ cap) :
    Sat (from_vec A ⟨p,n,cap⟩) H (fun b H' => b.len = n ∧ (∀ offset, hold b.data = .unpromoted offset → offset = 0) ∧
        ∀ k v, k ≤ n → H.mem.load (p.add k) (n-k) = some v → Turns A H₀ R H' [] [(.bytes (b.advanced k),v)])
      (fun _ _ => False) := by
  simp only [from_vec,sat_ite,sat_bind,sat_pure]
  refine ⟨fun none => ?_,fun some' => ⟨fun full => ?_,fun _ => ?_⟩⟩
  · refine (vec_drop_spec A turns.sound spans).mono ?_ (fun _ _ => False.elim)
    rintro _ H' ⟨goes,_⟩
    refine ⟨none.symm,fun offset bad => by simp [new,from_static] at bad,fun k v le loaded => ?_⟩
    have here : k = 0 := by omega
    subst here none
    rw [Nat.sub_zero,Memory.load_zero] at loaded
    cases loaded
    rw [advanced_zero]
    exact (turns.step goes).put_empty _
  · refine ⟨trivial,fun offset word => ?_,fun k v le loaded => ?_⟩
    · rw [hold_new_unpromoted] at word
      cases word
      rfl
    · subst full
      have word : hold (Handle.bytes (advanced ⟨p,cap,new_unpromoted⟩ k)).data = .unpromoted k := by simp [Handle.data,advanced]
      refine turns.put_vec spans word rfl ?_ (Nat.le_refl _) loaded
      · simp only [Handle.room,advanced]
        omega
  · refine (promote_spec turns.sound spans Nat.one_pos).mono ?_ (fun _ _ => False.elim)
    rintro data H' ⟨goes,same,promoted,live⟩
    refine ⟨trivial,fun offset bad => by simp [promoted] at bad,fun k v le loaded => ?_⟩
    have kept : ∀ offset, hold data ≠ .unpromoted offset := by simp [promoted]
    rw [advanced_shared (c := ⟨p,n,data⟩) kept]
    refine (turns.step goes).put_alone promoted live rfl rfl ⟨rfl,Nat.le_add_right _ _,?_⟩ (Nat.le_refl _) ?_
    · simp only [Handle.region,Handle.ptr,Handle.room,piece,Ptr.add]
      omega
    · rw [Handle.view,same]
      exact loaded

theorem from_vec_spec {vec : Vec} (sound : Sound H [] (.vec vec :: R)) (view : (Handle.vec vec).view H = some v) :
    Sat (from_vec A vec) H (fun b H' => Turns A H R H' [] [(.bytes b,v)]) (fun _ _ => False) := by
  have turns := Turns.start (A := A) sound view
  have taken := turns.take
  rw [claim_vec] at taken
  have spans := (turns.placed.of_unpromoted (show hold (Handle.vec vec).data = .unpromoted 0 from hold_new_unpromoted)).2
  rw [Nat.zero_add] at spans
  refine (from_vec_cases taken spans turns.placed.fits).mono ?_ (fun _ _ => False.elim)
  rintro b H' ⟨_,_,from_⟩
  have whole := from_ 0 v (Nat.zero_le _) view
  rwa [advanced_zero] at whole

theorem from_box_spec {vec : Vec} (sound : Sound H [] (.vec vec :: R)) (view : (Handle.vec vec).view H = some v)
    (full : vec.len = vec.cap) : Turns A H R H [] [(.bytes (from_box vec),v)] := by
  have turns := Turns.start (A := A) sound view
  have taken := turns.take
  rw [claim_vec] at taken
  have spans := (turns.placed.of_unpromoted (show hold (Handle.vec vec).data = .unpromoted 0 from hold_new_unpromoted)).2
  rw [Nat.zero_add] at spans
  have word : hold (Handle.bytes (from_box vec)).data = .unpromoted 0 := hold_new_unpromoted
  refine taken.put_vec spans word rfl ?_ (Nat.le_refl _) view
  rw [Nat.zero_add]
  exact full

theorem copy_from_slice_spec (sound : Sound H [] R) : Sat (copy_from_slice A v) H
    (fun b H' => Turns A H R H' [] [(.bytes b,v)])
    (fun k H' => k = .panic ∧ isizeMax < v.length ∧ H' = H) := by
  simp only [copy_from_slice,sat_bind]
  refine (to_vec_spec sound).mono ?_ (fun _ _ stops => stops)
  rintro vec H' ⟨goes,spans,_,fits,loaded⟩
  have word : hold (Handle.vec vec).data = .unpromoted 0 := hold_new_unpromoted
  have made : Turns A H R H' [] [(.vec vec,v)] := (Turns.of_goes goes).put_vec spans word rfl (Nat.zero_add _) fits loaded
  refine (from_vec_spec made.sound made.view).mono ?_ (fun _ _ => False.elim)
  exact fun _ _ turns => made.trans turns

/-! ### Conversions -/

/-- The bytes are moved to the start of the buffer that is handed over. -/
theorem rewind_spec {H₁ : Heap} (turns : Turns A H R H₁ [own p cap] []) (spans : Spans H₁ p cap) (prov : b.ptr.prov = p.prov)
    (here : b.ptr.addr = p.addr+k) (room : k+b.len ≤ cap) (loaded : H₁.mem.load b.ptr b.len = some v) :
    Sat (if k ≠ 0 then
          if k ≥ b.len then Heap.copy_nonoverlapping b.ptr p b.len else Heap.copy b.ptr p b.len
        else pure ()) H₁
      (fun _ H' => Turns A H R H' [] [(.vec ⟨p,b.len,cap⟩,v)]) (fun _ _ => False) := by
  have length : v.length = b.len := Memory.load_length loaded
  have word : hold (Handle.vec ⟨p,b.len,cap⟩).data = .unpromoted 0 := hold_new_unpromoted
  have copied : Sat (Heap.write p v) H₁ (fun _ H' => Turns A H R H' [] [(.vec ⟨p,b.len,cap⟩,v)]) (fun _ _ => False) := by
    refine (write_own A turns.sound spans rfl (Nat.le_refl _) (by omega)).mono ?_ (fun _ _ => False.elim)
    rintro _ H' ⟨goes,stored,_,seen⟩
    rw [length] at seen
    refine (turns.step goes).put_vec (spans_keep spans fun _ e live => ?_) word rfl (Nat.zero_add _) (by simp only [Handle.len,Handle.room]; omega) seen
    rw [stored.extent]
    exact live
  simp only [sat_ite,sat_pure]
  refine ⟨fun moved => ⟨fun far => ?_,fun near => ?_⟩,fun still => ?_⟩
  · rwa [sat_congr (copy_nonoverlapping_eq (.inr (.inr (.inr (by omega)))) loaded)]
  · rwa [sat_congr (copy_eq loaded)]
  · have same : b.ptr = p := Ptr.ext (by omega) prov
    exact turns.put_vec spans word rfl (Nat.zero_add _) (by simp only [Handle.len,Handle.room]; omega) (same ▸ loaded)

/-- A view of static memory, or of a buffer that others share, is copied. -/
theorem copied_out {H₁ : Heap} (turns : Turns A H R H₁ [] []) (loaded : H₁.mem.load b.ptr b.len = some v)
    (small : b.len ≤ isizeMax) : Sat (do Vec.to_vec A (← b.as_slice)) H₁
      (fun vec H' => Turns A H R H' [] [(.vec vec,v)]) (fun _ _ => False) := by
  have length : v.length = b.len := Memory.load_length loaded
  simp only [sat_bind,as_slice]
  rw [sat_of_ok (read_ok loaded)]
  refine (to_vec_spec turns.sound).mono ?_ ?_
  · rintro vec H' ⟨goes,spans,_,fits,seen⟩
    have word : hold (Handle.vec vec).data = .unpromoted 0 := hold_new_unpromoted
    exact (turns.step goes).put_vec spans word rfl (Nat.zero_add _) fits seen
  · rintro _ _ ⟨_,large,_⟩
    omega

theorem taken_null (sound : Sound H [] (.bytes b :: R)) (view : (Handle.bytes b).view H = some v)
    (word : hold b.data = .null) : Turns A H R H [] [] := by
  have taken := (Turns.start (A := A) sound view).take
  rw [show (Handle.bytes b).claim = .idle from claim_null word] at taken
  exact Turns.idle.mp taken

theorem taken_owner (sound : Sound H [] (.bytes b :: R)) (view : (Handle.bytes b).view H = some v)
    (word : hold b.data = .unpromoted offset) : Turns A H R H [own (b.ptr.sub offset) (b.len+offset)] [] := by
  have taken := (Turns.start (A := A) sound view).take
  rwa [claim_unpromoted word] at taken

theorem taken_node (sound : Sound H [] (.bytes b :: R)) (view : (Handle.bytes b).view H = some v)
    (word : hold b.data = .promoted) : Turns A H R H [.share b.data.prov] [] := by
  have taken := (Turns.start (A := A) sound view).take
  rwa [show (Handle.bytes b).claim = .share b.data.prov from claim_promoted word] at taken

/-- A handle on a node gives its reference up, and if it was the last takes the buffer over. -/
theorem handed_over (sound : Sound H [] (.bytes b :: R)) (view : (Handle.bytes b).view H = some v)
    (word : hold b.data = .promoted) (live : H.nodes.get b.data.prov = some boxed) (addr : boxed.addr = b.data.addr) :
    Sat (release_into_vec b.data boxed.shared.cap) H
      (fun o H' => H'.mem.load b.ptr b.len = some v ∧
        if boxed.shared.ref_count = 1 then o = some ⟨boxed.shared.ptr,boxed.shared.cap,boxed.shared.cap⟩ ∧
          Spans H' boxed.shared.ptr boxed.shared.cap ∧ Turns A H R H' [own boxed.shared.ptr boxed.shared.cap] []
        else o = none ∧ Turns A H R H' [] []) (fun _ _ => False) := by
  have taken := taken_node (A := A) sound view word
  refine (release_into_vec_spec A taken.sound live addr (Nat.le_refl _)).mono ?_ (fun _ _ => False.elim)
  rintro o H' ⟨same,released⟩
  refine ⟨same ▸ view,?_⟩
  by_cases one : boxed.shared.ref_count = 1
  · rw [if_pos one] at released ⊢
    obtain ⟨rfl,goes⟩ := released
    obtain ⟨_,_,spans⟩ := sound.nodes _ _ live
    exact ⟨rfl,spans_keep spans fun _ _ live => by rw [same]; exact live,taken.step goes⟩
  · rw [if_neg one] at released ⊢
    obtain ⟨rfl,goes⟩ := released
    exact ⟨rfl,taken.step goes⟩

theorem into_vec_spec (sound : Sound H [] (.bytes b :: R)) (view : (Handle.bytes b).view H = some v) :
    Sat (into_vec A b) H (fun vec H' => Turns A H R H' [] [(.vec vec,v)]) (fun _ _ => False) := by
  have small := len_small sound
  have loaded : H.mem.load b.ptr b.len = some v := view
  simp only [into_vec,sat_bind,sat_ite]
  rcases placed_cases (sound_cons.mp sound).2.1 with ⟨word,_,_⟩ | ⟨offset,word,low,spans⟩ | ⟨word,boxed,live,addr,prov,low,high⟩
  · refine ⟨fun _ => ?_,fun some' => absurd (is_null_iff.mpr word) some'⟩
    have copied := copied_out (taken_null (A := A) sound view word) loaded small
    simpa only [sat_bind] using copied
  · refine ⟨fun none => absurd none (by simp [not_null,word]),fun _ => ?_⟩
    rw [sat_of_ok (show into_unpromoted b.data H = _ from as_unpromoted_offset word)]
    simp only [sat_bind,sat_pure]
    rw [sat_of_ok (build_unpromoted_vec_ok spans)]
    have whole : Spans H (b.ptr.sub offset) (b.len+offset) := by
      rw [Nat.add_comm]
      exact spans
    have moved := rewind_spec (taken_owner (A := A) sound view word) whole rfl (k := offset) (by simp only [Ptr.sub]; omega)
      (by omega) loaded
    simpa only [sat_ite,sat_bind,sat_pure] using moved
  · refine ⟨fun none => absurd none (by simp [not_null,word]),fun _ => ?_⟩
    rw [sat_of_ok (show into_unpromoted b.data H = _ from as_unpromoted_node word live addr)]
    simp only [sat_bind]
    rw [sat_of_ok (deref_ok live addr)]
    refine (handed_over (A := A) sound view word live addr).mono ?_ (fun _ _ => False.elim)
    rintro o H' ⟨loaded',released⟩
    by_cases one : boxed.shared.ref_count = 1
    · rw [if_pos one] at released
      obtain ⟨rfl,spans',owned⟩ := released
      simp only [sat_check,sat_usize_sub,sat_bind,sat_pure,prov,low,forall_const,not_true_eq_false,false_implies,and_true]
      have moved := rewind_spec owned spans' prov (k := b.ptr.addr-boxed.shared.ptr.addr) (by omega) (by omega) loaded'
      simpa only [sat_ite,sat_bind,sat_pure] using moved
    · rw [if_neg one] at released
      obtain ⟨rfl,left⟩ := released
      have copied := copied_out left loaded' small
      simpa only [sat_bind,sat_pure] using copied

/-- A view that is copied out as a `BytesMut`. -/
theorem copied_out_mut {H₁ : Heap} (turns : Turns A H R H₁ [] []) (loaded : H₁.mem.load b.ptr b.len = some v)
    (small : b.len ≤ isizeMax) : Sat (do return BytesMut.from_vec (← Vec.to_vec A (← b.as_slice))) H₁
      (fun m H' => Turns A H R H' [] [(.bytesMut m,v)]) (fun _ _ => False) := by
  have copied := copied_out turns loaded small
  simp only [sat_bind,sat_pure] at copied ⊢
  refine copied.mono (fun _ _ sat => sat.mono ?_ (fun _ _ => id)) (fun _ _ => id)
  exact fun vec H' made => made.trans (BytesMut.from_vec_spec made.sound made.view)

/-- The buffer that is handed over, seen from the start of the view. -/
theorem forward_spec {H₁ : Heap} (turns : Turns A H R H₁ [own p cap] []) (spans : Spans H₁ p cap) (ptr : b.ptr = p.add k)
    (room : k+b.len ≤ cap) (loaded : H₁.mem.load b.ptr b.len = some v) :
    BytesMut.advance_unchecked k (H₁,BytesMut.from_vec ⟨p,n,cap⟩) = (.ok (),H₁,(BytesMut.from_vec ⟨p,n,cap⟩).advanced k) ∧
    Turns A H R H₁ [] [(.bytesMut { (BytesMut.from_vec ⟨p,n,cap⟩).advanced k with len := b.len },v)] := by
  have small := spans.small
  rw [isizeMax] at small
  have start : hold (BytesMut.from_vec ⟨p,n,cap⟩).data = .unpromoted 0 := hold_new_unpromoted
  have room' : k ≤ (BytesMut.from_vec ⟨p,n,cap⟩).cap := by simp only [BytesMut.from_vec]; omega
  refine ⟨BytesMut.advance_unchecked_offset start (by omega) room',?_⟩
  have word : hold (Handle.bytesMut { (BytesMut.from_vec ⟨p,n,cap⟩).advanced k with len := b.len }).data = .unpromoted k := by
    simp [Handle.data,BytesMut.advanced,start]
  rw [ptr] at loaded
  refine turns.put_vec spans word rfl ?_ ?_ loaded
  · simp only [Handle.room,BytesMut.advanced,BytesMut.from_vec]
    omega
  · simp only [Handle.len,Handle.room,BytesMut.advanced,BytesMut.from_vec]
    omega

theorem into_mut_spec (sound : Sound H [] (.bytes b :: R)) (view : (Handle.bytes b).view H = some v) :
    Sat (into_mut A b) H (fun m H' => Turns A H R H' [] [(.bytesMut m,v)]) (fun _ _ => False) := by
  have small := len_small sound
  have loaded : H.mem.load b.ptr b.len = some v := view
  simp only [into_mut,sat_bind,sat_ite,sat_pure]
  rcases placed_cases (sound_cons.mp sound).2.1 with ⟨word,_,_⟩ | ⟨offset,word,low,spans⟩ | ⟨word,boxed,live,addr,prov,low,high⟩
  · refine ⟨fun _ => ?_,fun some' => absurd (is_null_iff.mpr word) some'⟩
    have copied := copied_out_mut (taken_null (A := A) sound view word) loaded small
    simpa only [sat_bind,sat_pure] using copied
  · refine ⟨fun none => absurd none (by simp [not_null,word]),fun _ => ?_⟩
    rw [sat_of_ok (show into_unpromoted b.data H = _ from as_unpromoted_offset word)]
    simp only [sat_bind,sat_pure,sat_lend]
    rw [sat_of_ok (build_unpromoted_vec_ok spans)]
    have whole : Spans H (b.ptr.sub offset) (b.len+offset) := by
      rw [Nat.add_comm]
      exact spans
    have back : b.ptr = (b.ptr.sub offset).add offset := Ptr.ext (by simp only [Ptr.sub,Ptr.add]; omega) rfl
    obtain ⟨ran,made⟩ := forward_spec (taken_owner (A := A) sound view word) whole back (by omega) loaded
    rw [sat_of_ok ran]
    simpa [BytesMut.advanced,BytesMut.from_vec] using made
  · refine ⟨fun none => absurd none (by simp [not_null,word]),fun _ => ?_⟩
    rw [sat_of_ok (show into_unpromoted b.data H = _ from as_unpromoted_node word live addr)]
    simp only [sat_bind]
    rw [sat_of_ok (deref_ok live addr)]
    refine (handed_over (A := A) sound view word live addr).mono ?_ (fun _ _ => False.elim)
    rintro o H' ⟨loaded',released⟩
    by_cases one : boxed.shared.ref_count = 1
    · rw [if_pos one] at released
      obtain ⟨rfl,spans',owned⟩ := released
      have back : b.ptr = boxed.shared.ptr.add (b.ptr.addr-boxed.shared.ptr.addr) :=
        Ptr.ext (by simp only [Ptr.add]; omega) prov
      obtain ⟨ran,made⟩ := forward_spec owned spans' back (by omega) loaded'
      simp only [sat_bind,sat_check,sat_usize_sub,sat_lend,sat_pure,prov,low,forall_const,not_true_eq_false,false_implies,and_true]
      rw [sat_of_ok ran]
      simp only [BytesMut.set_len,sat_bind,Method.sat_self,Method.sat_put]
      exact made
    · rw [if_neg one] at released
      obtain ⟨rfl,left⟩ := released
      have copied := copied_out_mut left loaded' small
      simpa only [sat_bind,sat_pure] using copied

end Bytes

/-- A handle on a node keeps its reference when it is frozen. -/
theorem BytesMut.frozen {m : BytesMut} (sound : Sound H [] (.bytesMut m :: R)) (view : (Handle.bytesMut m).view H = some v)
    (word : hold m.data = .promoted) : Turns A H R H [] [(.bytes (Bytes.from_mut m.data m),v)] := by
  have turns := Turns.start (A := A) sound view
  have fits : m.len ≤ m.cap := turns.placed.fits
  have kept : ∀ offset, hold m.data ≠ .unpromoted offset := by simp [word]
  have part : Part (.bytes (Bytes.from_mut m.data m)) (.bytesMut m) 0 :=
    ⟨rfl,by simpa [Handle.room,Bytes.from_mut] using fits,Nat.le_refl _,False.elim,.inl ⟨rfl,kept⟩⟩
  have length : v.length = m.len := length_of_view view
  refine turns.part part (.inr (by simp [Handle.len,Bytes.from_mut])) ?_
  simp [Handle.len,Bytes.from_mut,← length]

/-- A view that is frozen keeps its buffer, from the offset on. -/
theorem BytesMut.freeze_spec {m : BytesMut} (sound : Sound H [] (.bytesMut m :: R)) (view : (Handle.bytesMut m).view H = some v) :
    Sat (m.freeze A) H (fun b H' => Turns A H R H' [] [(.bytes b,v)]) (fun _ _ => False) := by
  have turns := Turns.start (A := A) sound view
  have fits : m.len ≤ m.cap := turns.placed.fits
  simp only [freeze,sat_bind]
  rcases turns.placed.bytesMut with ⟨offset,word,low,spans⟩ | ⟨word,boxed,live,addr,_⟩
  · rw [sat_of_ok (as_unpromoted_offset word)]
    simp only [sat_bind,sat_pure,sat_lend]
    rw [sat_of_ok (original_buffer_ok spans fits)]
    have taken := turns.take
    rw [claim_unpromoted word] at taken
    have whole : Spans H (m.ptr.sub offset) (m.cap+offset) := by
      rw [Nat.add_comm]
      exact spans
    have small := whole.small
    rw [isizeMax] at small
    refine (Bytes.from_vec_cases taken whole (n := m.len+offset) (by omega)).mono ?_ (fun _ _ => False.elim)
    rintro b H' ⟨len,start,from_⟩
    have low' : ∀ o, hold b.data = .unpromoted o → o+offset < 2^63 := by
      intro o word'
      have := start o word'
      omega
    simp only [Bytes.advance,sat_bind,Method.sat_self,sat_check]
    refine ⟨fun inside => ?_,fun bad => bad (by omega)⟩
    rw [sat_of_ok (Bytes.advance_unchecked_ok inside low')]
    refine from_ offset v (by omega) ?_
    have back : (m.ptr.sub offset).add offset = m.ptr := Ptr.ext (by simp only [Ptr.sub,Ptr.add]; omega) rfl
    rw [back,Nat.add_sub_cancel]
    exact view
  · rw [sat_of_ok (as_unpromoted_node word live addr)]
    simp only [sat_pure]
    exact BytesMut.frozen sound view word

end Tcio
