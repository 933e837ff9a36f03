import Tcio.Buf
import Tcio.BytesSpec

/-!
What the methods of `Buf` do to the bytes a cursor stands for. A call consumes from the
front: what it takes from a chain comes from the first part until that is empty, and what
it takes from a `Take` comes from the inner cursor and off the limit (`Consumed`).
-/
namespace Tcio
open Exec

variable {A : Allocator} {H H₁ H₂ H' H'' : Heap} {R : List Handle} {n k limit : Nat} {v c dst : List UInt8}

/-- There is a slice of each length that an object may have. -/
theorem Slice.of_len (small : n ≤ isizeMax) : ∃ s : Slice, s.len = n :=
  ⟨⟨List.replicate n 0,by rwa [List.length_replicate]⟩,List.length_replicate⟩

namespace Buf
variable {a a' b b' buf buf' buf'' t t' : Buf}

/-- The handles of the cursor are sound beside others. -/
def Sound (buf : Buf) (H : Heap) (R : List Handle) : Prop := Tcio.Sound H [] (buf.handles++R)

theorem Sound.left (sound : (chain a b).Sound H R) : a.Sound H (b.handles++R) := by
  rw [Sound,← List.append_assoc]
  exact sound
theorem Sound.swap (sound : a.Sound H (b.handles++R)) : b.Sound H (a.handles++R) := by
  rw [Sound,← List.append_assoc] at *
  exact sound.perm (List.perm_append_comm.append_right R)
theorem Sound.join (sound : a.Sound H (b.handles++R)) : (chain a b).Sound H R := by
  rw [Sound,← List.append_assoc] at sound
  exact sound

/-- A handle of the cursor has a view. -/
theorem Sound.viewed {h : Handle} (sound : buf.Sound H R) (mem : h ∈ buf.handles) : ∃ v, h.view H = some v :=
  Option.ne_none_iff_exists'.mp (sound.placed h (List.mem_append_left R mem)).viewed

/-! ### What is left -/

theorem remaining_eq (sound : buf.Sound H R) : buf.remaining = min (buf.content H).length usizeMax := by
  have word : isizeMax ≤ usizeMax := by decide
  induction buf generalizing R with
  | slice s =>
    have := s.small
    simp only [remaining,content,Slice.len]
    omega
  | bytes b =>
    obtain ⟨v,view⟩ := sound.viewed (h := .bytes b) (List.mem_singleton_self _)
    have length : v.length = b.len := length_of_view view
    have := Bytes.len_small sound
    simp only [remaining,content,view,Option.getD_some]
    omega
  | bytesMut m =>
    obtain ⟨v,view⟩ := sound.viewed (h := .bytesMut m) (List.mem_singleton_self _)
    have length : v.length = m.len := length_of_view view
    have := BytesMut.cap_small sound
    have fits : m.len ≤ m.cap := (sound.placed _ List.mem_cons_self).fits
    simp only [remaining,content,view,Option.getD_some]
    omega
  | chain a b left right =>
    simp only [remaining,content,List.length_append,left sound.left,right sound.left.swap]
    omega
  | take inner limit ih =>
    simp only [remaining,content,List.length_take,ih sound]
    omega
  | refMut t ih => exact ih sound
  | boxed t ih => exact ih sound

theorem has_remaining_iff (sound : buf.Sound H R) : buf.has_remaining = true ↔ buf.content H ≠ [] := by
  rw [has_remaining,decide_eq_true_iff,remaining_eq sound,← List.length_pos_iff]
  have : 0 < usizeMax := by decide
  omega

/-- The chunk is what is left, or a part of it from the front, and it is not empty where
    something is left. -/
theorem chunk_ok (sound : buf.Sound H R) : ∃ c, buf.chunk H = (.ok c,H) ∧ c.length ≤ isizeMax ∧ c <+: buf.content H ∧
    (buf.content H ≠ [] → c ≠ []) := by
  induction buf generalizing R with
  | slice s => exact ⟨s.bytes,rfl,s.small,List.prefix_refl _,id⟩
  | bytes b =>
    obtain ⟨v,view⟩ := sound.viewed (h := .bytes b) (List.mem_singleton_self _)
    have length : v.length = b.len := length_of_view view
    have small := Bytes.len_small sound
    simp only [content,view,Option.getD_some]
    exact ⟨v,read_ok view,by omega,List.prefix_refl _,id⟩
  | bytesMut m =>
    obtain ⟨v,view⟩ := sound.viewed (h := .bytesMut m) (List.mem_singleton_self _)
    have length : v.length = m.len := length_of_view view
    have small := BytesMut.cap_small sound
    have fits : m.len ≤ m.cap := (sound.placed _ List.mem_cons_self).fits
    simp only [content,view,Option.getD_some]
    exact ⟨v,read_ok view,by omega,List.prefix_refl _,id⟩
  | chain a b left right =>
    simp only [chunk,content]
    by_cases some' : a.has_remaining = true
    · obtain ⟨c,ran,small,first,more⟩ := left sound.left
      rw [if_pos some']
      exact ⟨c,ran,small,first.trans (List.prefix_append _ _),fun _ => more ((has_remaining_iff sound.left).mp some')⟩
    · obtain ⟨c,ran,small,first,more⟩ := right sound.left.swap
      have none : a.content H = [] := by
        by_contra rest
        exact some' ((has_remaining_iff sound.left).mpr rest)
      rw [if_neg some',none]
      exact ⟨c,ran,small,first,more⟩
  | take inner limit ih =>
    obtain ⟨c,ran,small,first,more⟩ := ih sound
    simp only [chunk,content]
    have same : c.take (min c.length limit) = c.take limit := by
      rw [Nat.min_comm,← List.take_take,List.take_length]
    refine ⟨c.take limit,by rw [ok_bind ran,same]; rfl,?_,
      List.prefix_take_iff.mpr ⟨(List.take_prefix limit c).trans first,List.length_take_le limit c⟩,fun rest => ?_⟩
    · rw [List.length_take]
      omega
    · simp only [ne_eq,List.take_eq_nil_iff,not_or] at rest ⊢
      exact ⟨rest.1,more rest.2⟩
  | refMut t ih => exact ih sound
  | boxed t ih => exact ih sound

/-! ### What a call consumes -/

/-- `buf'` is what is left of `buf` when `n` bytes were taken from it. -/
inductive Consumed (H H' : Heap) : Nat → Buf → Buf → Prop
  | slice {s : Slice} {n : Nat} (inside : n ≤ s.len) : Consumed H H' n (slice s) (slice (s.drop n))
  | bytes {b b' : Bytes} {n : Nat} {v : List UInt8} (before : (Handle.bytes b).view H = some v) (inside : n ≤ v.length)
      (after : (Handle.bytes b').view H' = some (v.drop n)) : Consumed H H' n (bytes b) (bytes b')
  | bytesMut {m m' : BytesMut} {n : Nat} {v : List UInt8} (before : (Handle.bytesMut m).view H = some v) (inside : n ≤ v.length)
      (after : (Handle.bytesMut m').view H' = some (v.drop n)) : Consumed H H' n (bytesMut m) (bytesMut m')
  | chain {a a' b b' : Buf} {n k : Nat} (left : Consumed H H' n a a') (right : Consumed H H' k b b')
      (order : k = 0 ∨ n = (a.content H).length) : Consumed H H' (n+k) (chain a b) (chain a' b')
  | take {t t' : Buf} {n limit : Nat} (inside : n ≤ limit) (inner : Consumed H H' n t t') :
      Consumed H H' n (take t limit) (take t' (limit-n))
  | refMut {t t' : Buf} {n : Nat} (inner : Consumed H H' n t t') : Consumed H H' n (refMut t) (refMut t')
  | boxed {t t' : Buf} {n : Nat} (inner : Consumed H H' n t t') : Consumed H H' n (boxed t) (boxed t')

/-- The bytes that were taken are gone from the front and no others. -/
theorem Consumed.content (consumed : Consumed H H' n buf buf') :
    n ≤ (buf.content H).length ∧ buf'.content H' = (buf.content H).drop n := by
  induction consumed with
  | slice inside => exact ⟨inside,rfl⟩
  | bytes before inside after =>
    simp only [Buf.content,before,after,Option.getD_some]
    exact ⟨inside,trivial⟩
  | bytesMut before inside after =>
    simp only [Buf.content,before,after,Option.getD_some]
    exact ⟨inside,trivial⟩
  | @chain a a' b b' n k _ _ order left right =>
    simp only [Buf.content,List.length_append,left.2,right.2,List.drop_append]
    refine ⟨Nat.add_le_add left.1 right.1,?_⟩
    rcases order with rfl | all
    · rw [Nat.add_zero,Nat.sub_eq_zero_of_le left.1]
    · rw [all,List.drop_length,List.drop_eq_nil_of_le (Nat.le_add_right _ _),Nat.add_sub_cancel_left]
  | take inside _ inner =>
    simp only [Buf.content,List.length_take,inner.2,List.drop_take]
    exact ⟨by omega,trivial⟩
  | refMut _ inner => exact inner
  | boxed _ inner => exact inner

theorem Consumed.trans (one : Consumed H H₁ n buf buf') (two : Consumed H₁ H' k buf' buf'') : Consumed H H' (n+k) buf buf'' := by
  induction one generalizing k buf'' with
  | @slice s n inside =>
    obtain ⟨inside'⟩ := two
    have same : (s.drop n).drop k = s.drop (n+k) := by simp [Slice.drop]
    rw [same]
    refine .slice ?_
    simp only [Slice.len,Slice.drop,List.length_drop] at *
    omega
  | bytes before inside after =>
    cases two with
    | bytes before' inside' after' =>
      cases after.symm.trans before'
      rw [List.drop_drop] at after'
      rw [List.length_drop] at inside'
      exact .bytes before (by omega) after'
  | bytesMut before inside after =>
    cases two with
    | bytesMut before' inside' after' =>
      cases after.symm.trans before'
      rw [List.drop_drop] at after'
      rw [List.length_drop] at inside'
      exact .bytesMut before (by omega) after'
  | chain left right order left' right' =>
    cases two with
    | @chain _ a'' _ b'' n' k' more more' order' =>
      have first := left.content
      rw [Nat.add_add_add_comm]
      have all := (left' more).content.1
      rw [first.2,List.length_drop] at order'
      exact .chain (left' more) (right' more') (by omega)
  | take inside inner ih =>
    cases two with
    | take inside' inner' =>
      rw [← Nat.sub_add_eq]
      exact .take (by omega) (ih inner')
  | refMut inner ih =>
    cases two with
    | refMut inner' => exact .refMut (ih inner')
  | boxed inner ih =>
    cases two with
    | boxed inner' => exact .boxed (ih inner')

/-- A cursor whose handles keep their views is left as it is. -/
theorem Consumed.idle (sound : buf.Sound H R) (kept : ∀ h ∈ buf.handles, h.view H' = h.view H) : Consumed H H' 0 buf buf := by
  induction buf generalizing R with
  | slice s => exact .slice (Nat.zero_le _)
  | bytes b =>
    obtain ⟨v,view⟩ := sound.viewed (h := .bytes b) (List.mem_singleton_self _)
    exact .bytes view (Nat.zero_le _) ((kept _ (List.mem_singleton_self _)).trans view)
  | bytesMut m =>
    obtain ⟨v,view⟩ := sound.viewed (h := .bytesMut m) (List.mem_singleton_self _)
    exact .bytesMut view (Nat.zero_le _) ((kept _ (List.mem_singleton_self _)).trans view)
  | chain a b left right =>
    exact .chain (left sound.left fun h mem => kept h (List.mem_append_left _ mem))
      (right sound.left.swap fun h mem => kept h (List.mem_append_right _ mem)) (.inl rfl)
  | take t limit ih => exact .take (Nat.zero_le _) (ih sound kept)
  | refMut t ih => exact .refMut (ih sound kept)
  | boxed t ih => exact .boxed (ih sound kept)

/-- A call that takes `n` bytes from a cursor beside other handles. -/
structure Moves (A : Allocator) (H : Heap) (R : List Handle) (n : Nat) (buf : Buf) (H' : Heap) (buf' : Buf) : Prop where
  sound : buf'.Sound H' R
  consumed : Consumed H H' n buf buf'
  frame : ∀ r ∈ R, r.view H' = r.view H
  later : H.Later A H'

namespace Moves

theorem refl (sound : buf.Sound H R) : Moves A H R 0 buf H buf :=
  ⟨sound,.idle sound fun _ _ => rfl,fun _ _ => rfl,.refl A H⟩
theorem trans (one : Moves A H R n buf H₁ buf') (two : Moves A H₁ R k buf' H' buf'') : Moves A H R (n+k) buf H' buf'' :=
  ⟨two.sound,one.consumed.trans two.consumed,fun r mem => (two.frame r mem).trans (one.frame r mem),one.later.trans two.later⟩

theorem bytes {b b' : Bytes} (view : (Handle.bytes b).view H = some v) (inside : n ≤ v.length)
    (turns : Turns A H R H' [] [(.bytes b',v.drop n)]) : Moves A H R n (.bytes b) H' (.bytes b') :=
  ⟨turns.sound,.bytes view inside turns.view,turns.frame,turns.later⟩
theorem bytesMut {m m' : BytesMut} (view : (Handle.bytesMut m).view H = some v) (inside : n ≤ v.length)
    (turns : Turns A H R H' [] [(.bytesMut m',v.drop n)]) : Moves A H R n (.bytesMut m) H' (.bytesMut m') :=
  ⟨turns.sound,.bytesMut view inside turns.view,turns.frame,turns.later⟩

/-- A chain gives bytes of its second part only when the first is empty. -/
theorem chain (sound : (chain a b).Sound H R) (left : Moves A H (b.handles++R) n a H₁ a') (right : Moves A H₁ (a'.handles++R) k b H' b')
    (order : k = 0 ∨ n = (a.content H).length) : Moves A H R (n+k) (chain a b) H' (chain a' b') where
  sound := right.sound.swap.join
  consumed := by
    have still := left.consumed.trans (.idle left.sound fun h mem => right.frame h (List.mem_append_left R mem))
    have before : Consumed H H₁ 0 b b := .idle sound.left.swap fun h mem => left.frame h (List.mem_append_left R mem)
    have after := before.trans right.consumed
    rw [Nat.zero_add] at after
    exact .chain still after order
  frame r mem := (right.frame r (List.mem_append_right _ mem)).trans (left.frame r (List.mem_append_right _ mem))
  later := left.later.trans right.later

theorem take (inside : n ≤ limit) (inner : Moves A H R n t H' t') : Moves A H R n (take t limit) H' (take t' (limit-n)) :=
  ⟨inner.sound,.take inside inner.consumed,inner.frame,inner.later⟩
theorem refMut (inner : Moves A H R n t H' t') : Moves A H R n (refMut t) H' (refMut t') :=
  ⟨inner.sound,.refMut inner.consumed,inner.frame,inner.later⟩
theorem boxed (inner : Moves A H R n t H' t') : Moves A H R n (boxed t) H' (boxed t') :=
  ⟨inner.sound,.boxed inner.consumed,inner.frame,inner.later⟩

end Moves

/-! ### `advance` and `copy_to_slice` -/

/-- Advancing a handle does not touch the heap. -/
theorem advance_bytes (A : Allocator) {b : Bytes} (sound : (bytes b).Sound H R) (view : (Handle.bytes b).view H = some v) :
    Sat (Bytes.advance n) (H,b) (fun _ p => p.1 = H ∧ Moves A H R n (bytes b) H (bytes p.2))
      (fun k p => k = .panic ∧ p.1 = H ∧ v.length < n) := by
  have length : v.length = b.len := length_of_view view
  have spec := Bytes.advance_spec (A := A) (n := n) sound view
  simp only [Bytes.advance,sat_bind,Method.sat_self,sat_check] at spec ⊢
  refine ⟨fun small => ?_,fun large => ⟨trivial,trivial,by omega⟩⟩
  have ran := Bytes.advance_unchecked_ok (H := H) small (Bytes.low_of_placed (sound.placed _ List.mem_cons_self) small)
  have turns := (sat_of_ok ran).mp (spec.1 small)
  rw [sat_of_ok ran]
  exact ⟨rfl,.bytes view (by omega) turns.2⟩
theorem advance_bytesMut (A : Allocator) {m : BytesMut} (sound : (bytesMut m).Sound H R) (view : (Handle.bytesMut m).view H = some v) :
    Sat (BytesMut.advance n) (H,m) (fun _ p => p.1 = H ∧ Moves A H R n (bytesMut m) H (bytesMut p.2))
      (fun k p => k = .panic ∧ p.1 = H ∧ v.length < n) := by
  have length : v.length = m.len := length_of_view view
  have placed := sound.placed _ List.mem_cons_self
  have fits : m.len ≤ m.cap := placed.fits
  have spec := BytesMut.advance_spec (A := A) (n := n) sound view
  simp only [BytesMut.advance,sat_bind,Method.sat_self,sat_check] at spec ⊢
  refine ⟨fun small => ?_,fun large => ⟨trivial,trivial,by omega⟩⟩
  have ran := BytesMut.advance_unchecked_ok (n := n) placed (by omega)
  have turns := (sat_of_ok ran).mp (spec.1 small)
  rw [sat_of_ok ran]
  exact ⟨rfl,.bytesMut view (by omega) turns.2⟩

theorem advance_spec (A : Allocator) (sound : buf.Sound H R) (word : n ≤ usizeMax) : Sat (buf.advance n) H
    (fun buf' H' => H' = H ∧ Moves A H R n buf H buf') (fun k H' => k = .panic ∧ H' = H ∧ (buf.content H).length < n) := by
  induction buf generalizing R n with
  | slice s =>
    simp only [advance,sat_bind,sat_check,sat_pure]
    exact ⟨fun small => ⟨trivial,⟨sound,.slice small,fun _ _ => rfl,.refl A H⟩⟩,fun large => ⟨trivial,trivial,by simpa [content,Slice.len] using large⟩⟩
  | bytes b =>
    obtain ⟨v,view⟩ := sound.viewed (h := .bytes b) (List.mem_singleton_self _)
    simp only [advance,sat_bind,sat_lend,sat_pure,content,view,Option.getD_some]
    exact advance_bytes A sound view
  | bytesMut m =>
    obtain ⟨v,view⟩ := sound.viewed (h := .bytesMut m) (List.mem_singleton_self _)
    simp only [advance,sat_bind,sat_lend,sat_pure,content,view,Option.getD_some]
    exact advance_bytesMut A sound view
  | chain a b left right =>
    have rem := remaining_eq sound.left
    simp only [advance,sat_bind,content,List.length_append]
    refine (left (n := min a.remaining n) sound.left (by omega)).mono ?_ ?_
    · rintro a' _ ⟨rfl,moved⟩
      simp only [sat_ite,sat_bind,sat_pure]
      refine ⟨fun reaches => ?_,fun stays => ⟨trivial,?_⟩⟩
      · have first : min a.remaining n = a.remaining := Nat.min_eq_left reaches
        rw [first] at moved
        refine (right (n := n-a.remaining) moved.sound.swap (by omega)).mono ?_ ?_
        · rintro b' _ ⟨rfl,moved'⟩
          have whole := moved.chain sound moved' (by omega)
          rw [Nat.add_sub_cancel' reaches] at whole
          exact ⟨rfl,whole⟩
        · rintro k _ ⟨panic,rfl,short⟩
          exact ⟨panic,rfl,by omega⟩
      · have first : min a.remaining n = n := by omega
        rw [first] at moved
        exact moved.chain sound (.refl moved.sound.swap) (.inl rfl)
    · rintro k _ ⟨_,_,short⟩
      omega
  | take t limit ih =>
    simp only [advance,sat_bind,sat_check,sat_pure,content,List.length_take]
    refine ⟨fun inside => (ih sound word).mono ?_ ?_,fun outside => ⟨trivial,trivial,by omega⟩⟩
    · rintro t' _ ⟨rfl,moved⟩
      exact ⟨rfl,moved.take inside⟩
    · rintro k _ ⟨panic,rfl,short⟩
      exact ⟨panic,rfl,by omega⟩
  | refMut t ih =>
    simp only [advance,sat_bind,sat_pure]
    refine (ih sound word).mono ?_ (fun _ _ => id)
    rintro t' _ ⟨rfl,moved⟩
    exact ⟨rfl,moved.refMut⟩
  | boxed t ih =>
    simp only [advance,sat_bind,sat_pure]
    refine (ih sound word).mono ?_ (fun _ _ => id)
    rintro t' _ ⟨rfl,moved⟩
    exact ⟨rfl,moved.boxed⟩

/-- What the default loop has done when `filled` was copied and `rest` is to be filled. -/
structure Copies (A : Allocator) (H : Heap) (R : List Handle) (buf : Buf) (n : Nat) (p : Heap × Buf × List UInt8 × List UInt8) : Prop where
  heap : p.1 = H
  length : p.2.2.1.length+p.2.2.2.length = n
  filled : p.2.2.1 <+: buf.content H
  moves : Moves A H R p.2.2.1.length buf H p.2.1

theorem copy_round_spec (large : n ≤ (buf.content H).length) (word : n ≤ usizeMax) {p : Heap × Buf × List UInt8 × List UInt8}
    (copies : Copies A H R buf n p) : Sat copy_round p
      (fun o q => (∀ a, o = some a → Copies A H R buf n q ∧ q.2.2.2 = []) ∧
        (o = none → Copies A H R buf n q ∧ q.2.2.2.length < p.2.2.2.length)) (fun _ _ => False) := by
  obtain ⟨H₁,buf',filled,rest⟩ := p
  obtain ⟨same,length,first,moves⟩ := copies
  simp only at same length first moves
  subst same
  obtain ⟨le,left⟩ := moves.consumed.content
  simp only [copy_round,sat_bind,Method.sat_self,sat_ite,sat_pure,sat_onFst,List.isEmpty_iff]
  refine ⟨fun done => ⟨fun _ _ => ⟨⟨rfl,length,first,moves⟩,done⟩,fun bad => by cases bad⟩,fun some' => ?_⟩
  obtain ⟨c,ran,_,begins,more⟩ := chunk_ok moves.sound
  rw [left] at begins
  have rest_pos := List.length_pos_iff.mpr some'
  have nonempty : buf'.content H₁ ≠ [] := by
    rw [left,← List.length_pos_iff,List.length_drop]
    omega
  have c_pos := List.length_pos_iff.mpr (more nonempty)
  rw [sat_of_ok ran]
  refine (advance_spec A (n := min c.length rest.length) moves.sound (by omega)).mono ?_ ?_
  · rintro buf'' _ ⟨rfl,moved⟩
    simp only [Method.sat_put]
    have size : (c.take (min c.length rest.length)).length = min c.length rest.length := by
      rw [List.length_take,min_eq_left (Nat.min_le_left _ _)]
    refine ⟨fun _ bad => (by cases bad),fun _ => ⟨⟨rfl,?_,?_,?_⟩,?_⟩⟩
    · simp only [List.length_append,size,List.length_drop]
      omega
    · obtain ⟨behind,whole⟩ := first
      rw [← whole,List.drop_left] at begins
      rw [← whole]
      exact (List.prefix_append_right_inj filled).mpr ((List.take_prefix _ c).trans begins)
    · simp only [List.length_append,size]
      exact moves.trans moved
    · simp only [List.length_drop]
      omega
  · rintro k _ ⟨_,_,short⟩
    have := begins.length_le
    rw [left] at short
    omega

theorem copy_to_slice_default_spec (A : Allocator) (sound : buf.Sound H R) (word : dst.length ≤ usizeMax) :
    Sat (buf.copy_to_slice_default dst) H
      (fun r H' => H' = H ∧ dst.length ≤ (buf.content H).length ∧ r.1 = (buf.content H).take dst.length ∧ Moves A H R dst.length buf H r.2)
      (fun k H' => k = .panic ∧ H' = H ∧ (buf.content H).length < dst.length) := by
  have rem := remaining_eq sound
  simp only [copy_to_slice_default,sat_bind,sat_check,sat_lend,sat_pure]
  refine ⟨fun fits => ?_,fun large => ⟨trivial,trivial,by omega⟩⟩
  have inside : dst.length ≤ (buf.content H).length := by omega
  refine Sat.mono (Sat.loop (Copies A H R buf dst.length) (fun p => p.2.2.2.length)
    (fun p copies => copy_round_spec inside word copies) _ _ ?_ (Nat.lt_succ_self _)) ?_ (fun _ _ => False.elim)
  · exact ⟨rfl,Nat.zero_add _,List.nil_prefix,.refl sound⟩
  · rintro _ ⟨_,buf',filled,rest⟩ ⟨⟨rfl,length,first,moves⟩,done⟩
    simp only at length first moves done
    have all : filled.length = dst.length := by simpa [done] using length
    rw [all] at moves
    exact ⟨rfl,inside,all ▸ List.prefix_iff_eq_take.mp first,moves⟩

/-- A contiguous cursor copies from its slice and advances. -/
theorem copy_contiguous (A : Allocator) (sound : buf.Sound H R) (word : dst.length ≤ usizeMax) {src : Exec Heap (List UInt8)}
    (ran : src H = (.ok (buf.content H),H)) : Sat (do
        let bytes ← src
        check .panic (dst.length ≤ bytes.length)
        return (bytes.take dst.length,← buf.advance dst.length)) H
      (fun r H' => H' = H ∧ dst.length ≤ (buf.content H).length ∧ r.1 = (buf.content H).take dst.length ∧ Moves A H R dst.length buf H r.2)
      (fun k H' => k = .panic ∧ H' = H ∧ (buf.content H).length < dst.length) := by
  rw [sat_bind,sat_of_ok ran]
  simp only [sat_bind,sat_check,sat_pure]
  refine ⟨fun inside => (advance_spec A sound word).mono ?_ (fun _ _ => id),fun large => ⟨trivial,trivial,by omega⟩⟩
  rintro buf' _ ⟨rfl,moves⟩
  exact ⟨rfl,inside,trivial,moves⟩

/-- Every implementation fills the destination with the first bytes that are left, and
    panics where there are fewer. -/
theorem copy_to_slice_spec (A : Allocator) (sound : buf.Sound H R) (word : dst.length ≤ usizeMax) :
    Sat (buf.copy_to_slice dst) H
      (fun r H' => H' = H ∧ dst.length ≤ (buf.content H).length ∧ r.1 = (buf.content H).take dst.length ∧ Moves A H R dst.length buf H r.2)
      (fun k H' => k = .panic ∧ H' = H ∧ (buf.content H).length < dst.length) := by
  induction buf with
  | slice s => exact copy_contiguous A sound word rfl
  | bytes b =>
    obtain ⟨v,view⟩ := sound.viewed (h := .bytes b) (List.mem_singleton_self _)
    have ran : b.as_slice H = (.ok v,H) := read_ok view
    exact copy_contiguous A sound word (by simpa only [content,view,Option.getD_some] using ran)
  | bytesMut m =>
    obtain ⟨v,view⟩ := sound.viewed (h := .bytesMut m) (List.mem_singleton_self _)
    have ran : m.as_slice H = (.ok v,H) := read_ok view
    exact copy_contiguous A sound word (by simpa only [content,view,Option.getD_some] using ran)
  | chain a b => exact copy_to_slice_default_spec A sound word
  | take t limit => exact copy_to_slice_default_spec A sound word
  | refMut t ih =>
    simp only [copy_to_slice,sat_bind,sat_pure]
    refine (ih sound).mono ?_ (fun _ _ => id)
    rintro r _ ⟨rfl,inside,same,moves⟩
    exact ⟨rfl,inside,same,moves.refMut⟩
  | boxed t ih =>
    simp only [copy_to_slice,sat_bind,sat_pure]
    refine (ih sound).mono ?_ (fun _ _ => id)
    rintro r _ ⟨rfl,inside,same,moves⟩
    exact ⟨rfl,inside,same,moves.boxed⟩

end Buf
end Tcio
