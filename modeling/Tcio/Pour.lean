import Tcio.PutSpec

/-!
A whole source poured into a tree of buffers. By default `put` goes on chunk by chunk,
each no longer than the chunk of the source and that of the buffer; a vector and a
`BytesMut` make room first. Either way the bytes of the source lie behind what was written
before, as they do where they are put as one slice or one by one.
-/
namespace Tcio
open Exec

variable {A : Allocator} {H H₁ H₂ H' : Heap} {R : List Handle} {h h' : Handle} {v w u : List UInt8} {n j : Nat}
variable {src src' src₁ src₂ : Buf}

namespace BufMut
variable {dst dst' dst₁ dst₂ : BufMut}

/-- The first `j` bytes of the source are written, and consumed. -/
structure Poured (A : Allocator) (H : Heap) (R : List Handle) (dst : BufMut) (src : Buf) (j : Nat) (H' : Heap) (dst' : BufMut) (src' : Buf) :
    Prop where
  sound : dst'.Sound H' (src'.handles++R)
  space : dst'.space H' = (dst.space H).write ((src.content H).take j)
  wide : Widens dst dst'
  consumed : Buf.Consumed H H' j src src'
  frame : ∀ r ∈ R, r.view H' = r.view H
  later : H.Later A H'
/-- The whole source is written. It was consumed before it was dropped, and of what it borrowed
    only that is gone. -/
structure Filled (A : Allocator) (H : Heap) (R : List Handle) (dst : BufMut) (src : Buf) (H' : Heap) (dst' : BufMut) (src' : Buf) :
    Prop where
  sound : dst'.Sound H' (src'.handles++R)
  space : dst'.space H' = (dst.space H).write (src.content H)
  consumed : ∃ H₁ src₁, Buf.Consumed H H₁ (src.content H).length src src₁ ∧ src' = src₁.rest ∧
    ∀ h ∈ src'.handles, h.view H' = h.view H₁
  frame : ∀ r ∈ R, r.view H' = r.view H
  later : H.Later A H'

/-- The handles of the source are sound beside those of the buffer. -/
theorem Sound.source (sound : dst.Sound H (src.handles++R)) : src.Sound H (dst.handles++R) :=
  Tcio.Sound.perm sound (List.perm_append_comm_assoc _ _ _)
theorem Sound.of_source (sound : src.Sound H (dst.handles++R)) : dst.Sound H (src.handles++R) :=
  Tcio.Sound.perm sound (List.perm_append_comm_assoc _ _ _)

namespace Poured

theorem start (sound : dst.Sound H (src.handles++R)) : Poured A H R dst src 0 H dst src :=
  ⟨sound,by rw [List.take_zero,Space.write_nil],.refl dst,.idle sound.source fun _ _ => rfl,fun _ _ => rfl,.refl A H⟩

/-- A chunk is written and the source is advanced behind it. -/
theorem chunk (poured : Poured A H R dst src j H₁ dst₁ src₁) (fits : (src.content H).length ≤ (dst.space H).room)
    (wrote : Wrote A H₁ (src₁.handles++R) dst₁ u H₂ dst₂) (first : u <+: src₁.content H₁)
    (moves : Buf.Moves A H₂ (dst₂.handles++R) u.length src₁ H' src₂) : Poured A H R dst src (j+u.length) H' dst₂ src₂ where
  sound := Sound.of_source moves.sound
  space := by
    have same : dst₂.space H' = dst₂.space H₂ := space_frame fun h mem => moves.frame h (List.mem_append_left _ mem)
    have part : ((src.content H).take j).length ≤ (dst.space H).room := (List.length_take_le' _ _).trans fits
    obtain ⟨_,left⟩ := poured.consumed.content
    obtain ⟨rest,whole⟩ := first
    rw [left] at whole
    rw [same,wrote.space,poured.space,Space.write_write part,List.take_add,← whole,List.take_left]
  wide := poured.wide.trans wrote.wide
  consumed := by
    have kept : Buf.Consumed H₁ H₂ 0 src₁ src₁ := .idle poured.sound.source fun h mem => wrote.frame h (List.mem_append_left _ mem)
    have moved := kept.trans moves.consumed
    rw [Nat.zero_add] at moved
    exact poured.consumed.trans moved
  frame r mem := by
    rw [moves.frame r (List.mem_append_right _ mem),wrote.frame r (List.mem_append_right _ mem)]
    exact poured.frame r mem
  later := (poured.later.trans wrote.later).trans moves.later

/-- What was poured before a buffer could not grow is written. -/
theorem strained {p : Heap × BufMut} (sound : dst.Sound H (src.handles++R)) (poured : Poured A H R dst src j H₁ dst₁ src₁)
    (fits : (src.content H).length ≤ (dst.space H).room) (stays : Wrote A H₁ (src₁.handles++R) dst₁ [] p.1 p.2)
    (tight : Tight H₁ p.1 1 dst₁ p.2) (rest : j < (src.content H).length) : Strained H R dst (src.content H) p := by
  have part := (List.length_take_le' j (src.content H)).trans fits
  refine ⟨⟨j,?_⟩,(tight.after sound poured.sound poured.wide poured.space part).mono ?_,
    fun r mem => (stays.frame r (List.mem_append_right _ mem)).trans (poured.frame r mem)⟩
  · rw [stays.space,poured.space,Space.write_write part,List.append_nil]
  · rw [List.length_take]
    omega

/-- What was appended to a buffer that grows was poured into it. -/
theorem of_appended (grows : Grows dst h) (view : h.view H = some v) (grows' : Grows dst' h') (wide : h.room ≤ h'.room)
    (appended : Buf.Appended A H R v src j H' h' src') : Poured A H R dst src j H' dst' src' where
  sound := by
    rw [Sound,grows'.handles]
    exact appended.sound
  space := by
    rw [grows'.space appended.view,grows.space view]
    rfl
  wide := .grows grows grows' wide
  consumed := appended.consumed
  frame := appended.frame
  later := appended.later

/-- The source is dropped when all of it was written. -/
theorem drop (poured : Poured A H R dst src (src.content H).length H₁ dst' src') :
    Sat src'.drop H₁ (fun src'' H' => Filled A H R dst src H' dst' src'') (fun _ _ => False) := by
  refine (Buf.drop_spec A poured.sound.source).mono ?_ (fun _ _ => id)
  rintro _ H' ⟨rfl,goes⟩
  have same : dst'.space H' = dst'.space H₁ :=
    space_frame fun h mem => goes.view h (List.mem_append_right _ (List.mem_append_left _ mem))
  refine ⟨Sound.of_source goes.sound,?_,⟨H₁,src',poured.consumed,rfl,fun h mem => goes.view h (List.mem_append_left _ mem)⟩,
    fun r mem => ?_,poured.later.trans goes.later⟩
  · rw [same,poured.space,List.take_length]
  · rw [goes.view r (List.mem_append_right _ (List.mem_append_right _ mem))]
    exact poured.frame r mem

end Poured

/-! ### The default loop -/

theorem put_round_spec {p : (Heap × BufMut) × Buf} (sound : dst.Sound H (src.handles++R)) (fits : (src.content H).length ≤ (dst.space H).room)
    (inv : Poured A H R dst src j p.1.1 p.1.2 p.2) : Sat (put_round A) p
      (fun o q => (∀ a, o = some a → Poured A H R dst src (src.content H).length q.1.1 q.1.2 q.2) ∧ (o = none →
        (∃ j, Poured A H R dst src j q.1.1 q.1.2 q.2) ∧ (q.2.content q.1.1).length < (p.2.content p.1.1).length))
      (fun k q => k = .panic ∧ Strained H R dst (src.content H) q.1) := by
  obtain ⟨⟨H₁,dst₁⟩,src₁⟩ := p
  simp only at inv
  have some' := Buf.has_remaining_iff inv.sound.source
  obtain ⟨inside,left⟩ := inv.consumed.content
  simp only [put_round,sat_bind,sat_get,sat_ite,sat_pure,sat_onFst,sat_modify,Method.sat_self,Method.sat_replace]
  refine ⟨fun none => ⟨fun _ _ => ?_,fun bad => by cases bad⟩,fun more => ?_⟩
  · have rest : src₁.content H₁ = [] := by
      by_contra rest
      exact none (some'.mpr rest)
    rw [rest,eq_comm,List.drop_eq_nil_iff] at left
    have all : j = (src.content H).length := Nat.le_antisymm inside left
    exact all ▸ inv
  · have rest := List.length_pos_iff.mpr (some'.mp (not_not.mp more))
    have part : ((src.content H).take j).length ≤ (dst.space H).room := (List.length_take_le' _ _).trans fits
    have room : (dst₁.space H₁).room = (dst.space H).room-j := by
      rw [inv.space,Space.room_write part,List.length_take]
      omega
    have remains := remaining_mut_eq inv.sound
    have word : 0 < usizeMax := by decide
    rw [left,List.length_drop] at rest
    refine (chunk_mut_spec inv.sound).mono ?_ ?_
    · rintro n ⟨H₂,dst₂⟩ ⟨grown,ready,none⟩
      have same : src₁.content H₂ = src₁.content H₁ := Buf.content_frame fun h mem => grown.frame h (List.mem_append_left _ mem)
      obtain ⟨c,ran,small,first,fills⟩ := Buf.chunk_ok grown.sound.source
      rw [sat_of_ok ran]
      rw [same] at first fills
      have nonempty := List.length_pos_iff.mpr (fills (some'.mp (not_not.mp more)))
      have length : (c.take (min c.length n)).length = min c.length n := by
        rw [List.length_take]
        omega
      have ready : dst₂.Ready (c.take (min c.length n)).length := ready.mono (by omega)
      refine (fill_chunk (A := A) grown.sound ready).mono ?_ (fun _ _ => False.elim)
      rintro dst₃ H₃ ⟨_,advance⟩
      rw [length] at advance
      refine advance.mono ?_ (fun _ _ => False.elim)
      intro dst₄ H₄ filled
      have wrote := grown.trans filled (Nat.zero_le _)
      have same' : src₁.content H₄ = src₁.content H₁ := Buf.content_frame fun h mem => wrote.frame h (List.mem_append_left _ mem)
      have prefix' : c.take (min c.length n) <+: src₁.content H₁ := (List.take_prefix _ c).trans first
      have le := prefix'.length_le
      rw [length] at le
      have large : isizeMax ≤ usizeMax := by decide
      refine (Buf.advance_spec A (n := min c.length n) wrote.sound.source (by omega)).mono ?_ ?_
      · rintro src₂ _ ⟨rfl,moves⟩
        have consumed := moves.consumed.content
        rw [← length] at moves
        refine ⟨fun _ bad => (by cases bad),fun _ => ⟨⟨_,inv.chunk fits wrote prefix' moves⟩,?_⟩⟩
        rw [consumed.2,List.length_drop,same']
        omega
      · rintro k _ ⟨_,_,short⟩
        rw [same'] at short
        omega
    · rintro k p ⟨panic,stays,tight⟩
      exact ⟨panic,inv.strained sound fits stays tight (by omega)⟩

theorem put_default_spec (sound : dst.Sound H (src.handles++R)) (room : (src.content H).length ≤ (dst.space H).room) :
    Sat (put_default A src) (H,dst) (fun src' p => Filled A H R dst src p.1 p.2 src')
      (fun k p => k = .panic ∧ Strained H R dst (src.content H) p) := by
  have fits : src.remaining ≤ dst.remaining_mut := by
    rw [Buf.remaining_eq sound.source,remaining_mut_eq sound]
    omega
  have rounds := Buf.content_le_size sound.source
  simp only [put_default,sat_bind,Method.sat_self,sat_check,sat_lend,sat_onFst,fits,forall_const,not_true_eq_false,false_implies,and_true]
  refine Sat.mono (Sat.loop (Q := fun _ p => Poured A H R dst src (src.content H).length p.1.1 p.1.2 p.2)
    (fun p => ∃ j, Poured A H R dst src j p.1.1 p.1.2 p.2) (fun p => (p.2.content p.1.1).length)
    (fun p inv => put_round_spec sound room inv.choose_spec) _ _ ⟨0,.start sound⟩ (Nat.lt_succ_of_le rounds)) ?_ (fun _ _ => id)
  intro _ p poured
  exact poured.drop.mono (fun _ _ => id) (fun _ _ => False.elim)

theorem roomy_vec : Buf.Roomy A Handle.vec (Vec.extend_from_slice A) := by
  intro H R x v w sound view room
  simp only [Handle.room,Handle.len] at room
  have fits : ¬ w.length > x.cap-x.len := Nat.not_lt_of_le room
  simp only [Vec.extend_from_slice,Vec.reserve,sat_bind,Method.sat_self,sat_ite,sat_pure,sat_onFst,Vec.set_len,Method.sat_put,fits,
    false_implies,not_false_eq_true,forall_const,true_and]
  exact (Vec.write_behind A sound view room).mono (fun _ _ turns => ⟨rfl,turns⟩) (fun _ _ => id)

/-- A vector makes room for the whole source first. -/
theorem put_vec_spec {x : Vec} (sound : (vec x).Sound H (src.handles++R)) (rem : src.remaining = (src.content H).length)
    (free : (src.content H).length+x.cap ≤ isizeMax) : Sat (Vec.put A src) (H,x)
      (fun src' p => Filled A H R (vec x) src p.1 (vec p.2) src')
      (fun k p => k = .panic ∧ Strained H R (vec x) (src.content H) (p.1,vec p.2)) := by
  have held : Tcio.Sound H [] (.vec x :: (src.handles++R)) := sound
  obtain ⟨v,view⟩ := Option.ne_none_iff_exists'.mp (held.placed (.vec x) List.mem_cons_self).viewed
  simp only [Vec.put,sat_bind,rem,sat_onFst]
  refine (Vec.reserve_spec held view).mono ?_ ?_
  · rintro _ ⟨H₁,x₁⟩ ⟨turns,len,wide,room⟩
    have same : src.content H₁ = src.content H := Buf.content_frame fun h mem => turns.frame h (List.mem_append_left _ mem)
    simp only at len wide room
    have into : (src.content H₁).length ≤ x₁.cap-x₁.len := by
      rw [same,len]
      exact room
    refine (Buf.fill_roomy roomy_vec turns.sound turns.view into).mono ?_ (fun _ _ => False.elim)
    rintro src₁ ⟨H₂,x₂⟩ ⟨kept,filled⟩
    rw [same] at filled
    have poured : Poured A H R (vec x) src (src.content H).length H₂ (vec x₂) src₁ :=
      .of_appended (.vec x) view (.vec x₂) (wide.trans (Nat.le_of_eq kept.symm)) (filled.before turns sound.source)
    exact poured.drop.mono (fun _ _ => id) (fun _ _ => False.elim)
  · rintro k p ⟨panic,rfl,large⟩
    have grows : Grows (vec x) (.vec x) := .vec x
    have tight : Tight H H (src.content H).length (vec x) (vec x) := .grows grows grows large.1 (grows.vast sound large (.inl free))
    exact ⟨panic,⟨0,by rw [List.take_zero,Space.write_nil]⟩,tight,fun _ _ => rfl⟩

/-- The buffer is a `BytesMut` that would have to join a chain that is longer than a word counts. -/
def Wraps (H : Heap) : BufMut → Buf → Prop
  | bytesMut m,src => m.Wraps H src
  | _,_ => False

/-- How `put` of a `BytesMut` stops is how the buffer could not grow. -/
theorem put_bytesMut_spec {m : BytesMut} {e : Extent} (sound : (bytesMut m).Sound H (src.handles++R)) (lies : m.Lies H e)
    (free : (src.content H).length+m.cap ≤ isizeMax) : Sat (BytesMut.put A (src.copy_to_bytes A) src) (H,m)
      (fun src' p => ¬ m.Wraps H src ∧ Filled A H R (bytesMut m) src p.1 (bytesMut p.2) src')
      (fun k p => k = .abort ∧ Crowded H ∨
        k = .panic ∧ (m.Wraps H src ∧ p = (H,m) ∨ Strained H R (bytesMut m) (src.content H) (p.1,bytesMut p.2))) := by
  have held : Tcio.Sound H [] (.bytesMut m :: (src.handles++R)) := sound
  obtain ⟨v,view⟩ := Option.ne_none_iff_exists'.mp (held.placed (.bytesMut m) List.mem_cons_self).viewed
  have small : (src.content H).length ≤ isizeMax := by omega
  refine (BytesMut.put_spec held view lies small).mono ?_ ?_
  · rintro src' p ⟨counts,absorbed⟩
    refine ⟨counts,absorbed.sound,?_,absorbed.consumed,absorbed.frame,absorbed.later⟩
    rw [Grows.space (.bytesMut p.2) absorbed.view,Grows.space (.bytesMut m) view]
    rfl
  · rintro k p (crowded | ⟨panic,wraps | ⟨less,kept,frame,large⟩⟩)
    · exact .inl crowded
    · exact .inr ⟨panic,.inl wraps⟩
    · have vast := large.resolve_left (Nat.not_lt_of_le free)
      refine .inr ⟨panic,.inr ⟨⟨0,?_⟩,.grows (.bytesMut m) (.bytesMut p.2) less.1 vast,frame⟩⟩
      rw [Grows.space (.bytesMut p.2) kept,Grows.space (.bytesMut m) view,List.take_zero,Space.write_nil]

/-- The whole source is written, in the version of each type. -/
theorem put_spec (sound : dst.Sound H (src.handles++R)) (lies : ∀ m, .bytesMut m ∈ dst.handles → ∃ e, m.Lies H e)
    (room : (src.content H).length ≤ (dst.space H).room) (free : ∀ h ∈ dst.handles, src.remaining+h.room ≤ isizeMax) :
    Sat (put A src) (H,dst) (fun src' p => ¬ dst.Wraps H src ∧ Filled A H R dst src p.1 p.2 src')
      (fun k p => k = .abort ∧ Crowded H ∨ k = .panic ∧ (dst.Wraps H src ∧ p = (H,dst) ∨ Strained H R dst (src.content H) p)) := by
  -- what fits a buffer that grows is counted
  have rem {n : Nat} (free : src.remaining+n ≤ isizeMax) : src.remaining = (src.content H).length := by
    have top : isizeMax < usizeMax := by decide
    have saturated := Buf.remaining_eq sound.source
    omega
  cases dst with
  | vec x =>
    have free := free _ (List.mem_singleton_self _)
    have rem := rem free
    simp only [put,sat_bind,Method.sat_self,Method.sat_within]
    exact (put_vec_spec sound rem (rem ▸ free)).mono (fun _ _ filled => ⟨id,filled⟩) (fun _ _ stops => .inr ⟨stops.1,.inr stops.2⟩)
  | bytesMut m =>
    have free := free _ (List.mem_singleton_self _)
    obtain ⟨e,lies⟩ := lies m (List.mem_singleton_self _)
    simp only [put,sat_bind,Method.sat_self,Method.sat_within]
    refine (put_bytesMut_spec sound lies (rem free ▸ free)).mono (fun _ _ => id) ?_
    rintro k _ (crowded | ⟨panic,⟨wraps,rfl⟩ | full⟩)
    · exact .inl crowded
    · exact .inr ⟨panic,.inl ⟨wraps,rfl⟩⟩
    · exact .inr ⟨panic,.inr full⟩
  | _ =>
    simp only [put,sat_bind,Method.sat_self]
    exact (put_default_spec sound room).mono (fun _ _ filled => ⟨id,filled⟩) (fun _ _ stops => .inr ⟨stops.1,.inr stops.2⟩)

/-- There is room for the source, and no part of the buffer would exceed the largest capacity by 64 bytes more. -/
def Fits (src : Buf) (dst : BufMut) : Prop := src.remaining ≤ dst.remaining_mut ∧ ∀ h ∈ dst.handles, h.room+src.remaining+64 ≤ isizeMax

end BufMut

namespace World
open BufMut
variable {w₀ w : World} {dst : BufMut}

/-- Where memory remains that a word cannot count, the source has no more bytes than that. -/
def Covers (w : World) (dst : BufMut) (src : Buf) : Prop :=
  dst.remaining_mut = usizeMax → (src.content w.heap).length ≤ (dst.space w.heap).room

theorem Covers.room (covers : w.Covers dst src) (sound : dst.Sound w.heap (src.handles++R)) (fits : Fits src dst) :
    (src.content w.heap).length ≤ (dst.space w.heap).room := by
  by_cases top : dst.remaining_mut = usizeMax
  · exact covers top
  · have fits := fits.1
    rw [Buf.remaining_eq sound.source] at fits
    rw [remaining_mut_eq sound] at fits top
    omega

/-- Two cells that are not yet written, and an empty buffer behind them. -/
def cells : MutSlice (Option UInt8) := ⟨[],[none,none],by decide⟩

end World
end Tcio
