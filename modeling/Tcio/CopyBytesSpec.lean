import Tcio.CopyBytes
import Tcio.BufSpec

/-!
What `copy_to_bytes` takes from a tree of cursors. Each implementation gives the first
bytes that are left and consumes them, as the default does; a `Bytes` of more bytes than
an object may have there is not.
-/
namespace Tcio
open Exec

variable {A : Allocator} {H H₁ H' : Heap} {R : List Handle} {h : Handle} {v w : List UInt8} {n j k limit : Nat}

namespace Buf
variable {buf buf' src src' a b t : Buf}

theorem content_le_size (sound : buf.Sound H R) : (buf.content H).length ≤ buf.size := by
  induction buf generalizing R with
  | slice s => exact Nat.le_refl _
  | bytes b =>
    obtain ⟨v,view⟩ := sound.viewed (h := .bytes b) (List.mem_singleton_self _)
    simp only [content,size,view,Option.getD_some]
    exact Nat.le_of_eq (length_of_view view)
  | bytesMut m =>
    obtain ⟨v,view⟩ := sound.viewed (h := .bytesMut m) (List.mem_singleton_self _)
    simp only [content,size,view,Option.getD_some]
    exact Nat.le_of_eq (length_of_view view)
  | chain a b left right =>
    rw [content,size,List.length_append]
    exact Nat.add_le_add (left sound.left) (right sound.left.swap)
  | take t limit ih =>
    rw [content,size,List.length_take]
    exact (Nat.min_le_right _ _).trans (ih sound)
  | refMut t ih => exact ih sound
  | boxed t ih => exact ih sound

/-- Where the handles of a cursor keep their views, it stands for the same bytes. -/
theorem content_frame (kept : ∀ h ∈ buf.handles, h.view H' = h.view H) : buf.content H' = buf.content H := by
  induction buf with
  | slice s => rfl
  | bytes b => rw [content,content,kept _ (List.mem_singleton_self _)]
  | bytesMut m => rw [content,content,kept _ (List.mem_singleton_self _)]
  | chain a b left right =>
    rw [content,content,left fun h mem => kept h (List.mem_append_left _ mem),right fun h mem => kept h (List.mem_append_right _ mem)]
  | take t limit ih => rw [content,content,ih kept]
  | refMut t ih => exact ih kept
  | boxed t ih => exact ih kept

/-- A handle in front of those of a cursor, or behind them. -/
theorem Sound.behind (sound : Tcio.Sound H [] (h :: (buf.handles++R))) : buf.Sound H (h :: R) :=
  Tcio.Sound.perm sound List.perm_middle.symm
theorem Sound.front (sound : buf.Sound H (h :: R)) : Tcio.Sound H [] (h :: (buf.handles++R)) :=
  Tcio.Sound.perm sound List.perm_middle

/-- Behind its first `j` bytes, `copy_to_bytes` of `n` more comes to a chain that has to join its
    parts, and the bytes left in both are more than a word counts. -/
def Wraps (H : Heap) : Buf → Nat → Nat → Prop
  | slice _,_,_ => False
  | bytes _,_,_ => False
  | bytesMut _,_,_ => False
  | chain a b,j,n =>
    if n ≤ (a.content H).length-j then a.Wraps H j n
    else if (a.content H).length ≤ j then b.Wraps H (j-(a.content H).length) n
    else usizeMax < (a.content H).length-j+(b.content H).length
  | take t limit,j,n => n ≤ limit-j ∧ t.Wraps H j n
  | refMut t,j,n => t.Wraps H j n
  | boxed t,j,n => t.Wraps H j n

/-- No chain is joined for no bytes. -/
theorem not_wraps_zero : ¬ buf.Wraps H j 0 := by
  induction buf generalizing j with
  | chain a b left _ =>
    rw [Wraps,if_pos (Nat.zero_le _)]
    exact left
  | take t limit ih => exact fun wraps => ih wraps.2
  | refMut t ih => exact ih
  | boxed t ih => exact ih
  | _ => exact id

/-- Two bytes of a chain that has more than a word counts. -/
theorem wraps_two : ∃ buf : Buf, buf.handles = [] ∧ buf.remaining = 2 ∧ ∀ H, buf.Wraps H 0 2 := by
  obtain ⟨s,one⟩ := Slice.of_len (n := 1) (by decide)
  obtain ⟨l,large⟩ := Slice.of_len (Nat.le_refl isizeMax)
  refine ⟨take (chain (slice s) (chain (slice s) (chain (slice l) (slice l)))) 2,rfl,?_,fun H => ?_⟩
  · simp only [remaining,one,large]
    decide
  · have one : s.bytes.length = 1 := one
    have large : l.bytes.length = isizeMax := large
    simp only [Wraps,content,List.length_append,one,large]
    decide

/-- What is left can be counted where the whole could. -/
theorem Consumed.wraps (consumed : Consumed H H' k buf buf') : buf'.Wraps H' j n ↔ buf.Wraps H (k+j) n := by
  induction consumed generalizing j with
  | slice _ => exact Iff.rfl
  | bytes _ _ _ => exact Iff.rfl
  | bytesMut _ _ _ => exact Iff.rfl
  | @chain a a' b b' i k left right order one two =>
    obtain ⟨inside,rest⟩ := left.content
    obtain ⟨_,rest'⟩ := right.content
    rcases Nat.eq_zero_or_pos n with rfl | some'
    · exact iff_of_false not_wraps_zero not_wraps_zero
    rw [Wraps,Wraps,rest,rest',List.length_drop,List.length_drop]
    rcases order with rfl | all
    · -- nothing of the second part is gone
      have same : (a.content H).length-i-j = (a.content H).length-(i+0+j) := by omega
      have past : 0+(j-((a.content H).length-i)) = i+0+j-(a.content H).length := by omega
      rw [same,one,two,past]
      split_ifs with front back back'
      · rfl
      · rfl
      · omega
      · omega
      · rfl
    · have none : ¬ n ≤ (a.content H).length-i-j := by omega
      have none' : ¬ n ≤ (a.content H).length-(i+k+j) := by omega
      rw [if_neg none,if_neg none',if_pos (by omega),if_pos (by omega),two]
      have past : k+(j-((a.content H).length-i)) = i+k+j-(a.content H).length := by omega
      rw [past]
  | take _ _ ih =>
    rw [Wraps,Wraps,ih,Nat.sub_sub]
  | refMut _ ih => exact ih
  | boxed _ ih => exact ih

/-- A count that fits a word is the length. -/
theorem remaining_of_le (sound : buf.Sound H R) (fits : (buf.content H).length ≤ usizeMax) : buf.remaining = (buf.content H).length := by
  rw [remaining_eq sound,Nat.min_eq_left fits]

/-! ### Appending a cursor -/

/-- The first `j` bytes of a cursor were appended to what a handle held. -/
structure Appended (A : Allocator) (H : Heap) (R : List Handle) (v : List UInt8) (src : Buf) (j : Nat) (H' : Heap) (h : Handle) (src' : Buf) :
    Prop where
  sound : Tcio.Sound H' [] (h :: (src'.handles++R))
  view : h.view H' = some (v++(src.content H).take j)
  consumed : Consumed H H' j src src'
  frame : ∀ r ∈ R, r.view H' = r.view H
  later : H.Later A H'

theorem Appended.start (sound : Tcio.Sound H [] (h :: (src.handles++R))) (view : h.view H = some v) :
    Appended A H R v src 0 H h src :=
  ⟨sound,by rw [List.take_zero,List.append_nil,view],.idle (Sound.behind sound) fun _ _ => rfl,fun _ _ => rfl,.refl A H⟩

/-- A chunk is appended and the cursor is advanced behind it. -/
theorem Appended.chunk {h' : Handle} {s : List UInt8} (appended : Appended A H R v src j H₁ h src') (first : s <+: src'.content H₁)
    (turns : Turns A H₁ (src'.handles++R) H' [] [(h',v++(src.content H).take j++s)])
    (moves : Moves A H' (h' :: R) s.length src' H' buf') : Appended A H R v src (j+s.length) H' h' buf' where
  sound := moves.sound.front
  view := by
    obtain ⟨inside,left⟩ := appended.consumed.content
    obtain ⟨rest,whole⟩ := first
    rw [left] at whole
    rw [turns.view,List.append_assoc,List.take_add,← whole,List.take_left]
  consumed := by
    have kept : Consumed H₁ H' 0 src' src' := .idle (Sound.behind appended.sound) fun h mem => turns.frame h (List.mem_append_left _ mem)
    have moved := kept.trans moves.consumed
    rw [Nat.zero_add] at moved
    exact appended.consumed.trans moved
  frame r mem := (turns.frame r (List.mem_append_right _ mem)).trans (appended.frame r mem)
  later := appended.later.trans turns.later

variable {S : Type} {inj : S → Handle} {extend : List UInt8 → Method S Unit} {P : S → Prop} {s : S}
variable {E : Heap × S → Stop → Heap × S → Prop}

/-- Appending a slice to what a value holds, where all that it comes to hold is a part of `whole`. -/
def Extends (A : Allocator) (inj : S → Handle) (P : S → Prop) (whole : List UInt8) (E : Heap × S → Stop → Heap × S → Prop)
    (extend : List UInt8 → Method S Unit) : Prop :=
  ∀ H R s v w, Tcio.Sound H [] (inj s :: R) → (inj s).view H = some v → P s → w.length ≤ isizeMax → v++w <+: whole →
    Sat (extend w) (H,s) (fun _ p => P p.2 ∧ Turns A H R p.1 [] [(inj p.2,v++w)]) (E (H,s))

theorem extend_round_spec (extends_ : Extends A inj P (v++src.content H) E extend) {p : (Heap × S) × Buf}
    (inv : P p.1.2 ∧ Appended A H R v src j p.1.1 (inj p.1.2) p.2) : Sat (extend_round extend) p
      (fun o q => (∀ a, o = some a → q = p ∧ p.2.content p.1.1 = []) ∧ (o = none →
        (P q.1.2 ∧ ∃ j, Appended A H R v src j q.1.1 (inj q.1.2) q.2) ∧ (q.2.content q.1.1).length < (p.2.content p.1.1).length))
      (fun k q => E p.1 k q.1) := by
  obtain ⟨⟨H₁,s⟩,src'⟩ := p
  obtain ⟨kept,appended⟩ := inv
  simp only at kept appended
  have sound := Sound.behind appended.sound
  have some' := has_remaining_iff sound
  simp only [extend_round,sat_bind,sat_get,sat_ite,sat_pure,sat_onFst,sat_modify]
  refine ⟨fun none => ⟨fun _ _ => ⟨trivial,?_⟩,fun bad => by cases bad⟩,fun more => ?_⟩
  · by_contra rest
    exact none (some'.mpr rest)
  · obtain ⟨c,ran,small,first,fills⟩ := chunk_ok sound
    have nonempty := fills (some'.mp (not_not.mp more))
    obtain ⟨inside,left⟩ := appended.consumed.content
    rw [sat_of_ok ran]
    refine (extends_ H₁ (src'.handles++R) s _ c appended.sound appended.view kept small ?_).mono ?_ (fun _ _ => id)
    · rw [left] at first
      rw [List.append_assoc]
      refine (List.prefix_append_right_inj v).mpr ?_
      conv_rhs => rw [← List.take_append_drop j (src.content H)]
      exact (List.prefix_append_right_inj _).mpr first
    · rintro _ ⟨H₂,s'⟩ ⟨kept',turns⟩
      have same : src'.content H₂ = src'.content H₁ := content_frame fun h mem => turns.frame h (List.mem_append_left _ mem)
      have sound' := Sound.behind turns.sound
      have word : isizeMax ≤ usizeMax := by decide
      refine (advance_spec A (n := c.length) sound' (by omega)).mono ?_ ?_
      · rintro src'' _ ⟨rfl,moves⟩
        refine ⟨fun _ bad => (by cases bad),fun _ => ⟨⟨kept',_,appended.chunk first turns moves⟩,?_⟩⟩
        obtain ⟨inside',left'⟩ := moves.consumed.content
        have := List.length_pos_iff.mpr nonempty
        simp only [left',List.length_drop,same] at inside' ⊢
        omega
      · rintro k _ ⟨_,_,short⟩
        have := first.length_le
        rw [same] at short
        omega

/-- The loop appends the whole cursor; it stops only where an append does. -/
theorem extend_all_spec (extends_ : Extends A inj P (v++src.content H) E extend) (sound : Tcio.Sound H [] (inj s :: (src.handles++R)))
    (view : (inj s).view H = some v) (kept : P s) : Sat (extend_all extend src) (H,s)
      (fun src' p => P p.2 ∧ Appended A H R v src (src.content H).length p.1 (inj p.2) src')
      (fun k p => ∃ j q src', P q.2 ∧ Appended A H R v src j q.1 (inj q.2) src' ∧ E q k p) := by
  have rounds := content_le_size (Sound.behind sound)
  simp only [extend_all,sat_bind,sat_lend,sat_pure]
  refine Sat.mono (Sat.loop (Q := fun _ p => P p.1.2 ∧ Appended A H R v src (src.content H).length p.1.1 (inj p.1.2) p.2)
    (E := fun k p => ∃ j q src', P q.2 ∧ Appended A H R v src j q.1 (inj q.2) src' ∧ E q k p.1)
    (fun p => P p.1.2 ∧ ∃ j, Appended A H R v src j p.1.1 (inj p.1.2) p.2) (fun p => (p.2.content p.1.1).length) ?_ _ _ ?_ ?_)
    (fun _ _ => id) (fun _ _ => id)
  · rintro p ⟨kept,j,appended⟩
    refine (extend_round_spec extends_ ⟨kept,appended⟩).mono ?_ ?_
    · rintro o q ⟨done,again⟩
      refine ⟨fun a found => ?_,again⟩
      obtain ⟨rfl,none⟩ := done a found
      obtain ⟨inside,left⟩ := appended.consumed.content
      rw [none,eq_comm,List.drop_eq_nil_iff] at left
      have all : j = (src.content H).length := Nat.le_antisymm inside left
      exact ⟨kept,all ▸ appended⟩
    · intro k q stops
      exact ⟨j,p.1,p.2,kept,appended,stops⟩
  · exact ⟨kept,0,.start sound view⟩
  · exact Nat.lt_succ_of_le rounds

/-! ### A buffer with room enough -/

/-- What there is room for is appended in place. -/
def Roomy (A : Allocator) (inj : S → Handle) (extend : List UInt8 → Method S Unit) : Prop :=
  ∀ H R s v w, Tcio.Sound H [] (inj s :: R) → (inj s).view H = some v → w.length ≤ (inj s).room-(inj s).len →
    Sat (extend w) (H,s) (fun _ p => (inj p.2).room = (inj s).room ∧ Turns A H R p.1 [] [(inj p.2,v++w)]) (fun _ _ => False)

theorem roomy_bytesMut : Roomy A Handle.bytesMut (BytesMut.extend_from_slice A) := by
  intro H R m v w sound view room
  refine (BytesMut.extend_roomy sound view room).mono ?_ (fun _ _ => id)
  rintro _ p ⟨grown,turns⟩
  exact ⟨by rw [grown]; rfl,turns⟩

/-- The loop of `put` stays in a buffer with room enough. -/
theorem fill_roomy (roomy : Roomy A inj extend) (sound : Tcio.Sound H [] (inj s :: (src.handles++R))) (view : (inj s).view H = some v)
    (room : (src.content H).length ≤ (inj s).room-(inj s).len) : Sat (extend_all extend src) (H,s)
      (fun src' p => (inj p.2).room = (inj s).room ∧ Appended A H R v src (src.content H).length p.1 (inj p.2) src') (fun _ _ => False) := by
  have length : v.length = (inj s).len := length_of_view view
  have fits : (inj s).len ≤ (inj s).room := (Turns.start (A := A) sound view).placed.fits
  have extends_ : Extends A inj (fun s' => (inj s').room = (inj s).room) (v++src.content H) (fun _ _ _ => False) extend := by
    intro H R s' u w sound view same _ part
    have length' : u.length = (inj s').len := length_of_view view
    have less := part.length_le
    simp only [List.length_append] at less
    refine (roomy H R s' u w sound view (by omega)).mono ?_ (fun _ _ => id)
    rintro _ p ⟨kept,turns⟩
    exact ⟨kept.trans same,turns⟩
  refine (extend_all_spec extends_ sound view rfl).mono (fun _ _ => id) ?_
  rintro k p ⟨_,_,_,_,_,no⟩
  exact no

/-- `put` copies the cursor into a buffer with room for it, and gives what it borrowed back. -/
theorem put_roomy {m : BytesMut} {copy : Nat → Exec Heap (Bytes × Buf)} (sound : Tcio.Sound H [] (.bytesMut m :: (src.handles++R)))
    (view : (Handle.bytesMut m).view H = some v) (room : (src.content H).length ≤ m.cap-m.len)
    (borrows : ∀ H' src', Consumed H H' (src.content H).length src src' → src'.drop H' = (.ok src',H')) :
    Sat (BytesMut.put A copy src) (H,m) (fun src' p => p.2.cap = m.cap ∧
      Appended A H R v src (src.content H).length p.1 (.bytesMut p.2) src') (fun _ _ => False) := by
  have fits : m.len ≤ m.cap := (Turns.start (A := A) sound view).placed.fits
  have begins := Appended.start (A := A) sound view
  have rem := remaining_eq (Sound.behind sound)
  have some' := has_remaining_iff (Sound.behind sound)
  simp only [BytesMut.put,BytesMut.capacity,sat_bind,Method.sat_self,sat_ite,sat_onFst]
  refine ⟨fun none => ?_,fun more => ⟨fun bad => ?_,fun _ => ?_⟩⟩
  · have empty : (src.content H).length = 0 := by
      rw [some',not_not] at none
      rw [none]
      rfl
    rw [empty] at borrows ⊢
    rw [sat_of_ok (borrows H src begins.consumed)]
    exact ⟨trivial,begins⟩
  · have positive := List.length_pos_iff.mpr (some'.mp (not_not.mp more))
    omega
  · rw [sat_of_ok (BytesMut.reserve_roomy fits (by omega))]
    refine (fill_roomy roomy_bytesMut sound view room).mono ?_ (fun _ _ => False.elim)
    rintro src' ⟨H',m'⟩ ⟨same,appended⟩
    rw [sat_of_ok (borrows H' src' appended.consumed)]
    exact ⟨same,appended⟩

/-! ### `copy_to_bytes` -/

/-- What was appended from a part of a cursor was appended from the cursor. -/
theorem Appended.outer {outer outer' : Buf} (appended : Appended A H R v src j H' h src')
    (same : (outer.content H).take j = (src.content H).take j) (handles : outer'.handles = src'.handles)
    (consumed : Consumed H H' j outer outer') : Appended A H R v outer j H' h outer' :=
  ⟨handles ▸ appended.sound,same ▸ appended.view,consumed,appended.frame,appended.later⟩

theorem Appended.left (appended : Appended A H (b.handles++R) v a j H' h src') (sound : (chain a b).Sound H R) (inside : j ≤ (a.content H).length) :
    Appended A H R v (chain a b) j H' h (chain src' b) where
  sound := by
    rw [handles,List.append_assoc]
    exact appended.sound
  view := by
    rw [content,List.take_append_of_le_length inside]
    exact appended.view
  consumed := .chain appended.consumed (.idle sound.left.swap fun h mem => appended.frame h (List.mem_append_left _ mem)) (.inl rfl)
  frame r mem := appended.frame r (List.mem_append_right _ mem)
  later := appended.later

theorem Appended.right (appended : Appended A H (a.handles++R) v b j H' h src') (sound : (chain a b).Sound H R) (empty : a.content H = []) :
    Appended A H R v (chain a b) j H' h (chain a src') where
  sound := by
    rw [handles,List.append_assoc]
    exact appended.sound.perm (List.perm_append_comm_assoc _ _ _ |>.cons h)
  view := by
    rw [content,empty]
    exact appended.view
  consumed := by
    have stays : Consumed H H' 0 a a := .idle sound.left fun h mem => appended.frame h (List.mem_append_left _ mem)
    have whole := Consumed.chain stays appended.consumed (.inr (by rw [empty]; rfl))
    rwa [Nat.zero_add] at whole
  frame r mem := appended.frame r (List.mem_append_right _ mem)
  later := appended.later

/-- Handles that keep their views consume nothing before a call, nor after it. -/
theorem Consumed.before {R' : List Handle} (consumed : Consumed H₁ H' n buf buf') (sound : buf.Sound H R') (kept : ∀ h ∈ buf.handles, h.view H₁ = h.view H) :
    Consumed H H' n buf buf' := by
  have whole := (Consumed.idle sound kept).trans consumed
  rwa [Nat.zero_add] at whole
theorem Consumed.after {R' : List Handle} (consumed : Consumed H H₁ n buf buf') (sound : buf'.Sound H₁ R') (kept : ∀ h ∈ buf'.handles, h.view H' = h.view H₁) :
    Consumed H H' n buf buf' :=
  consumed.trans (.idle sound kept)

/-- Nothing is appended while the buffer only makes room. -/
theorem Appended.before {R' : List Handle} {L : List (Handle × List UInt8)} (appended : Appended A H₁ R v src j H' h src')
    (turns : Turns A H (src.handles++R) H₁ [] L) (sound : src.Sound H R') : Appended A H R v src j H' h src' := by
  have kept : ∀ h ∈ src.handles, h.view H₁ = h.view H := fun h mem => turns.frame h (List.mem_append_left _ mem)
  refine ⟨appended.sound,?_,appended.consumed.before sound kept,fun r mem => ?_,turns.later.trans appended.later⟩
  · rw [appended.view,content_frame kept]
  · rw [appended.frame r mem]
    exact turns.frame r (List.mem_append_right _ mem)

theorem Consumed.of_ref (consumed : Consumed H H' n (Buf.refMut t) buf') : ∃ t', buf' = Buf.refMut t' ∧ Consumed H H' n t t' := by
  cases consumed with
  | refMut inner => exact ⟨_,rfl,inner⟩
theorem Consumed.of_take (consumed : Consumed H H' n (Buf.take t limit) buf') :
    ∃ t', buf' = Buf.take t' (limit-n) ∧ Consumed H H' n t t' := by
  cases consumed with
  | take _ inner => exact ⟨_,rfl,inner⟩

/-- What may go wrong where there are bytes enough: a count overflows, or a `Bytes` that long
    is not to be had. -/
def CopyStops (H : Heap) (n : Nat) (k : Stop) : Prop := k = .abort ∧ n ≤ isizeMax ∧ Crowded H ∨ k = .panic ∧ isizeMax < n

/-- Both parts of a chain are copied into a buffer of their own. -/
theorem straddle_spec {copy copy' : Nat → Exec Heap (Bytes × Buf)} (sound : (chain a b).Sound H R)
    (whole : (a.content H).length+limit = n) (more : 0 < limit) (inside : limit ≤ (b.content H).length) :
    Sat (do
      let bufm ← BytesMut.with_capacity A n
      let (a,bufm) ← lend bufm (BytesMut.put A copy (refMut a))
      let (b,bufm) ← lend bufm (BytesMut.put A copy' (take (refMut b) limit))
      return (← bufm.freeze A,chain a.borrowed b.borrowed)) H
      (fun r H' => Appended A H R [] (chain a b) n H' (.bytes r.1) r.2) (fun k _ => k = .panic ∧ isizeMax < n) := by
  simp only [sat_bind,sat_lend,sat_pure]
  refine (BytesMut.with_capacity_spec sound.left).mono ?_ (fun _ _ stops => ⟨stops.1,stops.2.1⟩)
  rintro m H₁ ⟨room,made⟩
  have same_a : a.content H₁ = a.content H := content_frame fun h mem => made.frame h (List.mem_append_left _ mem)
  have same_b : b.content H₁ = b.content H :=
    content_frame fun h mem => made.frame h (List.mem_append_right _ (List.mem_append_left _ mem))
  have empty : m.len = 0 := (length_of_view made.view).symm
  -- the first part is copied as a whole
  have start : Tcio.Sound H₁ [] (.bytesMut m :: ((refMut a).handles++(b.handles++R))) := made.sound
  refine (put_roomy start made.view ?_ ?_).mono ?_ (fun _ _ => False.elim)
  · simp only [content,same_a,empty]
    omega
  · intro H' src consumed
    obtain ⟨a',rfl,_⟩ := consumed.of_ref
    rfl
  rintro src ⟨H₂,m₂⟩ ⟨cap₂,first⟩
  obtain ⟨a',rfl,consumed_a⟩ := first.consumed.of_ref
  simp only [content,same_a] at first cap₂ consumed_a
  have same_b' : b.content H₂ = b.content H := by
    rw [← same_b]
    exact content_frame fun h mem => first.frame h (List.mem_append_left _ mem)
  have view_a : (Handle.bytesMut m₂).view H₂ = some (a.content H) := by simpa only [content,same_a,List.take_length,List.nil_append] using first.view
  have len₂ : m₂.len = (a.content H).length := (length_of_view view_a).symm
  have sound₂ : Tcio.Sound H₂ [] (.bytesMut m₂ :: ((take (refMut b) limit).handles++(a'.handles++R))) :=
    first.sound.perm (List.perm_append_comm_assoc _ _ _ |>.cons _)
  -- and as much of the second as is asked for
  refine (put_roomy sound₂ view_a ?_ ?_).mono ?_ (fun _ _ => False.elim)
  · simp only [content,same_b',List.length_take]
    omega
  · intro H' src consumed
    obtain ⟨t',rfl,inner⟩ := consumed.of_take
    obtain ⟨b',rfl,_⟩ := inner.of_ref
    rfl
  rintro src ⟨H₃,m₃⟩ ⟨_,second⟩
  obtain ⟨t',rfl,inner⟩ := second.consumed.of_take
  obtain ⟨b',rfl,consumed_b⟩ := inner.of_ref
  have count : ((take (refMut b) limit).content H₂).length = limit := by
    simp only [content,same_b',List.length_take]
    omega
  have joined : (chain a b).content H = a.content H++b.content H := rfl
  have view_b : (Handle.bytesMut m₃).view H₃ = some (((chain a b).content H).take n) := by
    rw [second.view,List.take_length,joined,← whole,List.take_length_add_append]
    simp only [content,same_b']
  refine (BytesMut.freeze_spec second.sound view_b).mono ?_ (fun _ _ => False.elim)
  intro r H' turns
  rw [count] at consumed_b
  have keeps_a : ∀ h ∈ a'.handles, h.view H' = h.view H₂ := fun h mem =>
    (turns.frame h (List.mem_append_right _ (List.mem_append_left _ mem))).trans (second.frame h (List.mem_append_left _ mem))
  have keeps_b : ∀ h ∈ b.handles, h.view H₂ = h.view H := fun h mem =>
    (first.frame h (List.mem_append_left _ mem)).trans (made.frame h (List.mem_append_right _ (List.mem_append_left _ mem)))
  have after_a : Consumed H H' (a.content H).length a a' :=
    (consumed_a.before sound.left fun h mem => made.frame h (List.mem_append_left _ mem)).after
      (Sound.behind first.sound) keeps_a
  have after_b : Consumed H H' limit b b' :=
    (consumed_b.before sound.left.swap keeps_b).after (Sound.behind second.sound) fun h mem => turns.frame h (List.mem_append_left _ mem)
  refine ⟨?_,turns.view,whole ▸ .chain after_a after_b (.inr rfl),?_,?_⟩
  · refine turns.sound.perm (List.Perm.cons _ ?_)
    show (b'.handles++(a'.handles++R)).Perm ((a'.handles++b'.handles)++R)
    rw [← List.append_assoc]
    exact List.perm_append_comm.append_right R
  · intro r mem
    have far : r ∈ a'.handles++R := List.mem_append_right _ mem
    rw [turns.frame r (List.mem_append_right _ far),second.frame r far,first.frame r (List.mem_append_right _ mem)]
    exact made.frame r (List.mem_append_right _ (List.mem_append_right _ mem))
  · exact ((made.later.trans first.later).trans second.later).trans turns.later

/-- A handle with fewer bytes is not split. -/
theorem split_short {b : Bytes} (short : b.len < n) :
    Sat (Bytes.split_to A n) (H,b) (fun _ _ => False) (fun k p => k = .panic ∧ p.1 = H) := by
  simp [Bytes.split_to,Bytes.try_split_to,short]
theorem split_short_mut {m : BytesMut} (short : m.len < n) :
    Sat (BytesMut.split_to A n) (H,m) (fun _ _ => False) (fun k p => k = .panic ∧ p.1 = H) := by
  simp [BytesMut.split_to,BytesMut.try_split_to,short]

/-- The first bytes are given and consumed, whichever types the cursor is made of. -/
theorem copy_to_bytes_spec (sound : buf.Sound H R) (word : n ≤ usizeMax) : Sat (buf.copy_to_bytes A n) H
    (fun r H' => n ≤ (buf.content H).length ∧ ¬ buf.Wraps H 0 n ∧ Appended A H R [] buf n H' (.bytes r.1) r.2)
    (fun k H' => n ≤ (buf.content H).length ∧ CopyStops H n k ∨
      k = .panic ∧ H' = H ∧ ((buf.content H).length < n ∨ buf.Wraps H 0 n)) := by
  induction buf generalizing R n with
  | slice s =>
    simp only [copy_to_bytes,sat_bind,sat_check,sat_pure]
    refine ⟨fun inside => ?_,fun short => .inr ⟨trivial,trivial,.inl (Nat.lt_of_not_le short)⟩⟩
    refine (Bytes.copy_from_slice_spec (R := R) sound).mono (fun r H' turns => ?_) ?_
    · exact ⟨inside,id,turns.sound,turns.view,.slice inside,turns.frame,turns.later⟩
    · rintro k _ ⟨rfl,large,_⟩
      refine .inl ⟨inside,.inr ⟨rfl,?_⟩⟩
      rw [List.length_take] at large
      omega
  | bytes b =>
    obtain ⟨v,view⟩ := sound.viewed (h := .bytes b) (List.mem_singleton_self _)
    have same : (bytes b).content H = v := by rw [content,view,Option.getD_some]
    have length : v.length = b.len := length_of_view view
    have small := Bytes.len_small sound
    simp only [copy_to_bytes,sat_bind,sat_lend,sat_pure,same]
    by_cases inside : n ≤ b.len
    rotate_left
    · exact (split_short (Nat.lt_of_not_le inside)).mono (fun _ _ => False.elim) fun _ _ panics => .inr ⟨panics.1,panics.2,.inl (by omega)⟩
    refine (Bytes.split_to_spec sound view).mono ?_ ?_
    · rintro front ⟨H',b'⟩ ⟨inside,turns⟩
      refine ⟨by omega,id,turns.swap.sound,?_,.bytes view (by omega) turns.view,turns.frame,turns.later⟩
      rw [same]
      exact turns.swap.view
    · rintro k p (⟨rfl,crowded⟩ | ⟨rfl,short,_⟩)
      · exact .inl ⟨by omega,.inl ⟨rfl,by omega,crowded⟩⟩
      · omega
  | bytesMut m =>
    obtain ⟨v,view⟩ := sound.viewed (h := .bytesMut m) (List.mem_singleton_self _)
    have same : (bytesMut m).content H = v := by rw [content,view,Option.getD_some]
    have length : v.length = m.len := length_of_view view
    have small := BytesMut.cap_small sound
    have fits : m.len ≤ m.cap := (sound_cons.mp sound).2.1.fits
    simp only [copy_to_bytes,sat_bind,sat_lend,sat_pure,same]
    by_cases inside : n ≤ m.len
    rotate_left
    · exact (split_short_mut (Nat.lt_of_not_le inside)).mono (fun _ _ => False.elim) fun _ _ panics => .inr ⟨panics.1,panics.2,.inl (by omega)⟩
    refine (BytesMut.split_to_spec sound view).mono ?_ ?_
    · rintro front ⟨H₁,m'⟩ ⟨inside,_,_,turns⟩
      refine (BytesMut.freeze_spec turns.swap.sound turns.swap.view).mono ?_ (fun _ _ => False.elim)
      intro r H' frozen
      have kept : (Handle.bytesMut m').view H' = some (v.drop n) := (frozen.frame _ List.mem_cons_self).trans turns.view
      refine ⟨by omega,id,frozen.sound,?_,.bytesMut view (by omega) kept,fun r mem => ?_,turns.later.trans frozen.later⟩
      · rw [same]
        exact frozen.view
      · exact (frozen.frame r (List.mem_cons_of_mem _ mem)).trans (turns.frame r mem)
    · rintro k p (⟨rfl,crowded⟩ | ⟨rfl,short,_⟩)
      · exact .inl ⟨by omega,.inl ⟨rfl,by omega,crowded⟩⟩
      · omega
  | chain a b left right =>
    have top : usizeMax = 2^64-1 := rfl
    have rem_a := remaining_eq sound.left
    have rem_b := remaining_eq sound.left.swap
    have length : ((chain a b).content H).length = (a.content H).length+(b.content H).length := by rw [content,List.length_append]
    simp only [copy_to_bytes,sat_ite]
    refine ⟨fun enough => ?_,fun beyond => ⟨fun none => ?_,fun some' => ?_⟩⟩
    · have front : n ≤ (a.content H).length := by omega
      have wraps : (chain a b).Wraps H 0 n ↔ a.Wraps H 0 n := by rw [Wraps,Nat.sub_zero,if_pos front]
      simp only [sat_bind,sat_pure,wraps]
      refine (left sound.left word).mono ?_ ?_
      · rintro r H' ⟨_,counts,appended⟩
        exact ⟨by omega,counts,appended.left sound front⟩
      · rintro k _ (⟨_,stops⟩ | ⟨rfl,same,short | wraps⟩)
        · exact .inl ⟨by omega,stops⟩
        · omega
        · exact .inr ⟨rfl,same,.inr wraps⟩
    · have zero : (a.content H).length = 0 := by omega
      have empty : a.content H = [] := List.length_eq_zero_iff.mp zero
      have wraps : (chain a b).Wraps H 0 n ↔ b.Wraps H 0 n := by
        rw [Wraps,zero,if_neg (by omega),if_pos (Nat.le_refl _)]
      simp only [sat_bind,sat_pure,wraps]
      refine (right sound.left.swap word).mono ?_ ?_
      · rintro r H' ⟨inside,counts,appended⟩
        exact ⟨by omega,counts,appended.right sound empty⟩
      · rintro k _ (⟨inside,stops⟩ | ⟨rfl,same,short | wraps⟩)
        · exact .inl ⟨by omega,stops⟩
        · exact .inr ⟨rfl,same,.inl (by omega)⟩
        · exact .inr ⟨rfl,same,.inr wraps⟩
    · have wraps : (chain a b).Wraps H 0 n ↔ usizeMax < (a.content H).length+(b.content H).length := by
        rw [Wraps,Nat.sub_zero,if_neg (by omega),if_neg (by omega)]
      have second : a.remaining+(n-a.remaining) = n := by omega
      have all : a.remaining = (a.content H).length := by omega
      rw [sat_bind,sat_check,wraps]
      -- a sum that does not fit a word is less than what is left in front alone
      have sum : n ≤ wrap (a.remaining+b.remaining) ↔
          n ≤ (a.content H).length+(b.content H).length ∧ (a.content H).length+(b.content H).length ≤ usizeMax := by
        rw [wrap]
        omega
      refine ⟨fun inside => ?_,fun short => .inr ⟨rfl,rfl,?_⟩⟩
      · obtain ⟨inside,counts⟩ := sum.mp inside
        rw [all] at second ⊢
        refine (straddle_spec sound second (by omega) (by omega)).mono ?_ ?_
        · exact fun r H' appended => ⟨by omega,by omega,appended⟩
        · exact fun k _ stops => .inl ⟨by omega,.inr stops⟩
      · rw [sum,not_and_or] at short
        omega
  | take t limit ih =>
    have length : ((take t limit).content H).length = min limit (t.content H).length := by rw [content,List.length_take]
    simp only [copy_to_bytes,copy_take,sat_bind,sat_check,sat_pure]
    refine ⟨fun within => (ih sound word).mono ?_ ?_,fun short => .inr ⟨trivial,trivial,.inl (by omega)⟩⟩
    · rintro r H' ⟨inside,counts,appended⟩
      refine ⟨by omega,fun wraps => counts wraps.2,appended.outer ?_ rfl (.take within appended.consumed)⟩
      rw [content,List.take_take,Nat.min_eq_left within]
    · rintro k _ (⟨inside,stops⟩ | ⟨rfl,same,short | wraps⟩)
      · exact .inl ⟨by omega,stops⟩
      · exact .inr ⟨rfl,same,.inl (by omega)⟩
      · exact .inr ⟨rfl,same,.inr ⟨within,wraps⟩⟩
  | refMut t ih =>
    simp only [copy_to_bytes,copy_ref,sat_bind,sat_pure]
    exact (ih sound word).mono (fun r H' post => ⟨post.1,post.2.1,post.2.2.outer rfl rfl (.refMut post.2.2.consumed)⟩) (fun _ _ => id)
  | boxed t ih =>
    simp only [copy_to_bytes,copy_boxed,sat_bind,sat_pure]
    exact (ih sound word).mono (fun r H' post => ⟨post.1,post.2.1,post.2.2.outer rfl rfl (.boxed post.2.2.consumed)⟩) (fun _ _ => id)

/-- The default gives and consumes the same bytes. -/
theorem copy_to_bytes_default_spec (sound : buf.Sound H R) (word : n ≤ usizeMax) : Sat (buf.copy_to_bytes_default A n) H
    (fun r H' => n ≤ (buf.content H).length ∧ Appended A H R [] buf n H' (.bytes r.1) r.2)
    (fun k _ => k = .panic ∧ (isizeMax < n ∨ (buf.content H).length < n)) := by
  have rem := remaining_eq sound
  simp only [copy_to_bytes_default,sat_bind,sat_check,sat_lend,sat_pure]
  refine ⟨fun inside => ?_,fun short => ⟨trivial,.inr (by omega)⟩⟩
  have inside : n ≤ (buf.content H).length := by omega
  refine (BytesMut.with_capacity_spec (R := buf.handles++R) sound).mono ?_ (fun _ _ stops => ⟨stops.1,.inl stops.2.1⟩)
  rintro m H₁ ⟨room,made⟩
  have same : buf.content H₁ = buf.content H := content_frame fun h mem => made.frame h (List.mem_append_left _ mem)
  have empty : m.len = 0 := (length_of_view made.view).symm
  have count : ((take (refMut buf) n).content H₁).length = n := by
    simp only [content,same,List.length_take]
    omega
  have start : Tcio.Sound H₁ [] (.bytesMut m :: ((take (refMut buf) n).handles++R)) := made.sound
  refine (put_roomy start made.view (by omega) ?_).mono ?_ (fun _ _ => False.elim)
  · intro H' src consumed
    obtain ⟨t',rfl,inner⟩ := consumed.of_take
    obtain ⟨_,rfl,_⟩ := inner.of_ref
    rfl
  rintro src ⟨H₂,m₂⟩ ⟨_,filled⟩
  obtain ⟨t',rfl,inner⟩ := filled.consumed.of_take
  obtain ⟨buf',rfl,consumed⟩ := inner.of_ref
  rw [count] at consumed
  have view : (Handle.bytesMut m₂).view H₂ = some ((buf.content H).take n) := by
    rw [filled.view,List.take_length,List.nil_append]
    simp only [content,same]
  refine (BytesMut.freeze_spec filled.sound view).mono ?_ (fun _ _ => False.elim)
  intro r H' frozen
  have after : Consumed H H' n buf buf' :=
    (consumed.before sound fun h mem => made.frame h (List.mem_append_left _ mem)).after (Sound.behind filled.sound)
      fun h mem => frozen.frame h (List.mem_append_left _ mem)
  refine ⟨inside,frozen.sound,frozen.view,after,fun r mem => ?_,(made.later.trans filled.later).trans frozen.later⟩
  rw [frozen.frame r (List.mem_append_right _ mem),filled.frame r mem]
  exact made.frame r (List.mem_append_right _ mem)

/-! ### Dropping a cursor -/

/-- What is left when a cursor is dropped: what it borrowed. -/
def rest : Buf → Buf
  | slice _ => gone
  | bytes _ => gone
  | bytesMut _ => gone
  | chain a b => chain a.rest b.rest
  | take t limit => take t.rest limit
  | refMut t => refMut t
  | boxed t => boxed t.rest

theorem rest_sub (mem : h ∈ buf.rest.handles) : h ∈ buf.handles := by
  induction buf with
  | slice s => cases mem
  | bytes b => cases mem
  | bytesMut m => cases mem
  | chain a b left right =>
    rcases List.mem_append.mp mem with inside | inside
    · exact List.mem_append_left _ (left inside)
    · exact List.mem_append_right _ (right inside)
  | take t limit ih => exact ih mem
  | refMut t ih => exact mem
  | boxed t ih => exact ih mem

/-- Only what it owns goes with a cursor. -/
theorem drop_spec (A : Allocator) (sound : buf.Sound H R) : Sat buf.drop H
    (fun buf' H' => buf' = buf.rest ∧ Goes A H (buf.rest.handles++R) H' []) (fun _ _ => False) := by
  induction buf generalizing H R with
  | slice s => exact ⟨rfl,.refl sound⟩
  | bytes b =>
    have held := sound_cons.mp sound
    simp only [drop,sat_bind,sat_pure]
    exact (Bytes.drop_spec A held.1 held.2.1).mono (fun _ _ goes => ⟨rfl,goes⟩) (fun _ _ => id)
  | bytesMut m =>
    have held := sound_cons.mp sound
    simp only [drop,sat_bind,sat_pure]
    exact (BytesMut.drop_spec A held.1 held.2.1).mono (fun _ _ goes => ⟨rfl,goes⟩) (fun _ _ => id)
  | chain a b left right =>
    simp only [drop,sat_bind,sat_pure]
    refine (left sound.left).mono ?_ (fun _ _ => id)
    rintro _ H₁ ⟨rfl,one⟩
    have behind : b.Sound H₁ (a.rest.handles++R) := one.sound.perm (List.perm_append_comm_assoc _ _ _)
    refine (right behind).mono ?_ (fun _ _ => id)
    rintro _ H' ⟨rfl,two⟩
    refine ⟨rfl,two.sound.perm ?_,fun r mem => ?_,one.later.trans two.later⟩
    · show (b.rest.handles++(a.rest.handles++R)).Perm ((a.rest.handles++b.rest.handles)++R)
      rw [← List.append_assoc]
      exact List.perm_append_comm.append_right R
    · rcases List.mem_append.mp mem with inside | other
      · rcases List.mem_append.mp inside with first | second
        · rw [two.view r (List.mem_append_right _ (List.mem_append_left _ first))]
          exact one.view r (List.mem_append_left _ first)
        · rw [two.view r (List.mem_append_left _ second)]
          exact one.view r (List.mem_append_right _ (List.mem_append_left _ (rest_sub second)))
      · rw [two.view r (List.mem_append_right _ (List.mem_append_right _ other))]
        exact one.view r (List.mem_append_right _ (List.mem_append_right _ other))
  | take t limit ih =>
    simp only [drop,sat_bind,sat_pure]
    exact (ih sound).mono (fun _ _ post => ⟨post.1 ▸ rfl,post.2⟩) (fun _ _ => id)
  | refMut t ih => exact ⟨rfl,.refl sound⟩
  | boxed t ih =>
    simp only [drop,sat_bind,sat_pure]
    exact (ih sound).mono (fun _ _ post => ⟨post.1 ▸ rfl,post.2⟩) (fun _ _ => id)

end Buf
end Tcio
