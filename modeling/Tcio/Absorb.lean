import Tcio.CopyBytesSpec
import Tcio.Reuse
import Tcio.Slices

/-!
`BytesMut::put`: the whole source goes behind what the buffer holds. A buffer without
capacity takes over the buffer of the source, where the source was alone on it; another is
filled chunk after chunk. Either way no other handle sees a change.
-/
namespace Tcio
open Exec Buf

variable {A : Allocator} {H H₁ H' : Heap} {R : List Handle} {m : BytesMut} {src src' : Buf} {v : List UInt8} {n : Nat}

namespace BytesMut

/-- The source is behind what the handle held; it was consumed as a whole before it was
    dropped, and of what it borrowed only that is gone. -/
structure Absorbed (A : Allocator) (H : Heap) (R : List Handle) (v : List UInt8) (src : Buf) (H' : Heap) (m : BytesMut) (src' : Buf) :
    Prop where
  sound : Tcio.Sound H' [] (.bytesMut m :: (src'.handles++R))
  view : (Handle.bytesMut m).view H' = some (v++src.content H)
  consumed : ∃ H₁ src₁, Consumed H H₁ (src.content H).length src src₁ ∧ src' = src₁.rest ∧
    ∀ h ∈ src'.handles, h.view H' = h.view H₁
  frame : ∀ r ∈ R, r.view H' = r.view H
  later : H.Later A H'

/-- Without capacity it takes the source over as a whole, but has to join a chain that is longer
    than a word counts. -/
def Wraps (H : Heap) (m : BytesMut) (src : Buf) : Prop := m.cap = 0 ∧ src.Wraps H 0 src.remaining

/-- The buffer could not grow by `n`: the handle and all others keep their views, and it lies in the
    allocation that is too large. -/
def Full (H : Heap) (R : List Handle) (m : BytesMut) (v : List UInt8) (n : Nat) (p : Heap × BytesMut) : Prop :=
  m.Overflows H n ∧ (Handle.bytesMut p.2).view p.1 = some v ∧ (∀ r ∈ R, r.view p.1 = r.view H) ∧
    (isizeMax < n+m.cap ∨ p.1.Vast p.2.ptr)
/-- How `put` may stop: with too many handles on a node, before anything is done where a chain is
    too long, or where the buffer cannot grow. -/
def PutStops (H : Heap) (R : List Handle) (m : BytesMut) (v : List UInt8) (src : Buf) (k : Stop) (p : Heap × BytesMut) : Prop :=
  k = .abort ∧ Crowded H ∨ k = .panic ∧ (m.Wraps H src ∧ p = (H,m) ∨ m.Full H R v (src.content H).length p)

/-- The source is dropped when it was appended. -/
theorem absorb_drop (appended : Appended A H R v src (src.content H).length H₁ (.bytesMut m) src') :
    Sat src'.drop H₁ (fun src'' H' => Absorbed A H R v src H' m src'') (fun _ _ => False) := by
  have sound : src'.Sound H₁ (.bytesMut m :: R) := Sound.behind appended.sound
  refine (Buf.drop_spec A sound).mono ?_ (fun _ _ => id)
  rintro _ H' ⟨rfl,goes⟩
  have back : Tcio.Sound H' [] (.bytesMut m :: (src'.rest.handles++R)) := goes.sound.perm List.perm_middle
  refine ⟨back,?_,⟨H₁,src',appended.consumed,rfl,fun h mem => goes.view h (List.mem_append_left _ mem)⟩,fun r mem => ?_,
    appended.later.trans goes.later⟩
  · rw [goes.view _ (List.mem_append_right _ List.mem_cons_self),appended.view,List.take_length]
  · rw [goes.view r (List.mem_append_right _ (List.mem_cons_of_mem _ mem))]
    exact appended.frame r mem

/-- A buffer with capacity is filled chunk after chunk. -/
theorem absorb_fill (sound : Tcio.Sound H [] (.bytesMut m :: (src.handles++R))) (view : (Handle.bytesMut m).view H = some v)
    (rem : src.remaining = (src.content H).length) (small : (src.content H).length ≤ isizeMax) : Sat (do
      BytesMut.reserve A src.remaining
      let src ← extend_all (BytesMut.extend_from_slice A) src
      onFst src.drop : Method BytesMut Buf) (H,m)
      (fun src' p => Absorbed A H R v src p.1 p.2 src') (fun k p => k = .panic ∧ m.Full H R v (src.content H).length p) := by
  have cap := cap_small sound
  have fits : m.len ≤ m.cap := (Turns.start (A := A) sound view).placed.fits
  rw [isizeMax] at cap small
  simp only [sat_bind,rem,sat_onFst]
  refine (reserve_spec sound view).mono ?_ ?_
  · rintro _ ⟨H₁,m₁⟩ ⟨turns,len,_,room⟩
    have same : src.content H₁ = src.content H := content_frame fun h mem => turns.frame h (List.mem_append_left _ mem)
    have enough := room (by omega)
    simp only at len enough
    have into : (src.content (H₁,m₁).1).length ≤ m₁.cap-m₁.len := by
      rw [same,len]
      exact enough
    refine (fill_roomy roomy_bytesMut turns.sound turns.view into).mono ?_ (fun _ _ => False.elim)
    rintro src₁ ⟨H₂,m₂⟩ ⟨_,filled⟩
    rw [same] at filled
    have appended := filled.before turns (Sound.behind sound)
    exact (absorb_drop appended).mono (fun _ _ => id) (fun _ _ => False.elim)
  · rintro k p ⟨rfl,turns,⟨same,prov,_⟩,large⟩
    refine ⟨rfl,large,turns.view,fun r mem => turns.frame r (List.mem_append_right _ mem),?_⟩
    rw [same,Heap.Vast,prov]
    exact large.2

/-- The allocation of a handle has the size it had. -/
theorem Lies.overflows {e : Extent} (lies : m.Lies H e) (later : H.Later A H') (large : m.Overflows H' n) : m.Overflows H n := by
  refine ⟨large.1,large.2.imp_right ?_⟩
  rintro ⟨e',extent,twice⟩
  rcases later.extent _ _ lies.extent with kept | ⟨_,gone⟩
  · cases kept.symm.trans extent
    exact ⟨e,lies.extent,twice⟩
  · cases gone.symm.trans extent

/-- A copy of the source that is alone on its buffer becomes the handle. -/
theorem absorb_unique {b : Bytes} (sound : Tcio.Sound H [] (.bytes b :: .bytesMut m :: R)) (view : (Handle.bytes b).view H = some v) : Sat (do
      let bufm ← onFst (b.into_mut A)
      onFst m.drop
      Method.put bufm
      return src : Method BytesMut Buf) (H,m)
      (fun src' p => src' = src ∧ Turns A H R p.1 [] [(.bytesMut p.2,v)]) (fun _ _ => False) := by
  simp only [sat_bind,sat_onFst,Method.sat_put,sat_pure,true_and]
  refine (Bytes.into_mut_spec sound view).mono ?_ (fun _ _ => id)
  intro bufm H₁ turns
  have held := sound_cons.mp (turns.sound.perm (List.Perm.swap ..))
  refine (BytesMut.drop_spec A held.1 held.2.1).mono ?_ (fun _ _ => id)
  intro _ H₂ goes
  refine ⟨goes.sound,?_,fun r mem => ?_,turns.later.trans goes.later⟩
  · rw [List.forall_mem_singleton,goes.view _ List.mem_cons_self]
    exact turns.view
  · rw [goes.view r (List.mem_cons_of_mem _ mem)]
    exact turns.frame r (List.mem_cons_of_mem _ mem)

/-- A copy that shares its buffer is copied once more and dropped. -/
theorem absorb_shared {b : Bytes} {u : List UInt8} (sound : Tcio.Sound H [] (.bytes b :: .bytesMut m :: R))
    (view : (Handle.bytes b).view H = some u) (before : (Handle.bytesMut m).view H = some v) : Sat (do
      let data ← onFst b.as_slice
      BytesMut.extend_from_slice A data
      onFst b.drop
      return src : Method BytesMut Buf) (H,m)
      (fun src' p => src' = src ∧ Turns A H R p.1 [] [(.bytesMut p.2,v++u)])
      (fun k p => k = .panic ∧ m.Overflows H u.length ∧ (Handle.bytesMut p.2).view p.1 = some v ∧
        (∀ r ∈ R, r.view p.1 = r.view H) ∧ p.1 = H ∧ p.2.ptr.prov = m.ptr.prov) := by
  have small : u.length ≤ isizeMax := by
    rw [length_of_view view]
    exact Bytes.len_small sound
  simp only [sat_bind,sat_onFst,sat_pure,true_and]
  rw [sat_of_ok (show b.as_slice H = _ from read_ok view)]
  refine (extend_from_slice_spec (sound.perm (List.Perm.swap ..)) before small).mono ?_ ?_
  · rintro _ ⟨H₁,m₁⟩ ⟨turns,_⟩
    have held := sound_cons.mp (turns.sound.perm (List.Perm.swap ..))
    refine (Bytes.drop_spec A held.1 held.2.1).mono ?_ (fun _ _ => False.elim)
    intro _ H₂ goes
    refine ⟨goes.sound,?_,fun r mem => ?_,turns.later.trans goes.later⟩
    · rw [List.forall_mem_singleton,goes.view _ List.mem_cons_self]
      exact turns.view
    · rw [goes.view r (List.mem_cons_of_mem _ mem)]
      exact turns.frame r (List.mem_cons_of_mem _ mem)
  · rintro k p ⟨rfl,turns,⟨same,prov,_⟩,large⟩
    exact ⟨rfl,large,turns.view,fun r mem => turns.frame r (List.mem_cons_of_mem _ mem),same,prov⟩

/-- A buffer without capacity takes over what `copy_to_bytes` gives of the whole source, where that
    joins no chain that is too long. -/
theorem absorb_copied {e : Extent} (sound : Tcio.Sound H [] (.bytesMut m :: (src.handles++R))) (view : (Handle.bytesMut m).view H = some v)
    (lies : m.Lies H e) (none : m.cap = 0) (rem : src.remaining = (src.content H).length)
    (small : (src.content H).length ≤ isizeMax) : Sat (do
      let (src_copy,src) ← onFst (src.copy_to_bytes A src.remaining)
      let src ← onFst src.drop
      if ← onFst src_copy.is_unique then
        let bufm ← onFst (src_copy.into_mut A)
        onFst m.drop
        Method.put bufm
      else
        let data ← onFst src_copy.as_slice
        BytesMut.extend_from_slice A data
        onFst src_copy.drop
      return src : Method BytesMut Buf) (H,m)
      (fun src' p => ¬ m.Wraps H src ∧ Absorbed A H R v src p.1 p.2 src') (PutStops H R m v src) := by
  have fits : m.len ≤ m.cap := lies.fits
  have empty : v = [] := List.length_eq_zero_iff.mp (by rw [length_of_view view,Handle.len]; omega)
  have behind : src.Sound H (.bytesMut m :: R) := Sound.behind sound
  have word : isizeMax ≤ usizeMax := by decide
  have joins : m.Wraps H src ↔ src.Wraps H 0 (src.content H).length := by rw [Wraps,rem,and_iff_right none]
  rw [rem,sat_bind,sat_onFst]
  refine (copy_to_bytes_spec behind (small.trans word)).mono ?_ ?_
  · rintro ⟨b,src₁⟩ H₁ ⟨_,counts,copied⟩
    rw [sat_bind,sat_onFst]
    refine (Buf.drop_spec A (Sound.behind copied.sound)).mono ?_ (fun _ _ => False.elim)
    rintro _ H₂ ⟨rfl,goes⟩
    -- the copy is the only handle that is neither the buffer's nor anyone else's
    have held : Tcio.Sound H₂ [] (.bytes b :: .bytesMut m :: (src₁.rest.handles++R)) :=
      (goes.sound.perm List.perm_middle).perm (List.Perm.cons _ List.perm_middle)
    have view_b : (Handle.bytes b).view H₂ = some (src.content H) := by
      rw [goes.view _ (List.mem_append_right _ List.mem_cons_self),copied.view,List.take_length,List.nil_append]
    have view_m : (Handle.bytesMut m).view H₂ = some v := by
      rw [goes.view _ (List.mem_append_right _ (List.mem_cons_of_mem _ List.mem_cons_self)),copied.frame _ List.mem_cons_self]
      exact view
    have frame : ∀ r ∈ R, r.view H₂ = r.view H := by
      intro r mem
      rw [goes.view r (List.mem_append_right _ (List.mem_cons_of_mem _ (List.mem_cons_of_mem _ mem)))]
      exact copied.frame r (List.mem_cons_of_mem _ mem)
    have absorbed : ∀ p : Heap × BytesMut, Turns A H₂ (src₁.rest.handles++R) p.1 [] [(.bytesMut p.2,v++src.content H)] →
        ¬ m.Wraps H src ∧ Absorbed A H R v src p.1 p.2 src₁.rest := by
      intro p turns
      refine ⟨fun wraps => counts (joins.mp wraps),turns.sound,turns.view,⟨H₁,src₁,copied.consumed,rfl,fun h mem => ?_⟩,fun r mem => ?_,
        (copied.later.trans goes.later).trans turns.later⟩
      · rw [turns.frame h (List.mem_append_left _ mem)]
        exact goes.view h (List.mem_append_left _ mem)
      · rw [turns.frame r (List.mem_append_right _ mem)]
        exact frame r mem
    rw [sat_bind,sat_onFst,sat_of_ok (Bytes.is_unique_eq held)]
    cases b.unique H₂ with
    | true =>
      refine (absorb_unique held view_b).mono ?_ (fun _ _ => False.elim)
      rintro _ p ⟨rfl,turns⟩
      refine absorbed p ?_
      rw [empty,List.nil_append]
      exact turns
    | false =>
      refine (absorb_shared held view_b view_m).mono (fun _ p post => post.1 ▸ absorbed p post.2) ?_
      rintro k p ⟨rfl,large,kept,others,same,prov⟩
      refine .inr ⟨rfl,.inr ⟨lies.overflows (copied.later.trans goes.later) large,kept,fun r mem => ?_,?_⟩⟩
      · rw [others r (List.mem_append_right _ mem)]
        exact frame r mem
      · rw [same,Heap.Vast,prov]
        exact large.2
  · rintro k _ (⟨_,⟨rfl,_,crowded⟩ | ⟨rfl,large⟩⟩ | ⟨rfl,rfl,short | wraps⟩)
    · exact .inl ⟨rfl,crowded⟩
    · omega
    · omega
    · exact .inr ⟨rfl,.inl ⟨joins.mpr wraps,rfl⟩⟩

/-- The whole source is behind what the buffer held, or the buffer could not grow, or a chain that
    had to be joined was too long. -/
theorem put_spec {e : Extent} (sound : Tcio.Sound H [] (.bytesMut m :: (src.handles++R))) (view : (Handle.bytesMut m).view H = some v)
    (lies : m.Lies H e) (small : (src.content H).length ≤ isizeMax) : Sat (BytesMut.put A (src.copy_to_bytes A) src) (H,m)
      (fun src' p => ¬ m.Wraps H src ∧ Absorbed A H R v src p.1 p.2 src') (PutStops H R m v src) := by
  have behind : src.Sound H (.bytesMut m :: R) := Sound.behind sound
  have some' := has_remaining_iff behind
  have rem := remaining_of_le behind (small.trans (by decide))
  unfold BytesMut.put
  rw [sat_bind,Method.sat_self,sat_ite]
  refine ⟨fun none => ?_,fun _ => sat_ite.mpr ⟨fun zero => ?_,fun some' => ?_⟩⟩
  · have all : (src.content H).length = 0 := by
      rw [some',not_not] at none
      rw [none,List.length_nil]
    have counts : ¬ m.Wraps H src := by
      rw [Wraps,rem,all]
      exact fun wraps => not_wraps_zero wraps.2
    have appended : Appended A H R v src (src.content H).length H (.bytesMut m) src := by
      rw [all]
      exact .start sound view
    rw [sat_onFst]
    exact (absorb_drop appended).mono (fun _ _ absorbed => ⟨counts,absorbed⟩) (fun _ _ => False.elim)
  · exact absorb_copied sound view lies zero rem small
  · exact (absorb_fill sound view rem small).mono (fun _ _ absorbed => ⟨fun wraps => some' wraps.1,absorbed⟩)
      (fun _ _ full => .inr ⟨full.1,.inr full.2⟩)

end BytesMut

namespace World
variable {w₀ w : World}

/-- In every state that a run reaches, `put` returns and has appended the whole source, which is
    consumed, and no other handle sees a change. It panics only where the buffer has to grow and
    twice the allocation that it lies in would be more than an allocation may be, or where a
    buffer without capacity has to join a chain that is too long, and all views are kept then. -/
theorem put_absorbs (initial : w₀.Initial) (run : JoinableRun A w₀ w) (handles : w.handles.Perm (.bytesMut m :: (src.handles++R)))
    (view : (Handle.bytesMut m).view w.heap = some v) (room : m.cap+src.remaining ≤ isizeMax) :
    Sat (BytesMut.put A (src.copy_to_bytes A) src) (w.heap,m)
      (fun src' p => ¬ m.Wraps w.heap src ∧ BytesMut.Absorbed A w.heap R v src p.1 p.2 src')
      (fun k p => k = .abort ∧ isizeMax < w.handles.length ∨
        k = .panic ∧ (m.Wraps w.heap src ∨ m.cap-m.len < src.remaining ∧ ∃ e, m.Lies w.heap e ∧ isizeMax < 2*e.size) ∧
          (Handle.bytesMut p.2).view p.1 = some v ∧ ∀ r ∈ R, r.view p.1 = r.view w.heap) := by
  have here := run_sound initial run
  have sound : Tcio.Sound w.heap [] (.bytesMut m :: (src.handles++R)) := here.perm handles
  obtain ⟨e,lies⟩ := BytesMut.lies sound (run_dangling initial run)
  have saturated := remaining_eq (Sound.behind sound)
  have top : isizeMax < usizeMax := by decide
  have rem : src.remaining = (src.content w.heap).length := by omega
  refine (BytesMut.put_spec sound view lies (by omega)).mono (fun _ _ => id) ?_
  rintro k p (⟨rfl,crowded⟩ | ⟨rfl,⟨wraps,rfl⟩ | ⟨⟨less,large | ⟨e',extent,twice⟩⟩,kept,frame,_⟩⟩)
  · exact .inl ⟨rfl,here.many crowded⟩
  · exact .inr ⟨rfl,.inl wraps,view,fun _ _ => rfl⟩
  · omega
  · cases lies.extent.symm.trans extent
    exact .inr ⟨rfl,.inr ⟨rem ▸ less,e,lies,twice⟩,kept,frame⟩

/-- A buffer without capacity, a `Bytes` with a clone, and a `BytesMut`. -/
def sources : List Op := [.bytes_mut_new,.bytes_copy_from_slice [1,2,3],.clone 1,.bytes_mut_copy_from_slice [4,5]]
/-- The `Bytes` and one byte of the `BytesMut`, which is borrowed. -/
def gathered : Buf := .chain (.bytes ⟨⟨16,2⟩,3,⟨8,0⟩⟩) (.take (.refMut (.bytesMut ⟨⟨19,3⟩,2,2,⟨1,0⟩⟩)) 1)

theorem sources_handles : (play (bump 0) sources (start [])).map (fun w => (w.handles,gathered.content w.heap)) =
    some ([.bytesMut ⟨⟨1,0⟩,0,0,⟨1,0⟩⟩,.bytes ⟨⟨16,2⟩,3,⟨8,0⟩⟩,.bytes ⟨⟨16,2⟩,3,⟨8,0⟩⟩,.bytesMut ⟨⟨19,3⟩,2,2,⟨1,0⟩⟩],[1,2,3,4]) := by
  decide +kernel

theorem put_absorbs_gathered : ∃ w m, JoinableRun (bump 0) (start []) w ∧
    Sat (BytesMut.put (bump 0) (gathered.copy_to_bytes (bump 0)) gathered) (w.heap,m)
      (fun src' p => ¬ m.Wraps w.heap gathered ∧ BytesMut.Absorbed (bump 0) w.heap [.bytes ⟨⟨16,2⟩,3,⟨8,0⟩⟩] [] gathered p.1 p.2 src')
      (fun k p => k = .abort ∧ isizeMax < w.handles.length ∨
        k = .panic ∧ (m.Wraps w.heap gathered ∨ m.cap-m.len < gathered.remaining ∧ ∃ e, m.Lies w.heap e ∧ isizeMax < 2*e.size) ∧
          (Handle.bytesMut p.2).view p.1 = some [] ∧ ∀ r ∈ [Handle.bytes ⟨⟨16,2⟩,3,⟨8,0⟩⟩], r.view p.1 = r.view w.heap) := by
  obtain ⟨w,played,found⟩ := Option.map_eq_some_iff.mp sources_handles
  obtain ⟨handles,_⟩ := Prod.mk.inj found
  have run : JoinableRun (bump 0) (start []) w := by
    refine plain_run ?_ played
    simp only [sources,List.forall_mem_cons,List.not_mem_nil,false_implies,implies_true,and_true]
    exact ⟨trivial,trivial,trivial,trivial⟩
  have perm : w.handles.Perm (.bytesMut ⟨⟨1,0⟩,0,0,⟨1,0⟩⟩ :: (gathered.handles++[.bytes ⟨⟨16,2⟩,3,⟨8,0⟩⟩])) := by
    rw [handles]
    exact List.Perm.cons _ (List.Perm.cons _ (List.Perm.swap ..))
  exact ⟨w,⟨⟨1,0⟩,0,0,⟨1,0⟩⟩,run,put_absorbs (start_initial []) run perm Memory.load_zero (by decide)⟩

/-- A small part of an allocation that is more than half as large as one may be. -/
def vast : List Op := [.bytes_mut_with_capacity (2^62),.split_off 0 1,.drop 1]

theorem vast_handles : (play (bump 0) vast (start [])).map World.handles = some [.bytesMut ⟨⟨16,2⟩,0,1,⟨8,0⟩⟩] := by
  decide +kernel
theorem vast_reserve : (play (bump 0) vast (start [])).map (fun w =>
    (BytesMut.reserve (bump 0) (2^62+1) (w.heap,⟨⟨16,2⟩,0,1,⟨8,0⟩⟩)).1) = some (.error .panic) := by
  decide +kernel

/-- The part alone has room enough, but `put` asks for twice the allocation. -/
theorem vast_put : ∃ (w : World) (s : Slice), JoinableRun (bump 0) (start []) w ∧ w.handles = [.bytesMut ⟨⟨16,2⟩,0,1,⟨8,0⟩⟩] ∧
    s.len = 2^62+1 ∧ ∀ (Q : Buf → Heap × BytesMut → Prop) (copy : Nat → Exec Heap (Bytes × Buf)),
      ¬ Sat (BytesMut.put (bump 0) copy (.slice s)) (w.heap,⟨⟨16,2⟩,0,1,⟨8,0⟩⟩) Q (fun _ _ => False) := by
  obtain ⟨w,played,handles⟩ := Option.map_eq_some_iff.mp vast_handles
  have run : JoinableRun (bump 0) (start []) w := by
    refine plain_run ?_ played
    simp only [vast,List.forall_mem_cons,List.not_mem_nil,false_implies,implies_true,and_true]
    exact ⟨trivial,trivial,trivial⟩
  have stops := vast_reserve
  rw [played,Option.map_some,Option.some.injEq] at stops
  obtain ⟨s,length⟩ := Slice.of_len (n := 2^62+1) (by decide)
  refine ⟨w,s,run,handles,length,fun Q copy well => ?_⟩
  have rem : (Buf.slice s).remaining = 2^62+1 := length
  have more : (Buf.slice s).has_remaining = true := by
    rw [Buf.has_remaining,rem]
    decide
  rw [BytesMut.put,sat_bind,Method.sat_self,sat_ite] at well
  have copies := (sat_ite.mp (well.2 (not_not.mpr more))).2 Nat.one_ne_zero
  rw [rem,sat_bind] at copies
  rcases ran : BytesMut.reserve (bump 0) (2^62+1) (w.heap,⟨⟨16,2⟩,0,1,⟨8,0⟩⟩) with ⟨r,p⟩
  rw [ran] at stops
  cases stops
  rwa [sat_of_error ran] at copies

theorem blank_handles : (play (bump 0) [.bytes_mut_new] (start [])).map World.handles = some [.bytesMut ⟨⟨1,0⟩,0,0,⟨1,0⟩⟩] := by
  decide +kernel

/-- A buffer without capacity cannot take over a part of a chain that is longer than a word counts. -/
theorem wrapped_put : ∃ (w : World) (src : Buf), JoinableRun (bump 0) (start []) w ∧ w.handles = [.bytesMut ⟨⟨1,0⟩,0,0,⟨1,0⟩⟩] ∧
    src.handles = [] ∧ src.remaining = 2 ∧ ∀ Q : Buf → Heap × BytesMut → Prop,
      ¬ Sat (BytesMut.put (bump 0) (src.copy_to_bytes (bump 0)) src) (w.heap,⟨⟨1,0⟩,0,0,⟨1,0⟩⟩) Q (fun _ _ => False) := by
  obtain ⟨src,none,rem,wraps⟩ := wraps_two
  obtain ⟨w,played,handles⟩ := Option.map_eq_some_iff.mp blank_handles
  have run : JoinableRun (bump 0) (start []) w := plain_run (by decide) played
  refine ⟨w,src,run,handles,none,rem,fun Q well => ?_⟩
  have more : src.has_remaining = true := by
    rw [Buf.has_remaining,rem]
    decide
  rw [BytesMut.put,sat_bind,Method.sat_self,sat_ite] at well
  have copies := (sat_ite.mp (well.2 (not_not.mpr more))).1 rfl
  rw [rem,sat_bind,sat_onFst] at copies
  have sound : src.Sound w.heap w.handles := by
    rw [Buf.Sound,none]
    exact run_sound (start_initial []) run
  obtain ⟨_,_,_,_,_,counts,_⟩ | ⟨_,_,_,no,_⟩ := (copies.and (copy_to_bytes_spec sound (by decide))).cases
  · exact counts (wraps w.heap)
  · exact no

/-- There is no room for a source that would fit behind the buffer, or its bytes are not counted. -/
theorem put_overflows :
    (¬ ∀ (A : Allocator) (w₀ w : World) (m : BytesMut) (src : Buf) (R : List Handle) (v : List UInt8),
      w₀.Initial → JoinableRun A w₀ w → w.handles.Perm (.bytesMut m :: (src.handles++R)) →
      (Handle.bytesMut m).view w.heap = some v → ¬ m.Wraps w.heap src → m.cap+src.remaining ≤ isizeMax →
      w.handles.length ≤ isizeMax → Sat (BytesMut.put A (src.copy_to_bytes A) src) (w.heap,m)
        (fun src' p => BytesMut.Absorbed A w.heap R v src p.1 p.2 src') (fun _ _ => False)) ∧
    ¬ ∀ (A : Allocator) (w₀ w : World) (m : BytesMut) (src : Buf) (R : List Handle) (v : List UInt8),
      w₀.Initial → JoinableRun A w₀ w → w.handles.Perm (.bytesMut m :: (src.handles++R)) →
      (Handle.bytesMut m).view w.heap = some v → (∀ e, m.Lies w.heap e → 2*e.size ≤ isizeMax) → m.cap+src.remaining ≤ isizeMax →
      w.handles.length ≤ isizeMax → Sat (BytesMut.put A (src.copy_to_bytes A) src) (w.heap,m)
        (fun src' p => BytesMut.Absorbed A w.heap R v src p.1 p.2 src') (fun _ _ => False) := by
  constructor
  · intro claim
    obtain ⟨w,s,run,handles,length,stops⟩ := vast_put
    have rem : (Buf.slice s).remaining = 2^62+1 := length
    refine stops _ _ (claim (bump 0) (start []) w ⟨⟨16,2⟩,0,1,⟨8,0⟩⟩ (.slice s) [] [] (start_initial []) run
      (by rw [handles]; exact List.Perm.refl _) Memory.load_zero (fun wraps => wraps.2) (by rw [rem]; decide) (by rw [handles]; decide))
  · intro claim
    obtain ⟨w,src,run,handles,none,rem,stops⟩ := wrapped_put
    have sound := run_sound (start_initial []) run
    refine stops _ (claim (bump 0) (start []) w ⟨⟨1,0⟩,0,0,⟨1,0⟩⟩ src [] [] (start_initial []) run
      (by rw [handles,none]; exact List.Perm.refl _) Memory.load_zero (fun e lies => ?_) (by rw [rem]; decide) (by rw [handles]; decide))
    cases lies.extent.symm.trans (run_dangling (start_initial []) run)
    decide

end World
end Tcio
