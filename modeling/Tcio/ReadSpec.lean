import Tcio.Read
import Tcio.PutSpec
import Tcio.Puts

/-!
What polls of a reader leave in a tree of buffers. Whatever each poll ends with, the tree
holds the bytes that came so far, in the order in which they came, behind what it held at
first; a poll that is pending or fails writes nothing.
-/
namespace Tcio
open Exec BufMut

variable {A : Allocator} {H H₁ H' : Heap} {R : List Handle} {dst dst' : BufMut} {w : List UInt8} {s : Slice}

namespace AsyncRead

/-! ### Slices -/

/-- Some of the slice is written. -/
structure Partly (H : Heap) (R : List Handle) (dst : BufMut) (w : List UInt8) (p : Heap × BufMut) : Prop where
  written : ∃ j, p.2.space p.1 = (dst.space H).write (w.take j)
  frame : ∀ r ∈ R, r.view p.1 = r.view H
/-- A part of the buffer has no room for what comes to it of `n` bytes, and cannot grow. -/
def Cramped (n : Nat) (p q : Heap × BufMut) : Prop := Tight p.1 q.1 n p.2 q.2 ∨ ∃ h, Grows p.2 h ∧ h.Overflows p.1 n n

theorem put_slice_partly (sound : dst.Sound H R) (small : w.length ≤ isizeMax) (fits : w.length ≤ dst.remaining_mut) :
    Sat (put_slice A w) (H,dst) (fun _ p => Wrote A H R dst w p.1 p.2)
      (fun k p => k = .panic ∧ Partly H R dst w p ∧ Cramped w.length (H,dst) p) := by
  by_cases grow : ∃ h, Grows dst h
  · obtain ⟨h,grows⟩ := grow
    have held := sound
    rw [BufMut.Sound,grows.handles] at held
    obtain ⟨v,view⟩ := Option.ne_none_iff_exists'.mp (held.placed h List.mem_cons_self).viewed
    refine (put_slice_grows grows held view small).mono (fun _ _ holds => .of_holds grows view holds) ?_
    rintro k p ⟨panic,stays⟩
    have still : Wrote A H R dst [] p.1 p.2 := .of_holds grows view (by rw [List.append_nil]; exact stays.holds)
    exact ⟨panic,⟨⟨0,still.space⟩,still.frame⟩,.inr ⟨h,grows,stays.large⟩⟩
  · by_cases chained : ∃ a b, dst = .chain a b
    · obtain ⟨a,b,rfl⟩ := chained
      simp only [put_slice,sat_bind,Method.sat_self]
      refine (put_slice_default_spec sound fits).mono (fun _ _ => id) ?_
      rintro k p ⟨panic,strained⟩
      exact ⟨panic,⟨strained.written,strained.frame⟩,.inl strained.tight⟩
    · -- memory of a fixed size has no handles
      have none : dst.handles = [] := by
        cases dst with
        | vec x => exact absurd ⟨_,.vec x⟩ grow
        | bytesMut m => exact absurd ⟨_,.bytesMut m⟩ grow
        | chain a b => exact absurd ⟨a,b,rfl⟩ chained
        | _ => rfl
      refine (put_slice_spec sound small fits ?_).mono (fun _ _ => id) ?_
      · intro h mem
        rw [none] at mem
        cases mem
      · rintro k p ⟨panic,strained⟩
        exact ⟨panic,⟨strained.written,strained.frame⟩,.inl strained.tight⟩

/-- A slice gives what there is room for, and keeps the rest. -/
theorem slice_poll_read_spec (sound : dst.Sound H R) : Sat (slice_poll_read A) ((H,dst),s)
    (fun r p => r = .ready (.ok (min s.len dst.remaining_mut)) ∧ p.2 = s.drop (min s.len dst.remaining_mut) ∧
      Wrote A H R dst (s.bytes.take (min s.len dst.remaining_mut)) p.1.1 p.1.2)
    (fun k p => k = .panic ∧ p.2 = s ∧ Partly H R dst (s.bytes.take (min s.len dst.remaining_mut)) p.1 ∧
      Cramped (min s.len dst.remaining_mut) (H,dst) p.1) := by
  have length : (s.bytes.take (min s.len dst.remaining_mut)).length = min s.len dst.remaining_mut := by
    rw [List.length_take,Slice.len]
    omega
  have small := s.small
  simp only [slice_poll_read,sat_bind,sat_onSnd,sat_get,sat_onFst,Method.sat_self,sat_set,sat_pure]
  refine (put_slice_partly sound ?_ ?_).mono (fun _ _ wrote => ⟨trivial,trivial,wrote⟩) ?_
  · rw [length,Slice.len]
    omega
  · rw [length]
    exact Nat.min_le_right _ _
  · rintro k p ⟨panic,partly,cramped⟩
    rw [length] at cramped
    exact ⟨panic,trivial,partly,cramped⟩

/-- The states that polls of a slice lead to. -/
inductive SlicePolled (A : Allocator) (s : (Heap × BufMut) × Slice) : (Heap × BufMut) × Slice → Prop
  | start : SlicePolled A s s
  | poll {t u : (Heap × BufMut) × Slice} {r : Poll (IoResult Nat)} (polled : SlicePolled A s t)
      (ran : slice_poll_read A t = (.ok r,u)) : SlicePolled A s u

/-- What a slice has given is in the buffer. -/
structure Given (A : Allocator) (H : Heap) (R : List Handle) (dst : BufMut) (s : Slice) (n : Nat) (p : (Heap × BufMut) × Slice) : Prop where
  wrote : Wrote A H R dst (s.bytes.take n) p.1.1 p.1.2
  inside : n ≤ min s.len (dst.space H).room
  left : p.2.bytes = s.bytes.drop n

theorem Given.next {p : (Heap × BufMut) × Slice} {n : Nat} (given : Given A H R dst s n p) : Sat (slice_poll_read A) p
    (fun r q => ∃ k, r = .ready (.ok k) ∧ Given A H R dst s (n+k) q ∧ (k = 0 ↔ p.2.bytes = [] ∨ p.1.2.remaining_mut = 0))
    (fun k q => k = .panic ∧ q.2 = p.2 ∧ Partly H R dst s.bytes q.1 ∧ Cramped (min p.2.len p.1.2.remaining_mut) p.1 q.1) := by
  obtain ⟨⟨H₁,dst₁⟩,s₁⟩ := p
  obtain ⟨wrote,inside,left⟩ := given
  simp only at wrote left
  have length : (s.bytes.take n).length = n := by
    rw [List.length_take]
    exact Nat.min_eq_left (inside.trans (Nat.min_le_left _ _))
  have room : (s.bytes.take n).length ≤ (dst.space H).room := by
    rw [length]
    exact inside.trans (Nat.min_le_right _ _)
  have len : s₁.len = s.len-n := by rw [Slice.len,left,List.length_drop,Slice.len]
  have free := remaining_mut_eq wrote.sound
  rw [wrote.space,Space.room_write room,length] at free
  refine (slice_poll_read_spec wrote.sound).mono ?_ ?_
  · rintro r ⟨⟨H₂,dst₂⟩,s₂⟩ ⟨rfl,rfl,more⟩
    refine ⟨_,rfl,⟨?_,?_,?_⟩,?_⟩
    · have all := wrote.trans more room
      rw [left,← List.take_add] at all
      exact all
    · omega
    · simp only [Slice.drop,left,List.drop_drop]
    · rw [← List.length_eq_zero_iff,← Slice.len]
      simp only
      omega
  · rintro k ⟨⟨H₂,dst₂⟩,s₂⟩ ⟨panic,rfl,⟨⟨j,space⟩,frame⟩,cramped⟩
    refine ⟨panic,rfl,⟨⟨n+min j (min s₂.len dst₁.remaining_mut),?_⟩,fun r mem => (frame r mem).trans (wrote.frame r mem)⟩,cramped⟩
    rw [space,wrote.space,Space.write_write room,left,List.take_take,← List.take_add]

theorem slice_polled_given {t : (Heap × BufMut) × Slice} (sound : dst.Sound H R) (polled : SlicePolled A ((H,dst),s) t) :
    ∃ n, Given A H R dst s n t := by
  induction polled with
  | start => exact ⟨0,⟨.refl sound,Nat.zero_le _,rfl⟩⟩
  | poll _ ran given =>
    obtain ⟨n,given⟩ := given
    obtain ⟨k,_,next,_⟩ := (sat_of_ok ran).mp given.next
    exact ⟨n+k,next⟩

/-- However often a slice is polled, what it has given is in the buffer, in order and once, and
    the next poll gives something unless nothing is left or the buffer is full. It panics only
    where a part of the buffer has to grow and cannot. -/
theorem slice_polls_keep {t : (Heap × BufMut) × Slice} (sound : dst.Sound H R) (polled : SlicePolled A ((H,dst),s) t) :
    ∃ n, Given A H R dst s n t ∧ Sat (slice_poll_read A) t
      (fun r q => ∃ k, r = .ready (.ok k) ∧ Given A H R dst s (n+k) q ∧ (k = 0 ↔ t.2.bytes = [] ∨ t.1.2.remaining_mut = 0))
      (fun k q => k = .panic ∧ q.2 = t.2 ∧ Partly H R dst s.bytes q.1 ∧ Cramped (min t.2.len t.1.2.remaining_mut) t.1 q.1) := by
  obtain ⟨n,given⟩ := slice_polled_given sound polled
  exact ⟨n,given,given.next⟩

/-- Two bytes of memory. -/
def pair : MutSlice UInt8 := ⟨[],[0,0],by decide⟩
def few : Slice := ⟨[1,2,3],by decide⟩

theorem slice_sound {m : MutSlice UInt8} (sound : Tcio.Sound H [] R) : (BufMut.slice m).Sound H R := sound

/-- The memory is full after a first poll, and a byte is left. -/
theorem slice_polls_keep_pair : ∃ n t, t.2.bytes = [3] ∧ Given (bump 0) (World.start []).heap [] (.slice pair) few n t ∧
    Sat (slice_poll_read (bump 0)) t
      (fun r q => ∃ k, r = .ready (.ok k) ∧ Given (bump 0) (World.start []).heap [] (.slice pair) few (n+k) q ∧
        (k = 0 ↔ t.2.bytes = [] ∨ t.1.2.remaining_mut = 0))
      (fun k q => k = .panic ∧ q.2 = t.2 ∧ Partly (World.start []).heap [] (.slice pair) few.bytes q.1 ∧
        Cramped (min t.2.len t.1.2.remaining_mut) t.1 q.1) := by
  have ran : slice_poll_read (bump 0) (((World.start []).heap,.slice pair),few) =
      (.ok (.ready (.ok 2)),((World.start []).heap,.slice ⟨[1,2],[],by decide⟩),few.drop 2) := rfl
  obtain ⟨n,given,next⟩ := slice_polls_keep (R := []) (slice_sound (World.start_initial []).sound) (.poll .start ran)
  exact ⟨n,_,rfl,given,next⟩

/-! ### Streams -/

variable {T : Type} {tokio_read : TokioRead T} {t : T}

/-- A poll of the stream: the room that it had, and what it returned. -/
structure Fill where
  room : Nat
  result : Poll (IoResult (List UInt8))

/-- The bytes that came. -/
def Fill.bytes (fill : Fill) : List UInt8 :=
  match fill.result with
  | .ready (.ok filled) => filled
  | _ => []
/-- What `poll_read` returns then. -/
def Fill.outcome (fill : Fill) : Poll (IoResult Nat) := fill.result.map (Except.map List.length)
def arrived (fills : List Fill) : List UInt8 := fills.flatMap Fill.bytes

/-- A stream that notes its polls. -/
def noted (tokio_read : TokioRead T) : TokioRead (T × List Fill) := fun room => do
  let result ← onFst (tokio_read room)
  modify fun p => (p.1,p.2++[⟨room,result⟩])
  return result

/-- The stream returns at each poll, and fills no more than it has room for. -/
def FillsWithin (tokio_read : TokioRead T) : Prop :=
  ∀ room t, Sat (tokio_read room) t (fun r _ => ∀ v, r = .ready (.ok v) → v.length ≤ room) (fun _ _ => False)

/-- A poll of the stream writes what came, or the buffer cannot grow. -/
theorem stream_poll_read_spec (fills : List Fill) (within : FillsWithin tokio_read) (sound : dst.Sound H R) :
    Sat (stream_poll_read A (noted tokio_read)) ((H,dst),t,fills)
      (fun r p => ∃ fill, p.2.2 = fills++[fill] ∧ r = fill.outcome ∧ (fill.room = 0 ↔ dst.remaining_mut = 0) ∧
        fill.bytes.length ≤ (dst.space H).room ∧ Wrote A H R dst fill.bytes p.1.1 p.1.2)
      (fun k p => k = .panic ∧ p.2 = (t,fills) ∧ Wrote A H R dst [] p.1.1 p.1.2 ∧ Tight H p.1.1 1 dst p.1.2) := by
  simp only [stream_poll_read,noted,sat_bind,sat_onFst,sat_onSnd,Method.sat_self,sat_modify,sat_pure]
  refine (chunk_mut_spec sound).mono ?_ (fun _ _ stops => ⟨stops.1,trivial,stops.2⟩)
  rintro room ⟨H₁,dst₁⟩ ⟨grown,ready,none⟩
  refine (within room t).mono ?_ (fun _ _ => False.elim)
  rintro (r | _) t' fits
  · rcases r with err | filled
    · exact ⟨⟨room,_⟩,rfl,rfl,none,Nat.zero_le _,grown⟩
    · have ready := ready.mono (fits filled rfl)
      have le := ready.le grown.sound
      rw [grown.space,Space.write_nil] at le
      simp only [sat_bind,sat_onFst,Method.sat_replace,sat_pure]
      refine (fill_chunk (A := A) grown.sound ready).mono ?_ (fun _ _ => False.elim)
      rintro dst₂ H₂ ⟨_,advance⟩
      refine advance.mono (fun dst₃ H₃ wrote => ⟨⟨room,_⟩,rfl,rfl,none,le,?_⟩) (fun _ _ => False.elim)
      exact grown.trans wrote (Nat.zero_le _)
  · exact ⟨⟨room,_⟩,rfl,rfl,none,Nat.zero_le _,grown⟩

/-- The states that polls of a stream lead to, also where one has panicked. -/
inductive StreamPolled (A : Allocator) (tokio_read : TokioRead T) (s : (Heap × BufMut) × T × List Fill) :
    (Heap × BufMut) × T × List Fill → Prop
  | start : StreamPolled A tokio_read s s
  | poll {t u : (Heap × BufMut) × T × List Fill} {r : Except Stop (Poll (IoResult Nat))} (polled : StreamPolled A tokio_read s t)
      (ran : stream_poll_read A (noted tokio_read) t = (r,u)) : StreamPolled A tokio_read s u

/-- Everything that came from the stream is in the buffer. -/
structure Delivered (A : Allocator) (H : Heap) (R : List Handle) (dst : BufMut) (p : (Heap × BufMut) × T × List Fill) : Prop where
  wrote : Wrote A H R dst (arrived p.2.2) p.1.1 p.1.2
  inside : (arrived p.2.2).length ≤ (dst.space H).room

theorem Delivered.next {p : (Heap × BufMut) × T × List Fill} (within : FillsWithin tokio_read) (delivered : Delivered A H R dst p) :
    Sat (stream_poll_read A (noted tokio_read)) p
      (fun r q => Delivered A H R dst q ∧ ∃ fill, q.2.2 = p.2.2++[fill] ∧ r = fill.outcome ∧ (fill.room = 0 ↔ p.1.2.remaining_mut = 0))
      (fun k q => k = .panic ∧ q.2 = p.2 ∧ Delivered A H R dst q ∧ Tight p.1.1 q.1.1 1 p.1.2 q.1.2) := by
  obtain ⟨⟨H₁,dst₁⟩,t,fills⟩ := p
  obtain ⟨wrote,inside⟩ := delivered
  simp only at wrote inside
  have room := Space.room_write inside
  rw [← wrote.space] at room
  refine (stream_poll_read_spec fills within wrote.sound).mono ?_ ?_
  · rintro r ⟨⟨H₂,dst₂⟩,t',fills'⟩ ⟨fill,rfl,rfl,none,le,more⟩
    have both : arrived (fills++[fill]) = arrived fills++fill.bytes := by
      rw [arrived,List.flatMap_append]
      simp [arrived]
    refine ⟨⟨?_,?_⟩,fill,rfl,rfl,none⟩
    · simp only
      rw [both]
      exact wrote.trans more inside
    · simp only
      rw [both,List.length_append]
      omega
  · rintro k ⟨⟨H₂,dst₂⟩,t',fills'⟩ ⟨panic,same,stays,tight⟩
    cases same
    have all := wrote.trans stays inside
    rw [List.append_nil] at all
    exact ⟨panic,rfl,⟨all,inside⟩,tight⟩

/-- However often a stream is polled, and whatever its polls return, the buffer holds what
    came from it, in order and once; the next poll returns what the stream does. -/
theorem stream_polls_keep {p : (Heap × BufMut) × T × List Fill} (within : FillsWithin tokio_read) (sound : dst.Sound H R)
    (polled : StreamPolled A tokio_read ((H,dst),t,[]) p) : Delivered A H R dst p ∧ Sat (stream_poll_read A (noted tokio_read)) p
      (fun r q => Delivered A H R dst q ∧ ∃ fill, q.2.2 = p.2.2++[fill] ∧ r = fill.outcome ∧ (fill.room = 0 ↔ p.1.2.remaining_mut = 0))
      (fun k q => k = .panic ∧ q.2 = p.2 ∧ Delivered A H R dst q ∧ Tight p.1.1 q.1.1 1 p.1.2 q.1.2) := by
  have delivered : Delivered A H R dst p := by
    induction polled with
    | start => exact ⟨.refl sound,Nat.zero_le _⟩
    | @poll t u r _ ran before =>
      cases r with
      | ok r => exact ((sat_of_ok ran).mp (before.next within)).1
      | error k => exact ((sat_of_error ran).mp (before.next within)).2.2.1
  exact ⟨delivered,delivered.next within⟩

/-- A stream of the bytes that are left, which gives two at most and is not ready at every
    other poll. -/
def trickle : TokioRead (Bool × List UInt8) := fun room => do
  let (ready,bytes) ← get
  set (!ready,if ready then bytes.drop (min room 2) else bytes)
  if ready then return .ready (.ok (bytes.take (min room 2)))
  return .pending

theorem trickle_within : FillsWithin trickle := by
  rintro room ⟨ready,bytes⟩
  simp only [trickle,sat_bind,sat_get,sat_set,sat_ite,sat_pure]
  constructor
  · rintro _ v ⟨⟩
    rw [List.length_take]
    omega
  · rintro _ v ⟨⟩

/-- Two bytes of memory, with a `BytesMut` behind them. -/
def ahead : BufMut := .chain (.slice pair) (.bytesMut ⟨⟨19,3⟩,2,2,⟨1,0⟩⟩)

theorem ahead_sound : ∃ w, World.JoinableRun (bump 0) (World.start []) w ∧ ahead.Sound w.heap [.bytes ⟨⟨16,2⟩,3,⟨1,0⟩⟩] := by
  obtain ⟨w,run,_,sound,_⟩ := Buf.joined_sound
  exact ⟨w,run,Tcio.Sound.perm sound (List.Perm.swap ..)⟩

/-- The stream after a first poll. -/
theorem stream_polls_keep_ahead : ∃ w, World.JoinableRun (bump 0) (World.start []) w ∧
    ∃ r p, stream_poll_read (bump 0) (noted trickle) ((w.heap,ahead),(true,[1,2,3]),[]) = (r,p) ∧
      Delivered (bump 0) w.heap [.bytes ⟨⟨16,2⟩,3,⟨1,0⟩⟩] ahead p ∧ Sat (stream_poll_read (bump 0) (noted trickle)) p
        (fun r q => Delivered (bump 0) w.heap [.bytes ⟨⟨16,2⟩,3,⟨1,0⟩⟩] ahead q ∧
          ∃ fill, q.2.2 = p.2.2++[fill] ∧ r = fill.outcome ∧ (fill.room = 0 ↔ p.1.2.remaining_mut = 0))
        (fun k q => k = .panic ∧ q.2 = p.2 ∧ Delivered (bump 0) w.heap [.bytes ⟨⟨16,2⟩,3,⟨1,0⟩⟩] ahead q ∧
          Tight p.1.1 q.1.1 1 p.1.2 q.1.2) := by
  obtain ⟨w,run,sound⟩ := ahead_sound
  rcases ran : stream_poll_read (bump 0) (noted trickle) ((w.heap,ahead),(true,[1,2,3]),[]) with ⟨r,p⟩
  exact ⟨w,run,r,p,ran,stream_polls_keep trickle_within sound (.poll .start ran)⟩

end AsyncRead
end Tcio
