import Mathlib.Data.List.Perm.Basic
import Tcio.Relay

/-!
Every run of a relay keeps the order of the bytes: what is gone, with what the buffer holds
behind it, is what the buffer held at first, with what came behind it. Frames and all other
handles see no change.
-/
namespace Tcio
open Exec AsyncRead AsyncWrite BufMut

namespace Relay
variable {T W : Type} {A : Allocator} {tokio_read : TokioRead T} {poll_write : PollWrite W}
variable {H H' H₀ : Heap} {R : List Handle} {m : BytesMut} {v v₀ w : List UInt8} {s t : Relay T W} {op : Op} {n : Nat}

/-- The frames that are held. -/
def held (s : Relay T W) : List Handle := s.frames.map fun f => .bytes f.1

/-- Nothing is lost, repeated or reordered, and nothing else has changed. -/
structure Flows (A : Allocator) (H₀ : Heap) (R : List Handle) (v₀ : List UInt8) (s : Relay T W) : Prop where
  sound : Tcio.Sound s.heap [] (.bytesMut s.buf :: (s.held++R))
  queue : ∃ v, (Handle.bytesMut s.buf).view s.heap = some v ∧ s.gone++v = v₀++s.came
  intact : ∀ f ∈ s.frames, (Handle.bytes f.1).view s.heap = some f.2
  others : ∀ r ∈ R, r.view s.heap = r.view H₀
  later : H₀.Later A s.heap

/-- A call that works on the buffer alone. -/
theorem Flows.turn (flows : Flows A H₀ R v₀ s) (turns : Turns A s.heap (s.held++R) t.heap [] [(.bytesMut t.buf,v)])
    (same : t.frames = s.frames) (balance : t.gone++v = v₀++t.came) : Flows A H₀ R v₀ t where
  sound := by
    rw [held,same]
    exact turns.sound
  queue := ⟨v,turns.view,balance⟩
  intact f mem := by
    rw [same] at mem
    rw [turns.frame _ (List.mem_append_left R (List.mem_map_of_mem mem))]
    exact flows.intact f mem
  others r mem := by
    rw [turns.frame r (List.mem_append_right _ mem)]
    exact flows.others r mem
  later := flows.later.trans turns.later

/-! ### A `BytesMut` among the buffers -/

theorem buf_sound (sound : Tcio.Sound H [] (.bytesMut m :: R)) : (BufMut.bytesMut m).Sound H R := sound

/-- Bytes written into a `BytesMut` are behind its view. -/
theorem wrote_turns {m' : BytesMut} (view : (Handle.bytesMut m).view H = some v) (wrote : Wrote A H R (.bytesMut m) w H' (.bytesMut m')) :
    Turns A H R H' [] [(.bytesMut m',v++w)] := by
  obtain ⟨v',view'⟩ := Option.ne_none_iff_exists'.mp (Tcio.Sound.placed wrote.sound (.bytesMut m') List.mem_cons_self).viewed
  have same := wrote.space
  rw [space,space,view,view',Space.write,Option.getD_some,Option.getD_some,Space.grows.injEq] at same
  refine ⟨wrote.sound,?_,wrote.frame,wrote.later⟩
  rintro x mem
  rw [List.mem_singleton.mp mem,← same.2]
  exact view'

/-- Reading into a `BytesMut` leaves a `BytesMut`. -/
theorem stream_keeps_kind {T : Type} {tokio_read : TokioRead T} {t : T} : Sat (stream_poll_read A tokio_read) ((H,.bytesMut m),t)
    (fun _ p => ∃ m', p.1.2 = .bytesMut m') (fun _ p => ∃ m', p.1.2 = .bytesMut m') := by
  simp only [stream_poll_read,sat_bind,sat_onFst,sat_onSnd,Method.sat_self,chunk_mut,Method.sat_within]
  refine sat_any.mono ?_ (fun _ p _ => ⟨_,rfl⟩)
  rintro room ⟨H₁,m₁⟩ _
  refine sat_any.mono ?_ (fun _ p _ => ⟨_,rfl⟩)
  rintro (r | _) t' _
  · rcases r with err | filled
    · exact ⟨_,rfl⟩
    · simp only [sat_bind,sat_onFst,Method.sat_replace,write_chunk,sat_pure,advance_mut,sat_lend]
      refine sat_any.mono ?_ (fun _ _ _ => ⟨_,rfl⟩)
      intro _ H₂ _
      exact sat_any.mono (fun _ _ _ => ⟨_,rfl⟩) (fun _ _ _ => ⟨_,rfl⟩)
  · exact ⟨_,rfl⟩

/-- A writer that takes from a `BytesMut` leaves a `BytesMut`, from which that is gone. -/
theorem taken_turns {p : Heap × Buf} (view : (Handle.bytesMut m).view H = some v) (taken : Taken A H R (.bytesMut m) w p) :
    ∃ m', p.2 = .bytesMut m' ∧ w++v.drop w.length = v ∧ Turns A H R p.1 [] [(.bytesMut m',v.drop w.length)] := by
  obtain ⟨H',buf'⟩ := p
  obtain ⟨rfl,⟨rest,whole⟩,moves⟩ := taken
  have content : (Buf.bytesMut m).content H' = v := by rw [Buf.content,view,Option.getD_some]
  rw [content] at whole
  have split : w++v.drop w.length = v := by rw [← whole,List.drop_left]
  obtain ⟨sound,consumed,frame,later⟩ := moves
  generalize w.length = n at *
  cases consumed with
  | @bytesMut _ m' _ v' before inside after =>
    rw [view] at before
    cases before
    refine ⟨m',rfl,split,sound,?_,frame,later⟩
    intro x mem
    rw [List.mem_singleton.mp mem]
    exact after

/-- One call of a writer that notes it, on all that a `BytesMut` holds. -/
theorem polled_takes {α : Type} {f : Nat → α} {pw : PollWrite W} {w₀ : W} (lawful : Lawful pw) (sound : (Buf.bytesMut m).Sound H R)
    (view : (Handle.bytesMut m).view H = some v) : Sat (polled (logged pw) v f) ((H,.bytesMut m),w₀,[])
      (fun _ p => Taken A H R (.bytesMut m) (accepted p.2.2) p.1) (fun _ _ => False) := by
  have content : (Buf.bytesMut m).content H = v := by rw [Buf.content,view,Option.getD_some]
  simp only [polled,logged,sat_bind,sat_onSnd,sat_onFst,sat_modify,sat_pure]
  refine (lawful v w₀).mono ?_ (fun _ _ => id)
  intro r w' within
  have idle : Taken A H R (.bytesMut m) [] (H,.bytesMut m) := ⟨rfl,List.nil_prefix,.refl sound⟩
  rcases r with (err | k) | _
  · exact idle
  · have inside := within k rfl
    have size : (v.take k).length = k := by
      rw [List.length_take]
      exact Nat.min_eq_left inside
    have length : v.length = m.len := length_of_view view
    have fits : m.len ≤ m.cap := (Tcio.Sound.placed sound (.bytesMut m) List.mem_cons_self).fits
    have small := BytesMut.cap_small sound
    have word : isizeMax ≤ usizeMax := by decide
    simp only [sat_bind,sat_onFst,Method.sat_replace,sat_pure]
    refine (Buf.advance_spec A sound (n := k) (by omega)).mono ?_ ?_
    · rintro buf' _ ⟨rfl,moves⟩
      have took : accepted ([]++[⟨v,.ready (.ok k)⟩]) = v.take k := accepted_single
      refine ⟨rfl,?_,?_⟩
      · rw [content,took]
        exact List.take_prefix k v
      · rw [took,size]
        exact moves
    · rintro _ _ ⟨_,_,short⟩
      rw [content] at short
      omega
  · exact idle

/-! ### Calls -/

/-- Where a call stops: it panics and the relay goes on, the process is aborted where a frame is
    one handle too many, or there is no such frame. -/
def Stops (A : Allocator) (H₀ : Heap) (R : List Handle) (v₀ : List UInt8) (s : Relay T W) (op : Op) (k : Stop) (t : Relay T W) : Prop :=
  k = .panic ∧ Flows A H₀ R v₀ t ∨ k = .abort ∧ Crowded s.heap ∧ (∃ n, op = .frame n) ∨ k = .stuck ∧ ∃ i, op = .release i ∧ s.frames.length ≤ i

/-- A call keeps the order, whether it returns or panics. -/
def Keeps (A : Allocator) (tokio_read : TokioRead T) (poll_write : PollWrite W) (op : Op) : Prop :=
  ∀ H₀ R v₀ s, Flows A H₀ R v₀ s → Sat (exec A tokio_read poll_write op) s (fun _ t => Flows A H₀ R v₀ t) (Stops A H₀ R v₀ s op)

theorem poll_read_keeps (fills : FillsWithin tokio_read) : Keeps A tokio_read poll_write .poll_read := by
  intro H₀ R v₀ s flows
  obtain ⟨v,view,balance⟩ := flows.queue
  simp only [exec,reading,sat_bind,sat_zoom,sat_pure]
  have polled := stream_poll_read_spec (A := A) (t := s.stream) [] fills (buf_sound flows.sound)
  refine (polled.and stream_keeps_kind).mono ?_ ?_
  · rintro r ⟨⟨H',_⟩,t',_⟩ ⟨⟨fill,rfl,_,_,_,wrote⟩,m',rfl⟩
    refine flows.turn (wrote_turns view wrote) rfl ?_
    simp only [arrived,List.nil_append,List.flatMap_cons,List.flatMap_nil,List.append_nil]
    rw [← List.append_assoc,balance,List.append_assoc]
  · rintro k ⟨⟨H',_⟩,t',_⟩ ⟨⟨panic,same,wrote,_⟩,m',rfl⟩
    cases same
    refine .inl ⟨panic,flows.turn (wrote_turns view wrote) rfl ?_⟩
    simp only [arrived,List.flatMap_nil,List.append_nil]
    exact balance

theorem poll_read_slice_keeps {slice : Slice} : Keeps A tokio_read poll_write (.poll_read_slice slice) := by
  intro H₀ R v₀ s flows
  obtain ⟨v,view,balance⟩ := flows.queue
  have small := slice.small
  simp only [exec,reading_slice,sat_bind,sat_zoom,sat_pure,slice_poll_read,sat_onSnd,sat_get,sat_onFst,Method.sat_self,sat_set,
    put_slice,Method.sat_within]
  have part : (slice.bytes.take (min slice.len (BufMut.bytesMut s.buf).remaining_mut)).length ≤ isizeMax :=
    Nat.le_trans (List.length_take_le' _ _) small
  refine (BytesMut.extend_from_slice_spec flows.sound view part).mono ?_ ?_
  · rintro _ ⟨H',m'⟩ ⟨turns,_⟩
    refine flows.turn turns rfl ?_
    have taken : slice.len-(slice.drop (min slice.len (BufMut.bytesMut s.buf).remaining_mut)).len =
        min slice.len (BufMut.bytesMut s.buf).remaining_mut := by
      simp only [Slice.len,Slice.drop,List.length_drop]
      omega
    simp only [taken]
    rw [← List.append_assoc,balance,List.append_assoc]
  · rintro k ⟨H',m'⟩ ⟨panic,turns,_⟩
    refine .inl ⟨panic,flows.turn turns rfl ?_⟩
    simp only [Nat.sub_self,List.take_zero,List.append_nil]
    exact balance

theorem write_keeps {slice : Slice} : Keeps A tokio_read poll_write (.write slice) := by
  intro H₀ R v₀ s flows
  obtain ⟨v,view,balance⟩ := flows.queue
  simp only [exec,onBuf,sat_bind,sat_zoom,sat_pure,BytesMut.write,sat_modify]
  refine (BytesMut.extend_from_slice_spec flows.sound view slice.small).mono ?_ ?_
  · rintro _ ⟨H',m'⟩ ⟨turns,_⟩
    refine flows.turn turns rfl ?_
    rw [← List.append_assoc,balance,List.append_assoc]
  · rintro k ⟨H',m'⟩ ⟨panic,turns,_⟩
    exact .inl ⟨panic,flows.turn turns rfl balance⟩

theorem read_keeps {buf : List UInt8} : Keeps A tokio_read poll_write (.read buf) := by
  intro H₀ R v₀ s flows
  obtain ⟨v,view,balance⟩ := flows.queue
  have length : v.length = s.buf.len := length_of_view view
  simp only [exec,onBuf,sat_bind,sat_zoom,sat_pure,BytesMut.read,Method.sat_self,sat_onFst,sat_modify]
  rw [sat_of_ok (show s.buf.as_slice s.heap = (.ok v,s.heap) from read_ok view)]
  refine (BytesMut.advance_spec (A := A) (n := min buf.length s.buf.len) flows.sound view).mono ?_ ?_
  · rintro _ ⟨H',m'⟩ ⟨inside,turns⟩
    refine flows.turn turns rfl ?_
    have front : (v.take (min buf.length s.buf.len)++buf.drop (min buf.length s.buf.len)).take (min buf.length s.buf.len) =
        v.take (min buf.length s.buf.len) := List.take_left' (by rw [List.length_take]; omega)
    simp only [front]
    rw [List.append_assoc,List.take_append_drop]
    exact balance
  · rintro k _ ⟨_,short,_⟩
    omega

/-- What the writer has taken is gone from the buffer. -/
theorem Flows.taken {p : Heap × Buf} {w' : W} {gone : List UInt8} (flows : Flows A H₀ R v₀ s)
    (taken : Taken A s.heap (s.held++R) (.bytesMut s.buf) gone p) :
    Flows A H₀ R v₀ { s with heap := p.1,buf := as_src s.buf p.2,writer := w',gone := s.gone++gone } := by
  obtain ⟨v,view,balance⟩ := flows.queue
  obtain ⟨H',buf'⟩ := p
  obtain ⟨m',rfl,split,turns⟩ := taken_turns view taken
  refine flows.turn turns rfl ?_
  rw [List.append_assoc,split]
  exact balance

/-- The chunk of a `BytesMut` is all that it holds. -/
theorem front_view (view : (Handle.bytesMut m).view H = some v) : ((Buf.bytesMut m).rope H).front = v := by
  rw [Buf.rope,view]
  rfl

theorem poll_write_buf_keeps (lawful : Lawful poll_write) : Keeps A tokio_read poll_write .poll_write_buf := by
  intro H₀ R v₀ s flows
  obtain ⟨v,view,_⟩ := flows.queue
  have sound : (Buf.bytesMut s.buf).Sound s.heap (s.held++R) := flows.sound
  have once : poll_write_buf (logged poll_write) ((s.heap,.bytesMut s.buf),s.writer,[]) =
      polled (logged poll_write) v id ((s.heap,.bytesMut s.buf),s.writer,[]) := by
    rw [poll_write_buf_eq sound,front_view view]
  simp only [exec,writing,sat_bind,sat_zoom,sat_pure]
  rw [sat_congr once]
  exact (polled_takes (A := A) lawful sound view).mono (fun _ _ taken => flows.taken taken) (fun _ _ => False.elim)

theorem poll_write_buf_vectored_keeps (lawful : Lawful poll_write) : Keeps A tokio_read poll_write .poll_write_buf_vectored := by
  intro H₀ R v₀ s flows
  obtain ⟨v,view,_⟩ := flows.queue
  have sound : (Buf.bytesMut s.buf).Sound s.heap (s.held++R) := flows.sound
  have once : poll_write_buf_vectored (logged poll_write) ((s.heap,.bytesMut s.buf),s.writer,[]) =
      polled (logged poll_write) v (fun _ => ()) ((s.heap,.bytesMut s.buf),s.writer,[]) := by
    rw [poll_write_buf_vectored_eq sound,front_view view]
  simp only [exec,writing,sat_bind,sat_zoom,sat_pure]
  rw [sat_congr once]
  exact (polled_takes (A := A) lawful sound view).mono (fun _ _ taken => flows.taken taken) (fun _ _ => False.elim)

theorem poll_write_all_buf_keeps (lawful : Lawful poll_write) : Keeps A tokio_read poll_write .poll_write_all_buf := by
  intro H₀ R v₀ s flows
  obtain ⟨v,view,_⟩ := flows.queue
  have length : v.length = s.buf.len := length_of_view view
  have enough : ((Buf.bytesMut s.buf).content s.heap).length < s.buf.len+1 := by
    rw [Buf.content,view,Option.getD_some]
    omega
  simp only [exec,writing,sat_bind,sat_get,sat_zoom,sat_pure]
  have idle : Taken A s.heap (s.held++R) (.bytesMut s.buf) (accepted []) (s.heap,.bytesMut s.buf) :=
    ⟨rfl,List.nil_prefix,.refl flows.sound⟩
  exact (poll_returns lawful idle enough).mono (fun _ _ returned => flows.taken returned.1) (fun _ _ => False.elim)

theorem frame_keeps : Keeps A tokio_read poll_write (.frame n) := by
  intro H₀ R v₀ s flows
  obtain ⟨v,view,balance⟩ := flows.queue
  simp only [exec,onBuf,onHeap,sat_bind,sat_zoom,sat_modify]
  refine (BytesMut.split_to_spec flows.sound view).mono ?_ ?_
  · rintro front ⟨H₁,m'⟩ ⟨inside,_,_,turns⟩
    have both := turns.swap
    refine (BytesMut.freeze_spec both.sound both.view).mono ?_ (fun _ _ => False.elim)
    intro b H₂ frozen
    rw [sat_of_ok (show b.as_slice H₂ = (.ok (v.take n),H₂) from read_ok frozen.view)]
    have old (h : Handle) (mem : h ∈ s.held++R) : h.view H₂ = h.view s.heap := by
      rw [frozen.frame h (List.mem_cons_of_mem _ mem),turns.frame h mem]
    have kept : (Handle.bytesMut m').view H₂ = some (v.drop n) := by
      rw [frozen.frame _ List.mem_cons_self]
      exact turns.view
    refine ⟨?_,⟨_,kept,?_⟩,?_,?_,flows.later.trans (turns.later.trans frozen.later)⟩
    · have sound : Tcio.Sound H₂ [] (.bytes b :: .bytesMut m' :: (s.held++R)) := frozen.sound
      refine sound.perm ((List.Perm.swap ..).trans (List.Perm.cons _ ?_))
      simp only [held,List.map_append,List.map_cons,List.map_nil,List.append_assoc,List.cons_append,List.nil_append]
      exact List.perm_middle.symm
    · rw [List.append_assoc,List.take_append_drop]
      exact balance
    · intro f mem
      rcases List.mem_append.mp mem with before | new
      · rw [old _ (List.mem_append_left R (List.mem_map_of_mem before))]
        exact flows.intact f before
      · rw [List.mem_singleton.mp new]
        exact frozen.view
    · intro r mem
      rw [old r (List.mem_append_right _ mem)]
      exact flows.others r mem
  · rintro k ⟨H',m'⟩ (⟨abort,crowded⟩ | ⟨panic,_,same⟩)
    · exact .inr (.inl ⟨abort,crowded,n,rfl⟩)
    · cases same
      exact .inl ⟨panic,flows⟩

theorem release_keeps {i : Nat} : Keeps A tokio_read poll_write (.release i) := by
  intro H₀ R v₀ s flows
  obtain ⟨v,view,balance⟩ := flows.queue
  simp only [exec,onHeap,sat_bind,sat_get,sat_ofOption,sat_modify,sat_zoom]
  refine ⟨?_,fun none => .inr (.inr ⟨rfl,i,rfl,List.getElem?_eq_none_iff.mp none⟩)⟩
  rintro ⟨frame,bytes⟩ found
  obtain ⟨inside,here⟩ := List.getElem?_eq_some_iff.mp found
  have front : (Handle.bytesMut s.buf :: (s.held++R)).Perm
      (.bytes frame :: .bytesMut s.buf :: ((s.frames.eraseIdx i).map (fun f => Handle.bytes f.1)++R)) := by
    have order := (List.getElem_cons_eraseIdx_perm inside).map fun f => Handle.bytes f.1
    rw [here] at order
    exact ((order.symm.append_right R).cons _).trans (List.Perm.swap ..)
  obtain ⟨rest,placed,_⟩ := sound_cons.mp (flows.sound.perm front)
  refine (Bytes.drop_spec A rest placed).mono ?_ (fun _ _ => False.elim)
  intro _ H' goes
  refine ⟨goes.sound,⟨v,?_,balance⟩,?_,?_,flows.later.trans goes.later⟩
  · rw [goes.view _ List.mem_cons_self]
    exact view
  · intro f mem
    rw [goes.view _ (List.mem_cons_of_mem _ (List.mem_append_left R (List.mem_map_of_mem mem)))]
    exact flows.intact f (List.mem_of_mem_eraseIdx mem)
  · intro r mem
    rw [goes.view r (List.mem_cons_of_mem _ (List.mem_append_right _ mem))]
    exact flows.others r mem

theorem reserve_keeps : Keeps A tokio_read poll_write (.reserve n) := by
  intro H₀ R v₀ s flows
  obtain ⟨v,view,balance⟩ := flows.queue
  simp only [exec,onBuf,sat_zoom]
  refine (BytesMut.reserve_spec flows.sound view).mono ?_ ?_
  · rintro _ ⟨H',m'⟩ ⟨turns,_⟩
    exact flows.turn turns rfl balance
  · rintro k ⟨H',m'⟩ ⟨panic,turns,_⟩
    exact .inl ⟨panic,flows.turn turns rfl balance⟩

theorem try_reclaim_keeps : Keeps A tokio_read poll_write (.try_reclaim n) := by
  intro H₀ R v₀ s flows
  obtain ⟨v,view,balance⟩ := flows.queue
  simp only [exec,onBuf,sat_bind,sat_zoom,sat_pure]
  refine (BytesMut.try_reclaim_spec flows.sound view).mono ?_ ?_
  · rintro _ ⟨H',m'⟩ ⟨turns,_⟩
    exact flows.turn turns rfl balance
  · rintro k ⟨H',m'⟩ ⟨panic,turns,_⟩
    exact .inl ⟨panic,flows.turn turns rfl balance⟩

/-! ### Runs -/

theorem keeps (op : Op) (fills : FillsWithin tokio_read) (lawful : Lawful poll_write) : Keeps A tokio_read poll_write op := by
  cases op with
  | poll_read => exact poll_read_keeps fills
  | poll_read_slice s => exact poll_read_slice_keeps
  | write s => exact write_keeps
  | read buf => exact read_keeps
  | poll_write_buf => exact poll_write_buf_keeps lawful
  | poll_write_buf_vectored => exact poll_write_buf_vectored_keeps lawful
  | poll_write_all_buf => exact poll_write_all_buf_keeps lawful
  | frame n => exact frame_keeps
  | release i => exact release_keeps
  | reserve n => exact reserve_keeps
  | try_reclaim n => exact try_reclaim_keeps

theorem step_flows (fills : FillsWithin tokio_read) (lawful : Lawful poll_write) (flows : Flows A H₀ R v₀ s)
    (step : Step A tokio_read poll_write op s t) : Flows A H₀ R v₀ t := by
  have kept := keeps (A := A) op fills lawful H₀ R v₀ s flows
  rcases step with ⟨a,ran⟩ | ran
  · exact (sat_of_ok ran).mp kept
  · rcases (sat_of_error ran).mp kept with ⟨_,still⟩ | ⟨bad,_⟩ | ⟨bad,_⟩
    · exact still
    · cases bad
    · cases bad

theorem run_flows (fills : FillsWithin tokio_read) (lawful : Lawful poll_write) (flows : Flows A H₀ R v₀ s)
    (run : Run A tokio_read poll_write s t) : Flows A H₀ R v₀ t := by
  induction run with
  | refl => exact flows
  | tail _ step before =>
    obtain ⟨op,step⟩ := step
    exact step_flows fills lawful before step

/-- Nothing came and nothing is gone yet. -/
structure Fresh (s : Relay T W) : Prop where
  frames : s.frames = []
  came : s.came = []
  gone : s.gone = []

theorem Fresh.flows (fresh : Fresh s) (sound : Tcio.Sound s.heap [] (.bytesMut s.buf :: R))
    (view : (Handle.bytesMut s.buf).view s.heap = some v₀) : Flows A s.heap R v₀ s where
  sound := by
    rw [held,fresh.frames]
    exact sound
  queue := ⟨v₀,view,by rw [fresh.gone,fresh.came,List.nil_append,List.append_nil]⟩
  intact f mem := by
    rw [fresh.frames] at mem
    cases mem
  others _ _ := rfl
  later := .refl A _

/-- After calls in any order, of which any may have panicked, the bytes that are gone, with
    what the buffer holds behind them, are those that it held at first with what came behind
    them; every frame that is held shows the bytes that it was split off with. The next call
    keeps this, or it aborts where there are too many handles. -/
theorem relays (fills : FillsWithin tokio_read) (lawful : Lawful poll_write) (fresh : Fresh s)
    (sound : Tcio.Sound s.heap [] (.bytesMut s.buf :: R)) (view : (Handle.bytesMut s.buf).view s.heap = some v₀)
    (run : Run A tokio_read poll_write s t) : Flows A s.heap R v₀ t ∧
      ∀ op, Sat (exec A tokio_read poll_write op) t (fun _ u => Flows A s.heap R v₀ u) (Stops A s.heap R v₀ t op) := by
  have flows := run_flows fills lawful (fresh.flows sound view) run
  exact ⟨flows,fun op => keeps op fills lawful _ _ _ _ flows⟩

/-- A call that neither splits a frame off nor drops one returns or panics. -/
theorem Flows.goes (flows : Flows A H₀ R v₀ s) (op : Op) (fills : FillsWithin tokio_read) (lawful : Lawful poll_write)
    (whole : ∀ n, op ≠ .frame n) (held : ∀ i, op ≠ .release i) : ∃ t, Step A tokio_read poll_write op s t := by
  rcases (keeps op fills lawful _ _ _ _ flows).cases with ⟨a,t,ran,_⟩ | ⟨k,t,ran,⟨panic,_⟩ | ⟨_,_,n,bad⟩ | ⟨_,i,bad,_⟩⟩
  · exact ⟨t,.inl ⟨a,ran⟩⟩
  · exact ⟨t,.inr (panic ▸ ran)⟩
  · exact absurd bad (whole n)
  · exact absurd bad (held i)

/-- A relay beside another handle. -/
def between (H : Heap) : Relay (Bool × List UInt8) Bool := ⟨H,⟨⟨19,3⟩,2,2,⟨1,0⟩⟩,[],(true,[1,2,3]),true,[],[]⟩

theorem between_held : ∃ w, World.JoinableRun (bump 0) (World.start []) w ∧
    Tcio.Sound (between w.heap).heap [] [.bytesMut (between w.heap).buf,.bytes ⟨⟨16,2⟩,3,⟨1,0⟩⟩] ∧
    (Handle.bytesMut (between w.heap).buf).view (between w.heap).heap = some [4,5] := by
  obtain ⟨w,run,_,sound,view,_⟩ := Buf.joined_sound
  exact ⟨w,run,Tcio.Sound.perm sound (List.Perm.swap ..),view⟩

theorem between_fresh {H : Heap} : Fresh (between H) := ⟨rfl,rfl,rfl⟩

theorem relays_between : ∃ w, World.JoinableRun (bump 0) (World.start []) w ∧
    ∃ t, Step (bump 0) trickle slow (.read [0]) (between w.heap) t ∧ Flows (bump 0) w.heap [.bytes ⟨⟨16,2⟩,3,⟨1,0⟩⟩] [4,5] t ∧
      ∀ op, Sat (exec (bump 0) trickle slow op) t (fun _ u => Flows (bump 0) w.heap [.bytes ⟨⟨16,2⟩,3,⟨1,0⟩⟩] [4,5] u)
        (Stops (bump 0) w.heap [.bytes ⟨⟨16,2⟩,3,⟨1,0⟩⟩] [4,5] t op) := by
  obtain ⟨w,run,held,view⟩ := between_held
  have flows := between_fresh.flows (A := bump 0) held view
  obtain ⟨t,step⟩ := flows.goes (.read [0]) trickle_within slow_lawful (fun n bad => by cases bad) (fun i bad => by cases bad)
  exact ⟨w,run,t,step,relays trickle_within slow_lawful between_fresh held view (.single ⟨_,step⟩)⟩

end Relay
end Tcio
