import Tcio.Amortized
import Tcio.Capacity
import Tcio.Moves
import Tcio.RelaySpec

/-!
What the room of a relay costs. Whatever the order of its calls, all the bytes that the
buffer moves, back to the start of its allocation or into a new one, are paid by those that
come and go and by those that room was reserved for, and no allocation is larger than a call
at its time needed.
-/
namespace Tcio
open Exec AsyncRead AsyncWrite BufMut

namespace BytesMut
variable {A : Allocator} {H : Heap} {m : BytesMut} {e : Extent}

/-- A chunk is reserved only where there is none, so bytes in it are behind the view. -/
theorem chunk_mut_shift (lies : m.Lies H e) : Sat ((BufMut.bytesMut m).chunk_mut A) (H,.bytesMut m)
    (fun _ p => ∃ r, p.2 = .bytesMut r ∧ ∀ w, Shift A H m 0 64 { r with len := r.len+w })
    (fun k p => k = .panic → ∃ r, p.2 = .bytesMut r ∧ Shift A H m 0 64 r) := by
  simp only [chunk_mut,Method.sat_within,sat_bind,sat_ite,Method.sat_self,sat_usize_sub]
  refine ⟨fun full => ?_,fun _ => ⟨fun _ => ⟨m,rfl,fun w => .stays ⟨rfl,Nat.le_add_right ..,Nat.le_refl _⟩⟩,fun _ fault => no_panic rfl fault⟩⟩
  refine (reserve_shift lies).mono (fun _ p shift => ⟨fun _ => ⟨p.2,rfl,fun w => shift.full full⟩,fun _ fault => no_panic rfl fault⟩) ?_
  exact fun k p stays panic => ⟨p.2,rfl,.stays (stays panic)⟩

end BytesMut

namespace Relay
variable {T W : Type} {A : Allocator} {tokio_read : TokioRead T} {poll_write : PollWrite W}
variable {H₀ : Heap} {R : List Handle} {m : BytesMut} {v₀ : List UInt8} {s t : Relay T W} {op : Op} {n : Nat} {e : Extent}

/-- What a call reserves without putting bytes there. -/
def Op.asked : Op → Nat
  | .reserve n => n
  | _ => 0
/-- The room that a call asks for. -/
def Op.room : Op → Nat
  | .poll_read => 64
  | .poll_read_slice s => s.len
  | .write s => s.len
  | .reserve n => n
  | _ => 0

/-- A call puts bytes behind the view or takes some from its front. -/
inductive Shape (A : Allocator) (op : Op) (s t : Relay T W) : Prop where
  | fills : t.gone = s.gone → s.buf.Shift A s.heap op.asked op.room t.buf → Shape A op s t
  | drains {n : Nat} : t.came = s.came → s.buf.Drained n t.buf → Shape A op s t

/-- Where a call leaves the buffer, whether it returns or panics. -/
def Shapes (A : Allocator) (tokio_read : TokioRead T) (poll_write : PollWrite W) (op : Op) : Prop :=
  ∀ s e, s.buf.Lies s.heap e → Sat (exec A tokio_read poll_write op) s (fun _ t => Shape A op s t) (fun k t => k = .panic → Shape A op s t)

theorem poll_read_shapes : Shapes A tokio_read poll_write .poll_read := by
  intro s e lies
  simp only [exec,reading,sat_bind,sat_zoom,sat_pure,stream_poll_read,noted,sat_onFst,sat_onSnd,Method.sat_self,sat_modify]
  refine (BytesMut.chunk_mut_shift lies).mono ?_ ?_
  · rintro room ⟨H₁,_⟩ ⟨r,rfl,shift⟩
    have none := shift 0
    refine sat_any.mono ?_ (fun _ _ _ _ => .fills rfl none)
    rintro ((err | filled) | _) t' _
    · exact .fills rfl none
    · simp only [sat_bind,sat_onFst,Method.sat_replace,write_chunk,sat_pure,advance_mut,sat_lend,BytesMut.set_len,Method.sat_self,Method.sat_put]
      exact sat_any.mono (fun _ _ _ => .fills rfl (shift filled.length)) (fun _ _ _ _ => .fills rfl none)
    · exact .fills rfl none
  · rintro k ⟨H₁,_⟩ stops panic
    obtain ⟨r,rfl,shift⟩ := stops panic
    exact .fills rfl shift

theorem poll_read_slice_shapes {slice : Slice} : Shapes A tokio_read poll_write (.poll_read_slice slice) := by
  intro s e lies
  simp only [exec,reading_slice,sat_bind,sat_zoom,sat_pure,slice_poll_read,sat_onSnd,sat_get,sat_onFst,Method.sat_self,sat_set,
    put_slice,Method.sat_within]
  have part : (slice.bytes.take (min slice.len (BufMut.bytesMut s.buf).remaining_mut)).length ≤ slice.len := List.length_take_le' ..
  refine (BytesMut.extend_from_slice_shift lies).mono ?_ ?_
  · exact fun _ p shift => .fills rfl (shift.mono part)
  · exact fun _ p shift panic => .fills rfl ((shift panic).mono part)

theorem write_shapes {slice : Slice} : Shapes A tokio_read poll_write (.write slice) := by
  intro s e lies
  simp only [exec,onBuf,sat_bind,sat_zoom,sat_pure,BytesMut.write,sat_modify]
  refine (BytesMut.extend_from_slice_shift lies).mono ?_ ?_
  · exact fun _ p shift => .fills rfl shift
  · exact fun _ p shift panic => .fills rfl (shift panic)

theorem read_shapes {buf : List UInt8} : Shapes A tokio_read poll_write (.read buf) := by
  intro s e lies
  simp only [exec,onBuf,sat_bind,sat_zoom,sat_pure,BytesMut.read,Method.sat_self,sat_onFst,sat_modify]
  refine sat_any.mono (fun bytes H₁ _ => ?_) (fun _ _ _ _ => .drains rfl (.refl _))
  exact BytesMut.advance_drains.mono (fun _ _ drained => .drains rfl drained) (fun _ _ drained _ => .drains rfl drained)

/-! ### Writers -/

/-- What reading the chunks of a cursor and advancing it keep. -/
structure Lasting (I : Heap × Buf → Prop) : Prop where
  chunk : Exec.Keeps I (do onFst (← Method.self).chunk)
  slices : Exec.Keeps I (do onFst ((← Method.self).chunks_vectored 64))
  advance : ∀ cnt, Exec.Keeps I (Method.replace fun buf => buf.advance cnt)

section
variable {I : Heap × Buf → Prop} {pw : PollWrite W}

/-- What lasts is kept by every writer. -/
theorem onWriter_lasts {α : Type} {x : Exec W α} : Exec.Keeps (fun p : (Heap × Buf) × W => I p.1) (onSnd x) := by
  rintro ⟨p,w⟩ holds
  exact sat_onSnd.mpr (sat_any.mono (fun _ _ _ => holds) (fun _ _ _ _ => holds))

theorem Lasting.write_buf (lasting : Lasting I) : Exec.Keeps (fun p : (Heap × Buf) × W => I p.1) (poll_write_buf pw) := by
  refine .bind (.onFst lasting.chunk) fun chunk => .bind onWriter_lasts fun r => ?_
  rcases r with (err | n) | _
  · exact .pure
  · exact .bind (.onFst (lasting.advance n)) fun _ => .pure
  · exact .pure

theorem Lasting.write_buf_vectored (lasting : Lasting I) :
    Exec.Keeps (fun p : (Heap × Buf) × W => I p.1) (poll_write_buf_vectored pw) := by
  refine .bind (.onFst lasting.slices) fun slices => .bind .check fun _ => .bind onWriter_lasts fun r => ?_
  rcases r with (err | n) | _
  · exact .pure
  · exact .bind (.onFst (lasting.advance n)) fun _ => .pure
  · exact .pure

theorem Lasting.write_all_buf {rounds : Nat} (lasting : Lasting I) :
    Exec.Keeps (fun p : (Heap × Buf) × W => I p.1) (poll_write_all_buf pw rounds) := by
  refine .loop (.bind (.onFst (fun _ holds => holds)) fun buf => .ite .pure (.bind lasting.write_buf fun r => ?_)) rounds
  rcases r with (err | n) | _
  · exact .pure
  · exact .ite .pure .pure
  · exact .pure

end

/-- The cursor is a `BytesMut` whose front may be gone. -/
def Draining (m : BytesMut) (p : Heap × Buf) : Prop := ∃ n r, p.2 = .bytesMut r ∧ m.Drained n r

theorem draining_lasting : Lasting (Draining m) := by
  have reads {α : Type} (x : Buf → Exec Heap α) : Exec.Keeps (Draining m) (do onFst (x (← Method.self))) := by
    rintro ⟨H,buf⟩ holds
    simp only [sat_bind,Method.sat_self,sat_onFst]
    exact sat_any.mono (fun _ _ _ => holds) (fun _ _ _ _ => holds)
  refine ⟨reads Buf.chunk,reads (Buf.chunks_vectored · 64),?_⟩
  rintro cnt ⟨H,_⟩ ⟨n,r,rfl,drained⟩
  simp only [Method.sat_replace,Buf.advance,sat_bind,sat_lend,sat_pure]
  exact BytesMut.advance_drains.mono (fun _ _ more => ⟨_,_,rfl,drained.trans more⟩) (fun _ _ _ _ => ⟨n,r,rfl,drained⟩)

/-- A writer takes bytes from the front of the buffer alone. -/
theorem writing_shapes {α : Type} {x : Exec ((Heap × Buf) × W × List AsyncWrite.Call) α}
    (draining : Exec.Keeps (fun p : (Heap × Buf) × W × List AsyncWrite.Call => Draining s.buf p.1) x) :
    Sat (writing x) s (fun _ t => Shape A op s t) (fun k t => k = .panic → Shape A op s t) := by
  simp only [writing,sat_zoom]
  refine (draining _ ⟨0,s.buf,rfl,.refl _⟩).mono ?_ ?_
  · rintro _ ⟨⟨H',_⟩,_⟩ ⟨n,r,rfl,drained⟩
    exact .drains rfl drained
  · rintro _ ⟨⟨H',_⟩,_⟩ still panic
    obtain ⟨n,r,rfl,drained⟩ := still panic
    exact .drains rfl drained

/-! ### The other calls -/

theorem frame_shapes : Shapes A tokio_read poll_write (.frame n) := by
  intro s e lies
  simp only [exec,onBuf,onHeap,sat_bind,sat_zoom,sat_modify]
  refine BytesMut.split_to_drains.mono (fun front p drained => ?_) (fun _ _ drained _ => .drains rfl drained)
  refine sat_any.mono (fun frame H₁ _ => ?_) (fun _ _ _ _ => .drains rfl drained)
  exact sat_any.mono (fun _ _ _ => .drains rfl drained) (fun _ _ _ _ => .drains rfl drained)

theorem release_shapes {i : Nat} : Shapes A tokio_read poll_write (.release i) := by
  intro s e lies
  simp only [exec,onHeap,sat_bind,sat_get,sat_ofOption,sat_modify,sat_zoom]
  refine ⟨fun _ _ => ?_,fun _ bad => by cases bad⟩
  exact sat_any.mono (fun _ _ _ => .drains rfl (.refl _)) (fun _ _ _ _ => .drains rfl (.refl _))

theorem shapes (op : Op) : Shapes A tokio_read poll_write op := by
  cases op with
  | poll_read => exact poll_read_shapes
  | poll_read_slice s => exact poll_read_slice_shapes
  | write s => exact write_shapes
  | read buf => exact read_shapes
  | poll_write_buf =>
    intro s e lies
    simp only [exec,sat_bind,sat_pure]
    exact writing_shapes draining_lasting.write_buf
  | poll_write_buf_vectored =>
    intro s e lies
    simp only [exec,sat_bind,sat_pure]
    exact writing_shapes draining_lasting.write_buf_vectored
  | poll_write_all_buf =>
    intro s e lies
    simp only [exec,sat_bind,sat_pure,sat_get]
    exact writing_shapes draining_lasting.write_all_buf
  | frame n => exact frame_shapes
  | release i => exact release_shapes
  | reserve n =>
    intro s e lies
    simp only [exec,onBuf,sat_zoom]
    exact (BytesMut.reserve_shift lies).mono (fun _ _ shift => .fills rfl shift) (fun _ _ stays panic => .fills rfl (.stays (stays panic)))
  | try_reclaim n =>
    intro s e lies
    simp only [exec,onBuf,sat_bind,sat_zoom,sat_pure]
    exact (BytesMut.try_reclaim_shift lies).mono (fun _ _ shift => .fills rfl shift) (fun _ _ stays panic => .fills rfl (.stays (stays panic)))

theorem step_shape (lies : s.buf.Lies s.heap e) (step : Step A tokio_read poll_write op s t) : Shape A op s t := by
  have shape : Sat (exec A tokio_read poll_write op) s (fun _ t => Shape A op s t) (fun k t => k = .panic → Shape A op s t) :=
    shapes op s e lies
  rcases step with ⟨a,ran⟩ | ran
  · exact (sat_of_ok ran).mp shape
  · exact (sat_of_error ran).mp shape rfl

/-! ### Runs -/

/-- What a call owes to the state it begins in. -/
theorem Flows.here (flows : Flows A H₀ R v₀ s) : Flows A s.heap R v₀ s := ⟨flows.sound,flows.queue,flows.intact,fun _ _ => rfl,.refl A _⟩

theorem Flows.balance (flows : Flows A H₀ R v₀ s) : s.gone.length+s.buf.len = v₀.length+s.came.length := by
  obtain ⟨v,view,balance⟩ := flows.queue
  have lengths := congrArg List.length balance
  rwa [List.length_append,List.length_append,length_of_view view] at lengths

/-- The empty buffer stays where it was. -/
theorem Flows.dangling (flows : Flows A H₀ R v₀ s) (empty : H₀.mem.extent 0 = some dangling) : s.heap.mem.extent 0 = some dangling :=
  (flows.later.extent 0 _ empty).resolve_right fun gone => by cases gone.1

/-- The bytes that lie at another address after a call: all of the view, unless it begins
    where it did, behind what has gone from it. -/
def moved (s t : Relay T W) : Nat := s.buf.moved (s.buf.ptr.add (t.gone.length-s.gone.length)) t.buf

/-- Before and after a call the buffer lies in an allocation, which is the same one if it has
    the same identity. -/
theorem step_lies (fills : FillsWithin tokio_read) (lawful : Lawful poll_write) (flows : Flows A H₀ R v₀ s)
    (empty : H₀.mem.extent 0 = some dangling) (step : Step A tokio_read poll_write op s t) : ∃ e e', s.buf.Lies s.heap e ∧
      t.buf.Lies t.heap e' ∧ (t.buf.ptr.prov = s.buf.ptr.prov → e' = e) := by
  have next := step_flows fills lawful flows.here step
  have empty := flows.dangling empty
  obtain ⟨e,lies⟩ := BytesMut.lies flows.sound empty
  obtain ⟨e',lies'⟩ := BytesMut.lies next.sound (next.dangling empty)
  refine ⟨e,e',lies,lies',fun same => ?_⟩
  have extent := lies'.extent
  rw [same] at extent
  rcases next.later.extent _ _ lies.extent with kept | ⟨_,gone⟩
  · exact Option.some.inj (extent.symm.trans kept)
  · cases extent.symm.trans gone

/-- Every call is paid. -/
theorem step_pays (fills : FillsWithin tokio_read) (lawful : Lawful poll_write) (flows : Flows A H₀ R v₀ s)
    (empty : H₀.mem.extent 0 = some dangling) (step : Step A tokio_read poll_write op s t) :
    moved s t+t.buf.owed t.heap+(3*s.came.length+s.gone.length) ≤
      s.buf.owed s.heap+(3*t.came.length+t.gone.length)+op.asked := by
  obtain ⟨e,e',lies,lies',kept⟩ := step_lies fills lawful flows empty step
  have before := flows.balance
  have after := (step_flows fills lawful flows step).balance
  cases step_shape lies step with
  | fills gone shift =>
    have pays := shift.pays lies lies' kept
    have len := shift.len
    rw [gone] at after
    rw [moved,gone,Nat.sub_self,Ptr.add_zero]
    omega
  | @drains n came drained =>
    have len := drained.len
    rw [came] at after
    have taken : t.gone.length-s.gone.length = n := by omega
    have cost := drained.pays lies lies' kept
    rw [moved,taken,BytesMut.moved,if_pos drained.ptr,came]
    omega

/-- However the calls follow each other, and where some panic, the bytes that the buffer has
    moved are no more than what it may have owed at first, those asked for, those gone and
    three times those that came. -/
theorem moves_few {moves asked : Nat} (fills : FillsWithin tokio_read) (lawful : Lawful poll_write) (fresh : Fresh s)
    (sound : Tcio.Sound s.heap [] (.bytesMut s.buf :: R)) (empty : s.heap.mem.extent 0 = some dangling)
    (spent : Amortized.Spent (Step A tokio_read poll_write) moved Op.asked s moves asked t) :
    moves ≤ s.buf.owed s.heap+3*t.came.length+t.gone.length+asked := by
  obtain ⟨v,view⟩ := Option.ne_none_iff_exists'.mp (Tcio.Sound.placed sound (.bytesMut s.buf) List.mem_cons_self).viewed
  have pays (op : Op) (t u : Relay T W) (flows : Flows A s.heap R v t) (step : Step A tokio_read poll_write op t u) :
      Flows A s.heap R v u ∧ moved t u+u.buf.owed u.heap+(3*t.came.length+t.gone.length) ≤
        t.buf.owed t.heap+(3*u.came.length+u.gone.length)+op.asked :=
    ⟨step_flows fills lawful flows step,step_pays fills lawful flows empty step⟩
  have bound := (spent.bound pays (fresh.flows sound view)).2
  rw [fresh.came,fresh.gone] at bound
  simp only [List.length_nil] at bound
  omega

/-- A byte is written into a buffer that has no room for it. -/
theorem moves_few_between : ∃ w, World.JoinableRun (bump 0) (World.start []) w ∧ ∃ t moves,
    Amortized.Spent (Step (bump 0) trickle slow) moved Op.asked (between w.heap) moves 0 t ∧
      moves ≤ (between w.heap).buf.owed w.heap+3*t.came.length+t.gone.length+0 := by
  obtain ⟨w,run,held,view⟩ := between_held
  have empty := World.run_dangling (World.start_initial []) run
  have flows := between_fresh.flows (A := bump 0) held view
  obtain ⟨t,step⟩ := flows.goes (.write ⟨[6],by decide⟩) trickle_within slow_lawful (fun n bad => by cases bad) (fun i bad => by cases bad)
  have spent : Amortized.Spent (Step (bump 0) trickle slow) moved Op.asked (between w.heap) _ _ t := .call .start step
  exact ⟨w,run,t,_,spent,moves_few trickle_within slow_lawful between_fresh held empty spent⟩

/-! ### Room -/

/-- Calls that at no time need more than `peak` bytes for the view and twice what they ask for. -/
def Within (A : Allocator) (tokio_read : TokioRead T) (poll_write : PollWrite W) (peak : Nat) : Relay T W → Relay T W → Prop :=
  Relation.ReflTransGen fun s t => ∃ op, s.buf.len+2*op.room ≤ peak ∧ Step A tokio_read poll_write op s t

/-- The allocation grows no larger than twice what was needed, with what the allocator gives
    beyond what it is asked for. -/
theorem step_small {peak slack : Nat} (fills : FillsWithin tokio_read) (lawful : Lawful poll_write) (flows : Flows A H₀ R v₀ s)
    (empty : H₀.mem.extent 0 = some dangling) (grants : ∀ K k, k ≤ isizeMax → (A.buffer K k).2 ≤ k+slack)
    (need : s.buf.len+2*op.room ≤ peak) (step : Step A tokio_read poll_write op s t) :
    t.buf.size t.heap ≤ max (s.buf.size s.heap) (2*peak+slack) := by
  obtain ⟨e,e',lies,lies',kept⟩ := step_lies fills lawful flows empty step
  cases step_shape lies step with
  | fills _ shift =>
    have size := shift.size grants lies lies' kept
    omega
  | drains _ drained =>
    rw [lies.size_eq,lies'.size_eq,kept (by rw [drained.ptr]; rfl)]
    exact Nat.le_max_left ..

/-- A relay that never needs more than `peak` bytes at once never has a larger allocation than
    at first, or than twice as much. -/
theorem stays_small {peak slack : Nat} (fills : FillsWithin tokio_read) (lawful : Lawful poll_write) (fresh : Fresh s)
    (sound : Tcio.Sound s.heap [] (.bytesMut s.buf :: R)) (empty : s.heap.mem.extent 0 = some dangling)
    (grants : ∀ K k, k ≤ isizeMax → (A.buffer K k).2 ≤ k+slack) (run : Within A tokio_read poll_write peak s t) :
    t.buf.size t.heap ≤ max (s.buf.size s.heap) (2*peak+slack) := by
  obtain ⟨v,view⟩ := Option.ne_none_iff_exists'.mp (Tcio.Sound.placed sound (.bytesMut s.buf) List.mem_cons_self).viewed
  have both : Flows A s.heap R v t ∧ t.buf.size t.heap ≤ max (s.buf.size s.heap) (2*peak+slack) := by
    induction run with
    | refl => exact ⟨fresh.flows sound view,Nat.le_max_left ..⟩
    | tail _ step before =>
      obtain ⟨op,need,step⟩ := step
      obtain ⟨flows,small⟩ := before
      refine ⟨step_flows fills lawful flows step,?_⟩
      have next := step_small fills lawful flows empty grants need step
      omega
  exact both.2

/-- A byte is written behind two. -/
theorem stays_small_between : ∃ w, World.JoinableRun (bump 0) (World.start []) w ∧ ∃ t,
    Within (bump 0) trickle slow 4 (between w.heap) t ∧ t.buf.size t.heap ≤ max ((between w.heap).buf.size w.heap) (2*4+0) := by
  obtain ⟨w,run,held,view⟩ := between_held
  have empty := World.run_dangling (World.start_initial []) run
  have flows := between_fresh.flows (A := bump 0) held view
  obtain ⟨t,step⟩ := flows.goes (.write ⟨[6],by decide⟩) trickle_within slow_lawful (fun n bad => by cases bad) (fun i bad => by cases bad)
  have within : Within (bump 0) trickle slow 4 (between w.heap) t := .single ⟨.write ⟨[6],by decide⟩,Nat.le_refl 4,step⟩
  exact ⟨w,run,t,within,stays_small trickle_within slow_lawful between_fresh held empty (fun _ _ _ => Nat.le_refl _) within⟩

end Relay
end Tcio
