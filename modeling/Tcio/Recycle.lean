import Tcio.Counts
import Tcio.RelayCost

/-!
A buffer that makes its room out of its own allocation. Where a handle is alone on it, and
has left as many bytes in front of its view as the view has, these are taken back, so that a
relay that drops its frames in time allocates no buffer however long it runs, and only one
node for all the frames it hands out.
-/
namespace Tcio
open Exec Ledger Shared AsyncRead AsyncWrite BufMut

variable {A : Allocator} {H H' : Heap} {R : List Handle} {m r : BytesMut} {e : Extent} {n k : Nat} {p q data : Ptr} {v : List UInt8}

/-! ### Programs that allocate nothing -/

/-- A program on the heap that allocates nothing, whether it returns or panics. -/
abbrev Frugal {α : Type} (x : Exec Heap α) : Prop := ∀ K : Heap, Keeps K.Quiet x

theorem write_frugal : Frugal (Heap.write p v) := fun _ _ quiet =>
  write_quiet.mono (fun _ _ more => quiet.trans more) (fun _ _ fault => BytesMut.no_panic fault)
theorem vec_drop_frugal {vec : Vec} : Frugal vec.drop := by
  intro K H quiet
  simp only [Vec.drop,sat_bind,sat_ite,sat_pure,sat_get,sat_check,sat_set]
  exact ⟨fun _ => quiet,fun _ => ⟨fun _ => quiet,fun _ bad => by cases bad⟩⟩
theorem recount_frugal {f : Nat → Nat} : Frugal (recount data f) := fun _ _ quiet => quiet
theorem increment_frugal : Frugal (increment data) := fun K =>
  .bind (.bind (deref_still _) fun _ => .bind (recount_frugal K) fun _ => .pure) fun _ => .ite .stop .pure
theorem release_frugal : Frugal (release data) := fun K =>
  .bind (.bind (deref_still _) fun _ => .bind (recount_frugal K) fun _ => .pure) fun _ => .ite .pure
    (.bind (deref_still _) fun _ => .bind (from_raw_parts_still _) fun _ => .bind (vec_drop_frugal K) fun _ => .modify fun _ => id)

theorem Bytes.drop_frugal {b : Bytes} : Frugal b.drop := by
  refine fun K => .ite .pure (.bind (as_unpromoted_still _) fun word => ?_)
  rcases word with node | offset
  · exact release_frugal K
  · exact .bind (from_raw_parts_still _) fun _ => vec_drop_frugal K

/-- The handle of a node is frozen as it is. -/
theorem BytesMut.freeze_frugal (even : m.data.addr % 2 = 0) : Frugal (m.freeze A) := by
  intro K H quiet
  simp only [BytesMut.freeze,as_unpromoted,sat_bind,sat_ite,sat_pure,is_unpromoted_iff]
  exact ⟨fun odd => by omega,fun _ => (deref_still K.Quiet H quiet).mono (fun _ _ => id) (fun _ _ => id)⟩

namespace BytesMut

/-! ### In its allocation -/

/-- The node that the handle may still turn its buffer over to. -/
def due (m : BytesMut) : Nat := m.data.addr % 2

/-- No buffer is allocated and no node but the one that was due; the handle is in its
    allocation. -/
structure Calm (p q : Heap × BytesMut) : Prop where
  buffers : q.1.mem.bound = p.1.mem.bound
  nodes : q.1.nodes.bound+q.2.due ≤ p.1.nodes.bound+p.2.due
  prov : q.2.ptr.prov = p.2.ptr.prov

variable {s t u : Heap × BytesMut}

theorem Calm.refl (s : Heap × BytesMut) : Calm s s := ⟨rfl,Nat.le_refl _,rfl⟩
theorem Calm.trans (one : Calm s t) (two : Calm t u) : Calm s u :=
  ⟨two.buffers.trans one.buffers,Nat.le_trans two.nodes one.nodes,two.prov.trans one.prov⟩
theorem Calm.of_quiet (quiet : H.Quiet H') (due : r.due ≤ m.due) (prov : r.ptr.prov = m.ptr.prov) : Calm (H,m) (H',r) where
  buffers := quiet.1
  nodes := by
    have := quiet.2
    simp only
    omega
  prov := prov

theorem due_odd (odd : m.data.addr % 2 = 1) : r.due ≤ m.due := by
  rw [due,due,odd]
  omega

theorem Frugal.calm {α : Type} {x : Exec Heap α} (frugal : Frugal x) (calm : Calm s (H,m)) :
    Sat x H (fun _ H' => Calm s (H',m)) (fun k H' => k = .panic → Calm s (H',m)) :=
  (frugal H H (.refl H)).mono (fun _ _ quiet => calm.trans (.of_quiet quiet (Nat.le_refl _) rfl))
    (fun _ _ quiet panic => calm.trans (.of_quiet (quiet panic) (Nat.le_refl _) rfl))

/-- An offset is read of an odd word. -/
theorem as_unpromoted_parity : Sat (as_unpromoted data) H (fun word t => t = H ∧ ((data.addr % 2 = 1 ∧ ∃ offset, word = .ok offset) ∨
    (data.addr % 2 = 0 ∧ word = .error data))) (fun k _ => k = .fault) := by
  simp only [as_unpromoted,sat_bind,sat_ite,sat_pure,is_unpromoted_iff]
  refine ⟨fun odd => ⟨trivial,.inl ⟨odd,_,rfl⟩⟩,fun other => sat_deref.mono ?_ (fun _ _ => id)⟩
  rintro _ _ ⟨rfl,_⟩
  exact ⟨rfl,.inr ⟨by omega,trivial⟩⟩

theorem advance_unchecked_calm : Sat (advance_unchecked n) (H,m) (fun _ q => Calm (H,m) q) (fun k q => k = .panic → q = (H,m)) := by
  simp only [advance_unchecked,sat_ite,sat_pure,sat_bind,Method.sat_self,sat_onFst]
  refine ⟨fun _ => .refl _,fun _ => as_unpromoted_parity.mono ?_ (fun _ _ fault => no_panic fault)⟩
  rintro word H ⟨rfl,⟨odd,offset,rfl⟩ | ⟨_,rfl⟩⟩
  · simp only [mask_payload,sat_bind,sat_check,sat_pure,sat_usize_sub,Method.sat_put]
    exact ⟨fun _ => ⟨fun _ => ⟨fun _ => .of_quiet (.refl H) (due_odd odd) rfl,fun _ bad => by cases bad⟩,fun _ _ => trivial⟩,fun _ _ => trivial⟩
  · simp only [sat_bind,sat_pure,sat_usize_sub,Method.sat_put]
    exact ⟨fun _ => .of_quiet (.refl H) (Nat.le_refl _) rfl,fun _ bad => by cases bad⟩

theorem advance_calm : Sat (advance n) (H,m) (fun _ q => Calm (H,m) q) (fun k q => k = .panic → q = (H,m)) := by
  simp only [advance,sat_bind,Method.sat_self,sat_check]
  exact ⟨fun _ => advance_unchecked_calm,fun _ _ => trivial⟩

/-- A handle is made of a node, which is new where the buffer was held alone. -/
theorem shallow_clone_calm : Sat (shallow_clone A) (H,m) (fun c q => Calm (H,m) q ∧ c.data.addr % 2 = 0)
    (fun k q => k = .panic → Calm (H,m) q) := by
  simp only [shallow_clone,sat_bind,Method.sat_self,sat_onFst]
  refine as_unpromoted_parity.mono ?_ (fun _ _ fault => no_panic fault)
  rintro word H ⟨rfl,⟨odd,offset,rfl⟩ | ⟨even,rfl⟩⟩
  · simp only [original_buffer,Vec.from_raw_parts,promote_with_vec,sat_bind,sat_onFst,sat_get,sat_check,sat_pure,sat_set,
      Method.sat_put,Method.sat_self]
    refine ⟨fun _ => ⟨⟨rfl,?_,rfl⟩,?_⟩,fun _ bad => by cases bad⟩
    · have := (A.aligned H).2
      simp only [due,Arena.insert_bound]
      omega
    · have := (A.aligned H).2
      omega
  · simp only [sat_bind,sat_onFst,Method.sat_self]
    exact (Frugal.calm increment_frugal (.refl (H,m))).mono (fun _ _ calm => ⟨calm,even⟩) (fun _ _ => id)

theorem split_to_calm : Sat (split_to A n) (H,m) (fun front q => Calm (H,m) q ∧ front.data.addr % 2 = 0)
    (fun k q => k = .panic → Calm (H,m) q) := by
  simp only [split_to,try_split_to,sat_bind,Method.sat_self,sat_ite,sat_pure,sat_ofOption]
  refine ⟨fun _ => ⟨fun _ bad => (by cases bad),fun _ _ => .refl _⟩,fun _ => ?_⟩
  refine shallow_clone_calm.mono ?_ (fun _ _ => id)
  rintro front q ⟨calm,even⟩
  refine advance_unchecked_calm.mono (fun _ _ more => ⟨fun front' same => ?_,fun bad => by cases bad⟩) (fun _ _ same panic => ?_)
  · cases same
    exact ⟨calm.trans more,even⟩
  · rw [same panic]
    exact calm

/-! ### Room -/

/-- Room for `n` bytes is behind the view, or can be had of the allocation. -/
def Roomy (H : Heap) (m : BytesMut) (n : Nat) : Prop :=
  n ≤ m.cap-m.len ∨ m.unique H = true ∧ m.len ≤ m.head H ∧ m.len+n ≤ m.size H

theorem Roomy.mono (less : k ≤ n) (room : Roomy H m n) : Roomy H m k := by
  rcases room with behind | ⟨alone,far,all⟩
  · exact .inl (by omega)
  · exact .inr ⟨alone,far,by omega⟩

/-- Only one that is alone, and has the room, is not short of it. -/
theorem Lies.not_short (lies : m.Lies H e) (alone : m.unique H = true) (far : m.len ≤ m.head H) (all : m.len+n ≤ m.size H) :
    ¬ Reclaim H m n false r := by
  have size := lies.size
  rw [lies.size_eq] at all
  have fits := lies.fits
  intro short
  cases short with
  | shared other => simp [alone] at other
  | kept _ less short => omega

theorem reclaim_promoted_word : Sat (reclaim_promoted data n) (H,m) (fun _ q => q.2.data = m.data) (fun _ _ => True) := by
  simp only [reclaim_promoted,sat_bind,Method.sat_self,sat_onFst]
  refine sat_any.mono (fun node H₁ _ => ?_) (fun _ _ _ => trivial)
  simp only [sat_check,sat_usize_sub,sat_ite,Method.sat_put,sat_pure,sat_bind,sat_onFst]
  refine ⟨fun _ => ⟨fun _ => ⟨fun _ => ⟨fun _ => trivial,fun _ => ⟨fun _ => ⟨fun _ => ?_,fun _ => trivial⟩,fun _ => trivial⟩⟩,
    fun _ => trivial⟩,fun _ => trivial⟩,fun _ => trivial⟩
  exact sat_any.mono (fun _ _ _ => trivial) (fun _ _ _ => trivial)

/-- Nothing is allocated where nothing may be, or need be. -/
theorem reserve_inner_calm {allocate : Bool} (lies : m.Lies H e) (less : m.cap-m.len < n)
    (room : allocate = true → m.unique H = true ∧ m.len ≤ m.head H ∧ m.len+n ≤ m.size H) :
    Sat (reserve_inner A n allocate) (H,m) (fun _ q => Calm (H,m) q) (fun k q => k = .panic → Calm (H,m) q) := by
  have some' : n ≠ 0 := by omega
  -- nothing is left to do where nothing, or not enough, could be reclaimed
  have short {y : Method BytesMut Bool} {q : Heap × BytesMut} (kept : Reclaim H m n false q.2) (calm : Calm (H,m) q) :
      Sat (if (!allocate) = true then pure false else y) q (fun _ q => Calm (H,m) q) (fun k q => k = .panic → Calm (H,m) q) := by
    cases allocate with
    | false => exact calm
    | true =>
      obtain ⟨alone,far,all⟩ := room rfl
      exact absurd kept (lies.not_short alone far all)
  simp only [reserve_inner,some',sat_ite,sat_bind,Method.sat_self,sat_check,sat_onFst,false_implies,not_false_eq_true,
    forall_const,true_and]
  refine ⟨fun _ => ?_,fun _ => .refl _⟩
  cases word : hold m.data with
  | null => exact absurd word lies.word
  | unpromoted offset =>
    rw [sat_of_ok (show as_unpromoted_mut m.data H = _ from as_unpromoted_offset word)]
    have fits := lies.fits
    have none := lies.tail_unpromoted word
    have alone := unique_unpromoted (H := H) word
    obtain ⟨same,_⟩ := lies.unpromoted offset word
    rw [← lies.head] at same
    subst same
    have odd : m.data.addr % 2 = 1 := by
      rw [hold_unpromoted.mp word]
      omega
    simp only [reserve_unpromoted,sat_bind,Method.sat_self,sat_usize_sub,fits,forall_const,not_true_eq_false,
      false_implies,and_true]
    rw [sat_ite]
    refine ⟨fun _ => ?_,fun back => ?_⟩
    · simp only [sat_bind,sat_onFst]
      refine copy_quiet.mono (fun _ H' quiet => ?_) (fun _ _ fault => no_panic fault)
      rw [sat_of_ok (mask_payload_ok word (by decide))]
      exact .of_quiet quiet (due_odd odd) rfl
    · have kept : Reclaim H m n false m := .kept alone (by omega) (by omega) rfl rfl (by omega)
      exact short kept (.refl _)
  | promoted =>
    obtain ⟨boxed,live,addr,_⟩ := lies.promoted word
    rw [sat_of_ok (show as_unpromoted_mut m.data H = _ from as_unpromoted_node word live addr)]
    simp only [sat_bind,sat_onFst]
    rw [sat_of_ok (is_unique_ok live addr)]
    have alone := unique_promoted word live
    by_cases one : boxed.shared.ref_count = 1
    · simp only [one,beq_self_eq_true,↓reduceIte,sat_bind]
      refine ((reclaim_promoted_gains lies word (by simp [alone,one])).and reclaim_promoted_word).mono ?_ (fun _ _ stops => no_panic stops.1)
      rintro ok ⟨H₁,r⟩ ⟨⟨quiet,reclaim⟩,same⟩
      have calm : Calm (H,m) (H₁,r) := .of_quiet quiet (Nat.le_of_eq (by rw [due,same,due])) reclaim.prov
      cases ok with
      | true => exact calm
      | false => exact short reclaim calm
    · have more : (boxed.shared.ref_count == 1) = false := by simpa using one
      simp only [more]
      exact short (.shared (by simp [alone,more])) (.refl _)

theorem reserve_calm (lies : m.Lies H e) (room : Roomy H m n) : Sat (reserve A n) (H,m) (fun _ q => Calm (H,m) q)
    (fun k q => k = .panic → Calm (H,m) q) := by
  have fits := lies.fits
  simp only [reserve,sat_bind,Method.sat_self,sat_usize_sub,fits,forall_const,not_true_eq_false,false_implies,and_true,
    sat_ite,sat_pure]
  refine ⟨fun _ => .refl _,fun less => ?_⟩
  exact reserve_inner_calm lies (by omega) fun _ => room.resolve_left (by omega)

theorem try_reclaim_calm (lies : m.Lies H e) : Sat (try_reclaim A n) (H,m) (fun _ q => Calm (H,m) q)
    (fun k q => k = .panic → Calm (H,m) q) := by
  have fits := lies.fits
  simp only [try_reclaim,sat_bind,Method.sat_self,sat_usize_sub,fits,forall_const,not_true_eq_false,false_implies,and_true,
    sat_ite,sat_pure]
  exact ⟨fun _ => .refl _,fun less => reserve_inner_calm lies (by omega) fun bad => by cases bad⟩

theorem spare_capacity_frugal : Frugal (m.spare_capacity_mut v) := fun _ =>
  .bind (.bind .check fun _ => .pure) fun _ => .bind .check fun _ => write_frugal _

theorem extend_from_slice_calm (lies : m.Lies H e) (room : Roomy H m v.length) : Sat (extend_from_slice A v) (H,m)
    (fun _ q => Calm (H,m) q) (fun k q => k = .panic → Calm (H,m) q) := by
  simp only [extend_from_slice,sat_bind]
  refine (reserve_calm lies room).mono (fun _ q calm => ?_) (fun _ _ => id)
  simp only [Method.sat_self,sat_onFst,Method.sat_put]
  refine (spare_capacity_frugal q.1 q.1 (.refl _)).mono (fun _ H₁ quiet => ?_) (fun _ H₁ quiet panic => ?_)
  · exact calm.trans (.of_quiet quiet (Nat.le_refl _) rfl)
  · exact calm.trans (.of_quiet (quiet panic) (Nat.le_refl _) rfl)

/-- Where all other handles are on other buffers, none is on that of the handle. -/
theorem unique_of_apart (sound : Tcio.Sound H [] (.bytesMut m :: R)) (apart : ∀ r ∈ R, r.ptr.prov ≠ m.ptr.prov) : m.unique H = true := by
  have placed := (sound_cons.mp sound).2.1
  rcases placed.bytesMut with ⟨offset,word,_⟩ | ⟨word,boxed,live,addr,prov,_⟩
  · exact unique_unpromoted word
  · rw [unique_promoted word live,beq_iff_eq,← (sound.ledger.counted _ _ _ (entry_of_get live)).1]
    have mine : (Handle.bytesMut m).claim = .share m.data.prov := claim_promoted word
    rw [List.nil_append,List.map_cons,mine,List.count_cons_self,List.count_eq_zero.mpr]
    intro mem
    obtain ⟨r,mem,claim⟩ := List.mem_map.mp mem
    have placed := sound.placed r (List.mem_cons_of_mem _ mem)
    cases other : hold r.data with
    | null => simp [claim_null other] at claim
    | unpromoted offset =>
      rw [Tcio.claim_unpromoted other] at claim
      unfold Claim.ofBlock at claim
      split at claim <;> cases claim
    | promoted =>
      -- the node is that of the handle, and so is its buffer
      obtain ⟨boxed',live',_,inside⟩ := placed.of_promoted other
      have same : r.data.prov = m.data.prov := by simpa [claim_promoted other] using claim
      rw [same,live] at live'
      cases live'
      exact apart r mem (inside.1.trans prov.symm)

/-! ### As a buffer -/

theorem chunk_mut_calm (lies : m.Lies H e) (room : m.cap = m.len → Roomy H m 64) : Sat ((BufMut.bytesMut m).chunk_mut A) (H,.bytesMut m)
    (fun _ q => ∃ r, q.2 = .bytesMut r ∧ Calm (H,m) (q.1,r)) (fun k q => k = .panic → ∃ r, q.2 = .bytesMut r ∧ Calm (H,m) (q.1,r)) := by
  simp only [chunk_mut,Method.sat_within,sat_bind,sat_ite,Method.sat_self,sat_usize_sub]
  refine ⟨fun full => ?_,fun _ => ⟨fun _ => ⟨m,rfl,.refl _⟩,fun _ fault => no_panic rfl fault⟩⟩
  refine (reserve_calm lies (room full)).mono (fun _ q calm => ⟨fun _ => ⟨q.2,rfl,calm⟩,fun _ fault => no_panic rfl fault⟩) ?_
  exact fun _ q calm panic => ⟨q.2,rfl,calm panic⟩

/-- The cursor is a `BytesMut` that stays in its allocation. -/
def Calms (s : Heap × BytesMut) (q : Heap × Buf) : Prop := ∃ r, q.2 = .bytesMut r ∧ Calm s (q.1,r)

theorem calms_lasting {s : Heap × BytesMut} : Relay.Lasting (Calms s) := by
  have reads {α : Type} (x : Buf → Exec Heap α) (still : ∀ inv r, Keeps inv (x (.bytesMut r))) :
      Keeps (Calms s) (do onFst (x (← Method.self))) := by
    rintro ⟨H,_⟩ ⟨r,rfl,calm⟩
    simp only [sat_bind,Method.sat_self,sat_onFst]
    exact (still (fun H => Calm s (H,r)) r H calm).mono (fun _ _ calm => ⟨r,rfl,calm⟩) (fun _ _ calm panic => ⟨r,rfl,calm panic⟩)
  refine ⟨reads Buf.chunk fun inv r => read_still inv,reads (Buf.chunks_vectored · 64) fun inv r => ?_,?_⟩
  · exact .ite (.bind (read_still inv) fun _ => .pure) .pure
  · rintro cnt ⟨H,_⟩ ⟨r,rfl,calm⟩
    simp only [Method.sat_replace,Buf.advance,sat_bind,sat_lend,sat_pure]
    refine advance_calm.mono (fun _ q more => ⟨q.2,rfl,calm.trans more⟩) (fun _ q same panic => ⟨r,rfl,?_⟩)
    rw [same panic]
    exact calm

end BytesMut

namespace Relay
variable {T W : Type} {tokio_read : TokioRead T} {poll_write : PollWrite W} {s t : Relay T W} {op : Op}

/-- The room that a call reserves. -/
def Op.reserves (m : BytesMut) : Op → Nat
  | .poll_read => if m.cap = m.len then 64 else 0
  | op => op.room

/-- A call leaves the buffer in its allocation, whether it returns or panics. -/
def Settled (A : Allocator) (tokio_read : TokioRead T) (poll_write : PollWrite W) (op : Op) : Prop :=
  ∀ s e, s.buf.Lies s.heap e → s.buf.Roomy s.heap (op.reserves s.buf) → Sat (exec A tokio_read poll_write op) s
    (fun _ t => BytesMut.Calm (s.heap,s.buf) (t.heap,t.buf)) (fun k t => k = .panic → BytesMut.Calm (s.heap,s.buf) (t.heap,t.buf))

theorem poll_read_settled : Settled A tokio_read poll_write .poll_read := by
  intro s e lies room
  have chunk : s.buf.cap = s.buf.len → s.buf.Roomy s.heap 64 := by
    intro full
    rwa [Op.reserves,if_pos full] at room
  simp only [exec,reading,sat_bind,sat_zoom,sat_pure,stream_poll_read,noted,sat_onFst,sat_onSnd,Method.sat_self,sat_modify]
  refine (BytesMut.chunk_mut_calm lies chunk).mono ?_ ?_
  · rintro room ⟨H₁,_⟩ ⟨r,rfl,calm⟩
    refine sat_any.mono ?_ (fun _ _ _ _ => calm)
    rintro ((err | filled) | _) t' _
    · exact calm
    · simp only [sat_bind,sat_onFst,Method.sat_replace,write_chunk,sat_pure,advance_mut,sat_lend,BytesMut.set_len,Method.sat_self,Method.sat_put]
      refine (BytesMut.Frugal.calm BytesMut.spare_capacity_frugal calm).mono (fun _ _ calm => ?_) (fun _ _ => id)
      exact calm.trans (.of_quiet (.refl _) (Nat.le_refl _) rfl)
    · exact calm
  · rintro k ⟨H₁,_⟩ stops panic
    obtain ⟨r,rfl,calm⟩ := stops panic
    exact calm

theorem poll_read_slice_settled {slice : Slice} : Settled A tokio_read poll_write (.poll_read_slice slice) := by
  intro s e lies room
  simp only [exec,reading_slice,sat_bind,sat_zoom,sat_pure,slice_poll_read,sat_onSnd,sat_get,sat_onFst,Method.sat_self,sat_set,
    put_slice,Method.sat_within]
  have part : (slice.bytes.take (min slice.len (BufMut.bytesMut s.buf).remaining_mut)).length ≤ slice.len := List.length_take_le' ..
  exact BytesMut.extend_from_slice_calm lies (room.mono part)

theorem write_settled {slice : Slice} : Settled A tokio_read poll_write (.write slice) := by
  intro s e lies room
  simp only [exec,onBuf,sat_bind,sat_zoom,sat_pure,BytesMut.write,sat_modify]
  exact BytesMut.extend_from_slice_calm lies room

theorem read_settled {buf : List UInt8} : Settled A tokio_read poll_write (.read buf) := by
  intro s e lies _
  simp only [exec,onBuf,sat_bind,sat_zoom,sat_pure,BytesMut.read,Method.sat_self,sat_onFst,sat_modify]
  refine (read_still (· = s.heap) s.heap rfl).mono ?_ ?_
  · rintro bytes H₁ rfl
    exact BytesMut.advance_calm.mono (fun _ _ => id) (fun _ q same panic => same panic ▸ .refl _)
  · rintro k H₁ same panic
    rw [same panic]
    exact .refl _

/-- A writer that takes from the buffer leaves it there. -/
theorem writing_settled {α : Type} {x : Exec ((Heap × Buf) × W × List AsyncWrite.Call) α}
    (calms : Exec.Keeps (fun p : (Heap × Buf) × W × List AsyncWrite.Call => BytesMut.Calms (s.heap,s.buf) p.1) x) :
    Sat (writing x) s (fun _ t => BytesMut.Calm (s.heap,s.buf) (t.heap,t.buf)) (fun k t => k = .panic → BytesMut.Calm (s.heap,s.buf) (t.heap,t.buf)) := by
  simp only [writing,sat_zoom]
  refine (calms _ ⟨s.buf,rfl,.refl _⟩).mono ?_ ?_
  · rintro _ ⟨⟨H',_⟩,_⟩ ⟨r,rfl,calm⟩
    exact calm
  · rintro _ ⟨⟨H',_⟩,_⟩ still panic
    obtain ⟨r,rfl,calm⟩ := still panic
    exact calm

theorem frame_settled : Settled A tokio_read poll_write (.frame n) := by
  intro s e lies _
  simp only [exec,onBuf,onHeap,sat_bind,sat_zoom,sat_modify]
  refine BytesMut.split_to_calm.mono ?_ (fun _ _ => id)
  rintro front q ⟨calm,even⟩
  refine (BytesMut.Frugal.calm (BytesMut.freeze_frugal even) calm).mono (fun frame H₁ calm => ?_) (fun _ _ => id)
  exact (BytesMut.Frugal.calm (fun _ => read_still _) calm).mono (fun _ _ => id) (fun _ _ => id)

theorem release_settled {i : Nat} : Settled A tokio_read poll_write (.release i) := by
  intro s e lies _
  simp only [exec,onHeap,sat_bind,sat_get,sat_ofOption,sat_modify,sat_zoom]
  exact ⟨fun _ _ => BytesMut.Frugal.calm Bytes.drop_frugal (.refl _),fun _ bad => by cases bad⟩

theorem settled (op : Op) : Settled A tokio_read poll_write op := by
  cases op with
  | poll_read => exact poll_read_settled
  | poll_read_slice s => exact poll_read_slice_settled
  | write s => exact write_settled
  | read buf => exact read_settled
  | poll_write_buf =>
    intro s e _ _
    simp only [exec,sat_bind,sat_pure]
    exact writing_settled BytesMut.calms_lasting.write_buf
  | poll_write_buf_vectored =>
    intro s e _ _
    simp only [exec,sat_bind,sat_pure]
    exact writing_settled BytesMut.calms_lasting.write_buf_vectored
  | poll_write_all_buf =>
    intro s e _ _
    simp only [exec,sat_bind,sat_pure,sat_get]
    exact writing_settled BytesMut.calms_lasting.write_all_buf
  | frame n => exact frame_settled
  | release i => exact release_settled
  | reserve n =>
    intro s e lies room
    simp only [exec,onBuf,sat_zoom]
    exact BytesMut.reserve_calm lies room
  | try_reclaim n =>
    intro s e lies _
    simp only [exec,onBuf,sat_bind,sat_zoom,sat_pure]
    exact BytesMut.try_reclaim_calm lies

/-! ### Runs -/

/-- The room is behind the view, or no frame is held, as many bytes are in front of the view as
    it has, and it has enough room in the allocation. -/
def Finds (s : Relay T W) (n : Nat) : Prop :=
  n ≤ s.buf.cap-s.buf.len ∨ s.frames = [] ∧ s.buf.len ≤ s.buf.head s.heap ∧ s.buf.len+n ≤ s.buf.size s.heap
/-- Calls in any order that find the room which they reserve. -/
def Recycling (A : Allocator) (tokio_read : TokioRead T) (poll_write : PollWrite W) : Relay T W → Relay T W → Prop :=
  Relation.ReflTransGen fun s t => ∃ op, s.Finds (op.reserves s.buf) ∧ Step A tokio_read poll_write op s t

variable {H₀ : Heap} {v₀ : List UInt8}

theorem step_calm (flows : Flows A H₀ R v₀ s) (empty : H₀.mem.extent 0 = some dangling) (apart : ∀ r ∈ R, r.ptr.prov ≠ s.buf.ptr.prov)
    (finds : s.Finds (op.reserves s.buf)) (step : Step A tokio_read poll_write op s t) : BytesMut.Calm (s.heap,s.buf) (t.heap,t.buf) := by
  obtain ⟨e,lies⟩ := BytesMut.lies flows.sound (flows.dangling empty)
  have room : s.buf.Roomy s.heap (op.reserves s.buf) := by
    rcases finds with behind | ⟨none,far,all⟩
    · exact .inl behind
    · have sound := flows.sound
      rw [held,none] at sound
      exact .inr ⟨BytesMut.unique_of_apart sound apart,far,all⟩
  have calm : Sat (exec A tokio_read poll_write op) s (fun _ t => BytesMut.Calm (s.heap,s.buf) (t.heap,t.buf))
      (fun k t => k = .panic → BytesMut.Calm (s.heap,s.buf) (t.heap,t.buf)) := settled op s e lies room
  rcases step with ⟨a,ran⟩ | ran
  · exact (sat_of_ok ran).mp calm
  · exact (sat_of_error ran).mp calm rfl

/-- A relay whose calls find the room that they reserve runs on in the allocation in which it
    began, however long: no other buffer is allocated, and one node at most. -/
theorem recycles (fills : FillsWithin tokio_read) (lawful : Lawful poll_write) (fresh : Fresh s)
    (sound : Tcio.Sound s.heap [] (.bytesMut s.buf :: R)) (empty : s.heap.mem.extent 0 = some dangling)
    (apart : ∀ r ∈ R, r.ptr.prov ≠ s.buf.ptr.prov) (run : Recycling A tokio_read poll_write s t) :
    t.buf.ptr.prov = s.buf.ptr.prov ∧ t.buf.size t.heap = s.buf.size s.heap ∧
      t.heap.mem.bound = s.heap.mem.bound ∧ t.heap.nodes.bound ≤ s.heap.nodes.bound+1 := by
  obtain ⟨v,view⟩ := Option.ne_none_iff_exists'.mp (Tcio.Sound.placed sound (.bytesMut s.buf) List.mem_cons_self).viewed
  have both : Flows A s.heap R v t ∧ BytesMut.Calm (s.heap,s.buf) (t.heap,t.buf) := by
    induction run with
    | refl => exact ⟨fresh.flows sound view,.refl _⟩
    | tail _ step before =>
      obtain ⟨op,finds,step⟩ := step
      obtain ⟨flows,calm⟩ := before
      have still := step_calm flows empty (fun r mem => calm.prov ▸ apart r mem) finds step
      exact ⟨step_flows fills lawful flows step,calm.trans still⟩
  obtain ⟨flows,calm⟩ := both
  obtain ⟨e,lies⟩ := BytesMut.lies sound empty
  obtain ⟨e',lies'⟩ := BytesMut.lies flows.sound (flows.dangling empty)
  refine ⟨calm.prov,?_,calm.buffers,?_⟩
  · have extent := lies'.extent
    rw [show t.buf.ptr.prov = s.buf.ptr.prov from calm.prov] at extent
    rw [lies.size_eq,lies'.size_eq]
    rcases flows.later.extent _ _ lies.extent with kept | ⟨_,gone⟩
    · rw [Option.some.inj (extent.symm.trans kept)]
    · cases extent.symm.trans gone
  · have nodes := calm.nodes
    have due : s.buf.due ≤ 1 := Nat.le_of_lt_succ (Nat.mod_lt _ (by decide))
    simp only at nodes
    omega

/-- The relay once its buffer was read empty. -/
def emptied (H : Heap) : Relay (Bool × List UInt8) Bool := { between H with buf := (between H).buf.advanced 2,gone := [4,5] }

theorem between_read (placed : Placed H (.bytesMut (between H).buf)) (view : (Handle.bytesMut (between H).buf).view H = some [4,5]) :
    exec (bump 0) trickle slow (.read [0,0]) (between H) = (.ok (),emptied H) := by
  refine run_eq ?_
  simp only [exec,onBuf,sat_bind,sat_zoom,sat_pure,BytesMut.read,Method.sat_self,sat_onFst,sat_modify]
  rw [sat_of_ok (show (between H).buf.as_slice (between H).heap = (.ok [4,5],H) from read_ok view)]
  simp only [BytesMut.advance,sat_bind,Method.sat_self,sat_check]
  refine ⟨fun _ => ?_,fun bad => absurd (Nat.min_le_right ..) bad⟩
  exact (sat_of_ok (BytesMut.advance_unchecked_ok placed (Nat.le_refl 2))).mpr ⟨trivial,rfl⟩

/-- The buffer is read empty, and written into at the start of its allocation. -/
theorem recycles_between : ∃ w, World.JoinableRun (bump 0) (World.start []) w ∧
    ∃ t, Step (bump 0) trickle slow (.write ⟨[6,7],by decide⟩) (emptied w.heap) t ∧
      t.buf.ptr.prov = 3 ∧ t.buf.size t.heap = (between w.heap).buf.size w.heap ∧
      t.heap.mem.bound = w.heap.mem.bound ∧ t.heap.nodes.bound ≤ w.heap.nodes.bound+1 := by
  obtain ⟨w,run,held,view⟩ := between_held
  have empty := World.run_dangling (World.start_initial []) run
  have flows := between_fresh.flows (A := bump 0) held view
  have read : Step (bump 0) trickle slow (.read [0,0]) (between w.heap) (emptied w.heap) := .inl ⟨(),between_read (Tcio.Sound.placed held (.bytesMut (between w.heap).buf) List.mem_cons_self) view⟩
  have flows := step_flows trickle_within slow_lawful flows read
  obtain ⟨t,step⟩ := flows.goes (.write ⟨[6,7],by decide⟩) trickle_within slow_lawful (fun n bad => by cases bad) (fun i bad => by cases bad)
  -- two bytes are in front of the view, which are all
  obtain ⟨e,lies⟩ := BytesMut.lies held empty
  have size := lies.size_eq
  have all := lies.alone hold_new_unpromoted
  have room : (emptied w.heap).Finds (Op.reserves (emptied w.heap).buf (.write ⟨[6,7],by decide⟩)) := by
    refine .inr ⟨rfl,Nat.zero_le _,?_⟩
    exact Nat.le_of_eq (all.2.trans size.symm)
  have recycling : Recycling (bump 0) trickle slow (between w.heap) t :=
    (Relation.ReflTransGen.single ⟨_,.inl (Nat.zero_le _),read⟩).tail ⟨_,room,step⟩
  refine ⟨w,run,t,step,recycles trickle_within slow_lawful between_fresh held empty (fun r mem => ?_) recycling⟩
  rw [List.mem_singleton.mp mem]
  exact show 2 ≠ 3 by decide

end Relay
end Tcio
