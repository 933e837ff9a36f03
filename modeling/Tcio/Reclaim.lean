import Tcio.BytesMutSpec

/-!
What `reserve_inner` can gain without allocating. It depends on how much of its
allocation a handle leaves in front of it and behind it, and on whether it is alone on
it; `Reclaim` lists all that can come out, for both representations at once.
-/
namespace Tcio
open Exec Ledger Shared

variable {A : Allocator} {H H' : Heap} {C : List Own} {R : List Handle} {m m' m'' : BytesMut} {e : Extent}
variable {v : List UInt8} {n k offset : Nat} {ok allocate : Bool} {p q : Ptr}

/-- No buffer and no node was allocated on the way. -/
def Heap.Quiet (H H' : Heap) : Prop := H'.mem.bound = H.mem.bound ∧ H'.nodes.bound = H.nodes.bound

theorem Heap.Quiet.refl (H : Heap) : H.Quiet H := ⟨rfl,rfl⟩
theorem Heap.Quiet.trans {H'' : Heap} (one : H.Quiet H') (two : H'.Quiet H'') : H.Quiet H'' :=
  ⟨two.1.trans one.1,two.2.trans one.2⟩

/-- An empty vector spans the dangling allocation. -/
theorem Spans.extent {cap : Nat} (spans : Spans H p cap) (empty : H.mem.extent 0 = some dangling) :
    ∃ e, H.mem.extent p.prov = some e ∧ e.base = p.addr ∧ e.size = cap := by
  rcases spans with ⟨rfl,rfl⟩ | ⟨_,_,live⟩
  · exact ⟨dangling,empty,rfl,rfl⟩
  · exact ⟨_,live,rfl,rfl⟩

/-- Writing allocates nothing; where it stops, the write was not allowed. -/
theorem write_quiet : Sat (Heap.write p v) H (fun _ H' => H.Quiet H') (fun k _ => k = .fault) := by
  simp only [Heap.write,sat_bind,sat_get,sat_ofOption,sat_set]
  refine ⟨fun mem stored => ?_,fun _ => trivial⟩
  exact ⟨(Memory.store_stored stored).bound,rfl⟩

theorem copy_quiet : Sat (Heap.copy_nonoverlapping p q n) H (fun _ H' => H.Quiet H') (fun k _ => k = .fault) := by
  simp only [Heap.copy_nonoverlapping,Heap.copy,Heap.read,sat_bind,sat_check,sat_get,sat_ofOption]
  exact ⟨fun _ => ⟨fun _ _ => write_quiet,fun _ => trivial⟩,fun _ => trivial⟩

namespace BytesMut

/-- The bytes of the allocation in front of the handle. -/
def head (H : Heap) (m : BytesMut) : Nat := ((H.mem.extent m.ptr.prov).map fun e => m.ptr.addr-e.base).getD 0
/-- The bytes of the allocation behind the capacity of the handle. -/
def tail (H : Heap) (m : BytesMut) : Nat :=
  ((H.mem.extent m.ptr.prov).map fun e => e.base+e.size-(m.ptr.addr+m.cap)).getD 0
/-- No other handle is on the buffer. -/
def unique (H : Heap) (m : BytesMut) : Bool :=
  match hold m.data with
  | .promoted => (H.nodes.get m.data.prov).any fun boxed => boxed.shared.ref_count == 1
  | _ => true

/-- What comes of reclaiming `n` bytes, and whether it is enough. -/
inductive Reclaim (H : Heap) (m : BytesMut) (n : Nat) : Bool → BytesMut → Prop where
  /-- Others are on the buffer. -/
  | shared : m.unique H = false → Reclaim H m n false m
  /-- The tail alone is enough. -/
  | tail {r : BytesMut} : m.unique H = true → n ≤ m.tail H →
    r.ptr = m.ptr → r.len = m.len → r.cap = m.cap+m.tail H → Reclaim H m n true r
  /-- The bytes are moved to the start of the allocation. -/
  | moved {r : BytesMut} : m.unique H = true → m.tail H < n → n ≤ m.head H+(m.cap-m.len)+m.tail H → m.len ≤ m.head H →
    r.ptr = m.ptr.sub (m.head H) → r.len = m.len → r.cap = m.head H+m.cap+m.tail H → Reclaim H m n true r
  /-- Not enough is left, or the bytes cannot be moved; the tail is taken all the same. -/
  | kept {r : BytesMut} : m.unique H = true → m.tail H < n →
    (m.head H+(m.cap-m.len)+m.tail H < n ∨ m.head H < m.len) →
    r.ptr = m.ptr → r.len = m.len → r.cap = m.cap+m.tail H → Reclaim H m n false r

/-- The capacity `reserve_inner` asks for when it reallocates. -/
def demand (m : BytesMut) (n : Nat) : Nat := max (wrap (m.cap*2)) (wrap (m.len+n))

/-! ### The allocation of a handle -/

/-- The handle lies in the allocation `e`, as its word says. -/
structure Lies (H : Heap) (m : BytesMut) (e : Extent) : Prop where
  extent : H.mem.extent m.ptr.prov = some e
  low : e.base ≤ m.ptr.addr
  high : m.ptr.addr+m.cap ≤ e.base+e.size
  small : e.size ≤ isizeMax
  fits : m.len ≤ m.cap
  unpromoted : ∀ offset, hold m.data = .unpromoted offset → offset = m.ptr.addr-e.base ∧ m.ptr.addr+m.cap = e.base+e.size
  promoted : hold m.data = .promoted → ∃ boxed, H.nodes.get m.data.prov = some boxed ∧ boxed.addr = m.data.addr ∧
    boxed.shared.ptr = ⟨e.base,m.ptr.prov⟩ ∧ boxed.shared.cap = e.size
  word : hold m.data ≠ .null

theorem lies (sound : Sound H C (.bytesMut m :: R)) (empty : H.mem.extent 0 = some dangling) : ∃ e, m.Lies H e := by
  have placed := (sound_cons.mp sound).2.1
  have fits : m.len ≤ m.cap := placed.fits
  rcases placed.bytesMut with ⟨offset,word,low,spans⟩ | ⟨word,boxed,live,addr,prov,low,high⟩
  · obtain ⟨e,extent,base,size⟩ := spans.extent empty
    simp only [Ptr.sub_addr,Ptr.sub_prov] at extent base
    have small := spans.small
    refine ⟨e,extent,by omega,by omega,by omega,fits,fun offset' word' => ?_,?_,by simp [word]⟩
    · cases word.symm.trans word'
      omega
    · simp [word]
  · obtain ⟨_,_,spans⟩ := sound.nodes _ _ live
    obtain ⟨e,extent,base,size⟩ := spans.extent empty
    have small := spans.small
    rw [← prov] at extent
    refine ⟨e,extent,by omega,by omega,by omega,fits,by simp [word],fun _ => ?_,by simp [word]⟩
    exact ⟨boxed,live,addr,Ptr.ext base.symm prov.symm,size.symm⟩

namespace Lies

theorem head (lies : m.Lies H e) : m.head H = m.ptr.addr-e.base := by simp [BytesMut.head,lies.extent]
theorem tail (lies : m.Lies H e) : m.tail H = e.base+e.size-(m.ptr.addr+m.cap) := by simp [BytesMut.tail,lies.extent]

/-- The allocation is what is in front, the capacity, and what is behind. -/
theorem size (lies : m.Lies H e) : e.size = m.head H+m.cap+m.tail H := by
  have low := lies.low
  have high := lies.high
  rw [lies.head,lies.tail]
  omega

theorem tail_unpromoted (lies : m.Lies H e) (word : hold m.data = .unpromoted offset) : m.tail H = 0 := by
  have := lies.unpromoted offset word
  rw [lies.tail]
  omega

end Lies

theorem Reclaim.len (reclaim : Reclaim H m n ok m') : m'.len = m.len := by cases reclaim <;> first | rfl | assumption

theorem Reclaim.prov (reclaim : Reclaim H m n ok m') : m'.ptr.prov = m.ptr.prov := by
  cases reclaim <;> simp_all

/-- Only a handle that is alone gains anything. -/
theorem Reclaim.cap_of_false (reclaim : Reclaim H m n false m') :
    m'.cap = m.cap+(if m.unique H then m.tail H else 0) := by
  cases reclaim with
  | shared other => simp [other]
  | kept alone _ _ _ _ cap => simp [alone,cap]

/-- The same outcome comes of the same state. -/
theorem Reclaim.agree {other : Bool} (one : Reclaim H m n ok m') (two : Reclaim H m n other m'') : ok = other := by
  cases one <;> cases two <;> simp_all <;> omega

/-! ### `reserve_inner` -/

/-- What comes of a request for more capacity: it is reclaimed, or else, where it may be
    allocated, that much is asked for. -/
def Gains (H : Heap) (m : BytesMut) (n : Nat) (allocate : Bool) (ok : Bool) (p : Heap × BytesMut) : Prop :=
  (H.Quiet p.1 ∧ Reclaim H m n ok p.2 ∧ (allocate = true → ok = true)) ∨
    (allocate = true ∧ ok = true ∧ ∃ r, Reclaim H m n false r ∧ r.demand n ≤ isizeMax)
/-- It panics only where too much is asked for. -/
def Exceeds (H : Heap) (m : BytesMut) (n : Nat) (allocate : Bool) (k : Stop) (p : Heap × BytesMut) : Prop :=
  k = .fault ∨ k = .panic ∧ allocate = true ∧ H.Quiet p.1 ∧ ∃ r, Reclaim H m n false r ∧ isizeMax < r.demand n

/-- A new buffer is there exactly if it is not too large. -/
theorem with_capacity_large : Sat (Vec.with_capacity A n) H (fun _ _ => n ≤ isizeMax)
    (fun k H' => k = .panic ∧ isizeMax < n ∧ H' = H) := by
  simp only [Vec.with_capacity,sat_bind,sat_check,sat_ite,sat_pure,sat_get,sat_set]
  exact ⟨fun small => ⟨fun _ => small,fun _ => small⟩,fun large => ⟨trivial,by omega,trivial⟩⟩

theorem unique_unpromoted (word : hold m.data = .unpromoted offset) : m.unique H = true := by simp [unique,word]

theorem drop_faults {vec : Vec} : Sat vec.drop H (fun _ _ => True) (fun k _ => k = .fault) := by
  simp only [Vec.drop,sat_bind,sat_ite,sat_pure,sat_get,sat_check,sat_set]
  exact ⟨fun _ => trivial,fun _ => ⟨fun _ => trivial,fun _ => trivial⟩⟩

theorem original_buffer_faults : Sat (m.original_buffer offset) H (fun _ _ => True) (fun k _ => k = .fault) := by
  simp only [original_buffer,Vec.from_raw_parts,sat_bind,sat_get,sat_check,sat_pure]
  exact ⟨fun _ => trivial,fun _ => trivial⟩

theorem reserve_unpromoted_gains (lies : m.Lies H e) (word : hold m.data = .unpromoted offset) (some' : n ≠ 0) :
    Sat (reserve_unpromoted A offset n allocate) (H,m) (Gains H m n allocate) (Exceeds H m n allocate) := by
  have fits := lies.fits
  have alone := unique_unpromoted (H := H) word
  have none := lies.tail_unpromoted word
  obtain ⟨same,_⟩ := lies.unpromoted offset word
  rw [← lies.head] at same
  subst same
  simp only [reserve_unpromoted,sat_bind,Method.sat_self,sat_usize_sub,fits,forall_const,not_true_eq_false,
    false_implies,and_true,sat_ite,sat_onFst,sat_pure]
  refine ⟨fun back => ?_,fun less => ⟨fun no => ?_,fun yes => ?_⟩⟩
  · obtain ⟨enough,apart⟩ := back
    refine copy_quiet.mono (fun _ H' quiet => ?_) (fun _ _ fault => .inl fault)
    rw [sat_of_ok (mask_payload_ok word (by decide))]
    refine .inl ⟨quiet,.moved alone (by omega) (by omega) apart rfl rfl ?_,fun _ => rfl⟩
    simp only
    omega
  · have kept : Reclaim H m n false m := .kept alone (by omega) (by omega) rfl rfl (by omega)
    exact .inl ⟨.refl H,kept,fun always => by simp [always] at no⟩
  · have kept : Reclaim H m n false m := .kept alone (by omega) (by omega) rfl rfl (by omega)
    have always : allocate = true := by simpa using yes
    refine with_capacity_large.mono (fun vec H₁ small => ?_) ?_
    · refine copy_quiet.mono (fun _ H₂ _ => ?_) (fun _ _ fault => .inl fault)
      refine original_buffer_faults.mono (fun old H₃ _ => ?_) (fun _ _ fault => .inl fault)
      refine drop_faults.mono (fun _ H₄ _ => ?_) (fun _ _ fault => .inl fault)
      rw [sat_of_ok (mask_payload_ok word (by decide))]
      exact .inr ⟨always,rfl,m,kept,small⟩
    · rintro k _ ⟨panic,large,rfl⟩
      exact .inr ⟨panic,always,.refl _,m,kept,large⟩

theorem unique_promoted {boxed : Boxed} (word : hold m.data = .promoted) (live : H.nodes.get m.data.prov = some boxed) :
    m.unique H = (boxed.shared.ref_count == 1) := by simp [unique,word,live]

theorem reclaim_promoted_gains (lies : m.Lies H e) (word : hold m.data = .promoted) (alone : m.unique H = true) :
    Sat (reclaim_promoted m.data n) (H,m) (fun ok p => H.Quiet p.1 ∧ Reclaim H m n ok p.2)
      (fun k _ => k = .fault) := by
  have fits := lies.fits
  have low := lies.low
  have high := lies.high
  have head := lies.head
  have tail := lies.tail
  obtain ⟨boxed,live,addr,ptr,cap⟩ := lies.promoted word
  simp only [reclaim_promoted,sat_bind,Method.sat_self,sat_onFst]
  rw [sat_of_ok (deref_ok live addr)]
  simp only [sat_check,ptr,cap,sat_usize_sub,low,forall_const,not_true_eq_false,false_implies,and_true,sat_ite,
    Method.sat_put,sat_pure,sat_bind,sat_onFst]
  rw [← head,show e.size-(m.cap+m.head H) = m.tail H by omega]
  refine ⟨fun _ => ⟨fun enough => ?_,fun less => ⟨fun _ => ⟨fun back => ?_,fun short => ?_⟩,fun _ => trivial⟩⟩,
    fun _ => trivial⟩
  · exact ⟨.refl H,.tail alone enough rfl rfl rfl⟩
  · obtain ⟨enough,apart⟩ := back
    refine copy_quiet.mono (fun _ H' quiet => ?_) (fun _ _ fault => fault)
    refine ⟨quiet,.moved alone (by omega) (by omega) apart (Ptr.ext ?_ rfl) rfl ?_⟩
    · simp only [Ptr.sub_addr]
      omega
    · simp only
      omega
  · refine ⟨.refl H,.kept alone (by omega) ?_ rfl rfl rfl⟩
    omega

theorem deref_faults {data : Ptr} : Sat (Shared.deref data) H (fun _ _ => True) (fun k _ => k = .fault) := by
  simp only [Shared.deref,sat_bind,sat_get]
  cases H.nodes.get data.prov with
  | none => exact rfl
  | some boxed =>
    simp only [sat_bind,sat_check,sat_pure]
    exact ⟨fun _ => trivial,fun _ => trivial⟩

theorem release_faults {data : Ptr} : Sat (Shared.release data) H (fun _ _ => True) (fun k _ => k = .fault) := by
  simp only [Shared.release,Shared.fetch_sub,Shared.recount,Shared.free,Vec.from_raw_parts,sat_bind,sat_modify,sat_ite,
    sat_pure,sat_get,sat_check]
  refine deref_faults.mono (fun shared H₁ _ => ⟨fun _ => trivial,fun _ => ?_⟩) (fun _ _ fault => fault)
  refine deref_faults.mono (fun shared H₂ _ => ⟨fun _ => ?_,fun _ => trivial⟩) (fun _ _ fault => fault)
  exact drop_faults.mono (fun _ _ _ => trivial) (fun _ _ fault => fault)

theorem reallocate_promoted_gains {data : Ptr} {q : Heap × BytesMut} (quiet : H.Quiet q.1) (kept : Reclaim H m n false q.2) :
    Sat (reallocate_promoted A data n) q (fun _ p => Gains H m n true true p) (Exceeds H m n true) := by
  simp only [reallocate_promoted,sat_bind,Method.sat_self,sat_onFst,Method.sat_put]
  refine with_capacity_large.mono (fun vec H₁ small => ?_) ?_
  · refine copy_quiet.mono (fun _ H₂ _ => ?_) (fun _ _ fault => .inl fault)
    exact release_faults.mono (fun _ H₃ _ => .inr ⟨rfl,rfl,q.2,kept,small⟩) (fun _ _ fault => .inl fault)
  · rintro k _ ⟨panic,large,rfl⟩
    exact .inr ⟨panic,rfl,quiet,q.2,kept,large⟩

theorem reserve_inner_gains (lies : m.Lies H e) (some' : n ≠ 0) (small : wrap (n+m.cap) ≤ isizeMax) :
    Sat (reserve_inner A n allocate) (H,m) (Gains H m n allocate) (Exceeds H m n allocate) := by
  simp only [reserve_inner,some',small,sat_ite,sat_bind,Method.sat_self,sat_check,sat_onFst,false_implies,not_false_eq_true,
    forall_const,not_true_eq_false,true_and,and_true]
  cases word : hold m.data with
  | null => exact absurd word lies.word
  | unpromoted offset =>
    rw [sat_of_ok (show as_unpromoted_mut m.data H = _ from as_unpromoted_offset word)]
    exact reserve_unpromoted_gains lies word some'
  | promoted =>
    obtain ⟨boxed,live,addr,_⟩ := lies.promoted word
    rw [sat_of_ok (show as_unpromoted_mut m.data H = _ from as_unpromoted_node word live addr)]
    simp only [sat_bind,sat_onFst]
    rw [sat_of_ok (is_unique_ok live addr)]
    -- what is left where nothing, or not enough, could be reclaimed
    have rest : ∀ q : Heap × BytesMut, H.Quiet q.1 → Reclaim H m n false q.2 →
        Sat (if (!allocate) = true then pure false
          else do
            reallocate_promoted A m.data n
            return true) q (Gains H m n allocate) (Exceeds H m n allocate) := by
      intro q quiet kept
      cases allocate with
      | false => exact .inl ⟨quiet,kept,fun bad => by cases bad⟩
      | true => exact (sat_bind (f := fun _ => pure true)).mpr (reallocate_promoted_gains quiet kept)
    have alone := unique_promoted word live
    by_cases one : boxed.shared.ref_count = 1
    · simp only [one,beq_self_eq_true,↓reduceIte,sat_bind]
      refine (reclaim_promoted_gains lies word (by simp [alone,one])).mono ?_ (fun _ _ fault => .inl fault)
      rintro ok q ⟨quiet,reclaim⟩
      cases ok with
      | true => exact .inl ⟨quiet,reclaim,fun _ => rfl⟩
      | false => exact rest q quiet reclaim
    · have more : (boxed.shared.ref_count == 1) = false := by simpa using one
      simp only [more]
      exact rest (H,m) (.refl H) (.shared (by simp [alone,more]))

/-! ### The calls -/

/-- What comes of a request that may not allocate. -/
def Reclaims (H : Heap) (m : BytesMut) (n : Nat) (ok : Bool) (p : Heap × BytesMut) : Prop :=
  wrap (n+m.cap) ≤ isizeMax ∧ H.Quiet p.1 ∧ Reclaim H m n ok p.2

theorem reserve_inner_reclaims (lies : m.Lies H e) (some' : n ≠ 0) : Sat (reserve_inner A n false) (H,m)
    (Reclaims H m n) (fun k _ => k = .panic → isizeMax < wrap (n+m.cap)) := by
  by_cases small : wrap (n+m.cap) ≤ isizeMax
  · refine (reserve_inner_gains lies some' small).mono ?_ ?_
    · rintro ok p (⟨quiet,reclaim,_⟩ | ⟨no,_⟩)
      · exact ⟨small,quiet,reclaim⟩
      · cases no
    · rintro k _ (rfl | ⟨_,no,_⟩) panic
      · cases panic
      · cases no
  · simp only [reserve_inner,some',small,sat_ite,sat_bind,Method.sat_self,sat_check]
    exact ⟨False.elim,fun _ => ⟨False.elim,fun _ _ => by omega⟩⟩

theorem try_reclaim_reclaims (lies : m.Lies H e) : Sat (try_reclaim A n) (H,m)
    (fun ok p => n ≤ m.cap-m.len ∧ ok = true ∧ p = (H,m) ∨ m.cap-m.len < n ∧ Reclaims H m n ok p)
    (fun k _ => k = .panic → m.cap-m.len < n ∧ isizeMax < wrap (n+m.cap)) := by
  have fits := lies.fits
  simp only [try_reclaim,sat_bind,Method.sat_self,sat_usize_sub,fits,forall_const,not_true_eq_false,false_implies,
    and_true,sat_ite,sat_pure]
  refine ⟨fun enough => .inl enough,fun less => ?_⟩
  refine (reserve_inner_reclaims lies (by omega)).mono ?_ ?_
  · exact fun ok p reclaims => .inr ⟨by omega,reclaims⟩
  · exact fun k p large panic => ⟨by omega,large panic⟩

/-- It asks for all that the allocation has but the view. -/
theorem try_reclaim_full_reclaims (lies : m.Lies H e) : Sat (try_reclaim_full A) (H,m)
    (fun ok p => m.len = e.size ∧ ok = true ∧ p = (H,m) ∨ m.len < e.size ∧ Reclaims H m (e.size-m.len) ok p)
    (fun k _ => k = .panic → m.len < e.size ∧ isizeMax < wrap (e.size-m.len+m.cap)) := by
  have fits := lies.fits
  have low := lies.low
  have high := lies.high
  have inner : ∀ n, n = e.size-m.len → Sat (reserve_inner A n false) (H,m)
      (fun ok p => m.len = e.size ∧ ok = true ∧ p = (H,m) ∨ m.len < e.size ∧ Reclaims H m (e.size-m.len) ok p)
      (fun k _ => k = .panic → m.len < e.size ∧ isizeMax < wrap (e.size-m.len+m.cap)) := by
    rintro n rfl
    by_cases full : m.len = e.size
    · simp only [reserve_inner,show e.size-m.len = 0 by omega,sat_ite,sat_pure]
      exact ⟨fun _ => .inl ⟨full,trivial,trivial⟩,fun no => absurd trivial no⟩
    · refine (reserve_inner_reclaims lies (by omega)).mono ?_ ?_
      · exact fun ok p reclaims => .inr ⟨by omega,reclaims⟩
      · exact fun k p large panic => ⟨by omega,large panic⟩
  simp only [try_reclaim_full,sat_bind,Method.sat_self,sat_onFst]
  cases word : hold m.data with
  | null => exact absurd word lies.word
  | unpromoted offset =>
    obtain ⟨same,all⟩ := lies.unpromoted offset word
    rw [sat_of_ok (as_unpromoted_offset word)]
    simp only [sat_bind,sat_usize_sub,sat_pure,fits,forall_const,not_true_eq_false,false_implies,and_true]
    exact inner _ (by omega)
  | promoted =>
    obtain ⟨boxed,live,addr,_,cap⟩ := lies.promoted word
    rw [sat_of_ok (as_unpromoted_node word live addr)]
    simp only [sat_bind,sat_onFst]
    rw [sat_of_ok (deref_ok live addr)]
    simp only [sat_usize_sub,cap]
    exact ⟨fun _ => inner _ rfl,fun bad => absurd (by omega) bad⟩

theorem reserve_gains (lies : m.Lies H e) : Sat (reserve A n) (H,m)
    (fun _ p => n ≤ m.cap-m.len ∧ p = (H,m) ∨ m.cap-m.len < n ∧ wrap (n+m.cap) ≤ isizeMax ∧ Gains H m n true true p)
    (fun k p => k = .panic → m.cap-m.len < n ∧ H.Quiet p.1 ∧
      (isizeMax < wrap (n+m.cap) ∨ ∃ r, Reclaim H m n false r ∧ isizeMax < r.demand n)) := by
  have fits := lies.fits
  simp only [reserve,sat_bind,Method.sat_self,sat_usize_sub,fits,forall_const,not_true_eq_false,false_implies,and_true,
    sat_ite,sat_pure]
  refine ⟨fun enough => .inl enough,fun less => ?_⟩
  by_cases small : wrap (n+m.cap) ≤ isizeMax
  · refine (reserve_inner_gains lies (by omega) small).mono ?_ ?_
    · intro ok p gains
      have always : ok = true := by
        rcases gains with ⟨_,_,always⟩ | ⟨_,always,_⟩
        · exact always rfl
        · exact always
      subst always
      exact .inr ⟨by omega,small,gains⟩
    · rintro k p (rfl | ⟨_,_,quiet,large⟩) panic
      · cases panic
      · exact ⟨by omega,quiet,.inr large⟩
  · have some' : n ≠ 0 := by omega
    simp only [reserve_inner,some',small,sat_ite,sat_bind,Method.sat_self,sat_check]
    exact ⟨False.elim,fun _ => ⟨False.elim,fun _ _ => ⟨by omega,.refl H,.inl (by omega)⟩⟩⟩

end BytesMut
end Tcio
