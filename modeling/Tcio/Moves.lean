import Tcio.Reclaim

/-!
Where a request for room leaves a `BytesMut`, and what that costs. Its bytes are moved back
only over at least as many that were given up in front of them, and otherwise only into an
allocation of twice the capacity, where as many can be put behind them before they are moved
again. Each move is so paid by bytes that came or are gone.
-/
namespace Tcio
open Exec Ledger Shared

variable {A : Allocator} {H H' : Heap} {m m' r : BytesMut} {e e' : Extent} {n w asked offset : Nat} {allocate : Bool} {data : Ptr}

namespace BytesMut

/-- The size of the allocation. -/
def size (H : Heap) (m : BytesMut) : Nat := ((H.mem.extent m.ptr.prov).map Extent.size).getD 0
/-- What moves may still cost: the bytes of the view that outnumber the room behind it, and
    those in front of it. -/
def owed (H : Heap) (m : BytesMut) : Nat := m.len-(m.cap-m.len)+m.head H

/-- The handle is where it was. -/
structure Stays (m m' : BytesMut) : Prop where
  ptr : m'.ptr = m.ptr
  len : m.len ≤ m'.len
  cap : m.cap ≤ m'.cap

/-- Where the handle is after `n` bytes were asked for, of which `asked` are not put behind
    its view. -/
inductive Shift (A : Allocator) (H : Heap) (m : BytesMut) (asked n : Nat) (m' : BytesMut) : Prop where
  | stays : Stays m m' → Shift A H m asked n m'
  /-- At the start of its allocation. -/
  | back : m.len ≤ m.head H → m'.ptr = m.ptr.sub (m.head H) → m.len ≤ m'.len → m.cap ≤ m'.cap → Shift A H m asked n m'
  /-- In an allocation of its own. -/
  | grown {K : Heap} {k : Nat} : m.cap-m.len ≤ asked+(m'.len-m.len) → k ≤ isizeMax → k ≤ 2*(m.len+2*n) →
    m'.cap ≤ (A.buffer K k).2 → hold m'.data = .unpromoted 0 → m.len ≤ m'.len → 2*m.cap ≤ m'.cap → Shift A H m asked n m'

theorem Stays.refl (m : BytesMut) : Stays m m := ⟨rfl,Nat.le_refl _,Nat.le_refl _⟩

theorem Reclaim.stays_or_back {ok : Bool} (reclaim : Reclaim H m n ok m') :
    Stays m m' ∨ m.len ≤ m.head H ∧ m'.ptr = m.ptr.sub (m.head H) ∧ m.len ≤ m'.len ∧ m.cap ≤ m'.cap := by
  cases reclaim with
  | shared => exact .inl (.refl m)
  | tail _ _ ptr len cap => exact .inl ⟨ptr,by omega,by omega⟩
  | moved _ _ _ far ptr len cap => exact .inr ⟨far,ptr,by omega,by omega⟩
  | kept _ _ _ ptr len cap => exact .inl ⟨ptr,by omega,by omega⟩

theorem Reclaim.shift {ok : Bool} {k : Nat} (reclaim : Reclaim H m n ok m') : Shift A H m asked k m' := by
  rcases reclaim.stays_or_back with stays | ⟨far,ptr,len,cap⟩
  · exact .stays stays
  · exact .back far ptr len cap

/-- Nothing is moved where not enough is reclaimed. -/
theorem Reclaim.stays (reclaim : Reclaim H m n false m') : Stays m m' := by
  cases reclaim with
  | shared => exact .refl m
  | kept _ _ _ ptr len cap => exact ⟨ptr,by omega,by omega⟩

theorem Shift.len (shift : Shift A H m asked n r) : m.len ≤ r.len := by
  cases shift with
  | stays stays => exact stays.len
  | back _ _ len _ => exact len
  | grown _ _ _ _ _ len _ => exact len

theorem Shift.mono {k : Nat} (less : n ≤ k) (shift : Shift A H m asked n r) : Shift A H m asked k r := by
  cases shift with
  | stays stays => exact .stays stays
  | back far ptr len cap => exact .back far ptr len cap
  | grown spare small limit most word len cap => exact .grown spare small (by omega) most word len cap

/-- Bytes are put behind the view. -/
theorem Shift.append (shift : Shift A H m w n r) : Shift A H m 0 n { r with len := r.len+w } := by
  cases shift with
  | stays stays => exact .stays ⟨stays.ptr,Nat.le_trans stays.len (Nat.le_add_right ..),stays.cap⟩
  | back far ptr len cap => exact .back far ptr (Nat.le_trans len (Nat.le_add_right ..)) cap
  | grown spare small limit most word len cap =>
    refine .grown ?_ small limit most word (Nat.le_trans len (Nat.le_add_right ..)) cap
    simp only
    omega

/-- A handle with no room behind its view pays for nothing. -/
theorem Shift.full (full : m.cap = m.len) (shift : Shift A H m asked n r) : Shift A H m 0 n { r with len := r.len+w } := by
  cases shift with
  | stays stays => exact .stays ⟨stays.ptr,Nat.le_trans stays.len (Nat.le_add_right ..),stays.cap⟩
  | back far ptr len cap => exact .back far ptr (Nat.le_trans len (Nat.le_add_right ..)) cap
  | grown spare small limit most word len cap =>
    refine .grown ?_ small limit most word (Nat.le_trans len (Nat.le_add_right ..)) cap
    simp only
    omega

/-! ### `reserve_inner` -/

/-- An access that is not allowed is no panic. -/
theorem no_panic {k : Stop} {P : Prop} (fault : k = .fault) (panic : k = .panic) : P := by
  rw [fault] at panic
  cases panic

theorem with_capacity_buffer : Sat (Vec.with_capacity A n) H
    (fun vec _ => n ≤ isizeMax ∧ n ≤ vec.cap ∧ ∃ K, vec.cap ≤ (A.buffer K n).2) (fun k _ => k = .panic) := by
  simp only [Vec.with_capacity,sat_bind,sat_check,sat_ite,sat_pure,sat_get,sat_set]
  refine ⟨fun small => ⟨?_,fun _ => ⟨small,(A.room H n small).1,H,Nat.le_refl _⟩⟩,fun _ => trivial⟩
  rintro rfl
  exact ⟨small,Nat.le_refl _,H,Nat.zero_le _⟩

/-- The capacity that is asked for, at least twice what there was, and no more than twice
    what is needed. -/
theorem demand_bounds (low : r.cap ≤ isizeMax) (less : r.cap < r.len+2*n) : 2*r.cap ≤ r.demand n ∧ r.demand n ≤ 2*(r.len+2*n) := by
  have limit : isizeMax = 2^63-1 := rfl
  have double : wrap (r.cap*2) = r.cap*2 := wrap_eq (by omega)
  have sum : wrap (r.len+n) ≤ r.len+n := wrap_le _
  rw [demand,double]
  omega

theorem reserve_unpromoted_shift (lies : m.Lies H e) (word : hold m.data = .unpromoted offset) (less : m.cap-m.len < n) :
    Sat (reserve_unpromoted A offset n allocate) (H,m) (fun _ p => Shift A H m (if allocate then n else 0) n p.2)
      (fun k p => k = .panic → Stays m p.2) := by
  have fits := lies.fits
  obtain ⟨same,_⟩ := lies.unpromoted offset word
  rw [← lies.head] at same
  subst same
  simp only [reserve_unpromoted,sat_bind,Method.sat_self,sat_usize_sub,fits,forall_const,not_true_eq_false,
    false_implies,and_true,sat_ite,sat_onFst,sat_pure]
  refine ⟨fun back => ?_,fun _ => ⟨fun _ => .stays (.refl m),fun yes => ?_⟩⟩
  · refine copy_quiet.mono (fun _ H' _ => ?_) (fun _ _ fault => no_panic fault)
    rw [sat_of_ok (mask_payload_ok word (by decide))]
    exact .back back.2 rfl (Nat.le_refl _) (Nat.le_add_right ..)
  · have always : allocate = true := by simpa using yes
    rw [if_pos always]
    have size := lies.size
    have small := lies.small
    obtain ⟨double,limit⟩ := demand_bounds (r := m) (n := n) (by omega) (by omega)
    refine with_capacity_buffer.mono (fun vec H₁ room => ?_) (fun _ _ _ _ => .refl m)
    obtain ⟨small',least,K,most⟩ := room
    refine copy_quiet.mono (fun _ H₂ _ => ?_) (fun _ _ fault => no_panic fault)
    refine original_buffer_faults.mono (fun old H₃ _ => ?_) (fun _ _ fault => no_panic fault)
    refine drop_faults.mono (fun _ H₄ _ => ?_) (fun _ _ fault => no_panic fault)
    rw [sat_of_ok (mask_payload_ok word (by decide))]
    exact .grown (by omega) small' limit most hold_payload (Nat.le_refl _) (Nat.le_trans double least)

theorem reallocate_promoted_shift {q : Heap × BytesMut} (stays : Stays m q.2) (same : q.2.len = m.len) (small : q.2.cap ≤ isizeMax)
    (less : m.cap-m.len < n) (need : q.2.cap < m.len+2*n) : Sat (reallocate_promoted A data n) q (fun _ p => Shift A H m n n p.2)
      (fun k p => k = .panic → Stays m p.2) := by
  obtain ⟨double,limit⟩ := demand_bounds (r := q.2) (n := n) small (by omega)
  simp only [reallocate_promoted,sat_bind,Method.sat_self,sat_onFst,Method.sat_put]
  refine with_capacity_buffer.mono (fun vec H₁ room => ?_) (fun _ _ _ _ => stays)
  obtain ⟨small',least,K,most⟩ := room
  refine copy_quiet.mono (fun _ H₂ _ => ?_) (fun _ _ fault => no_panic fault)
  refine release_faults.mono (fun _ H₃ _ => ?_) (fun _ _ fault => no_panic fault)
  have cap := stays.cap
  rw [same] at limit
  refine .grown (by omega) small' limit most hold_new_unpromoted (by simp only; omega) ?_
  have least' : q.2.demand n ≤ vec.cap := least
  simp only
  omega

theorem reserve_inner_shift (lies : m.Lies H e) (less : m.cap-m.len < n) : Sat (reserve_inner A n allocate) (H,m)
    (fun _ p => Shift A H m (if allocate then n else 0) n p.2) (fun k p => k = .panic → Stays m p.2) := by
  have some' : n ≠ 0 := by omega
  simp only [reserve_inner,some',sat_ite,sat_bind,Method.sat_self,sat_check,sat_onFst,false_implies,not_false_eq_true,
    forall_const,true_and]
  refine ⟨fun _ => ?_,fun _ => .refl m⟩
  cases word : hold m.data with
  | null => exact absurd word lies.word
  | unpromoted offset =>
    rw [sat_of_ok (show as_unpromoted_mut m.data H = _ from as_unpromoted_offset word)]
    exact reserve_unpromoted_shift lies word less
  | promoted =>
    obtain ⟨boxed,live,addr,_⟩ := lies.promoted word
    rw [sat_of_ok (show as_unpromoted_mut m.data H = _ from as_unpromoted_node word live addr)]
    simp only [sat_bind,sat_onFst]
    rw [sat_of_ok (is_unique_ok live addr)]
    have size := lies.size
    have small := lies.small
    have fits := lies.fits
    -- what is left where nothing, or not enough, could be reclaimed
    have rest : ∀ q : Heap × BytesMut, Reclaim H m n false q.2 →
        Sat (if (!allocate) = true then pure false
          else do
            reallocate_promoted A m.data n
            return true) q (fun _ p => Shift A H m (if allocate then n else 0) n p.2) (fun k p => k = .panic → Stays m p.2) := by
      intro q kept
      cases allocate with
      | false => exact .stays kept.stays
      | true =>
        have bounds : q.2.cap ≤ isizeMax ∧ q.2.cap < m.len+2*n := by
          cases kept with
          | shared => exact ⟨by omega,by omega⟩
          | kept _ _ _ _ _ cap => exact ⟨by omega,by omega⟩
        exact (sat_bind (f := fun _ => pure true)).mpr (reallocate_promoted_shift kept.stays kept.len bounds.1 less bounds.2)
    have alone := unique_promoted word live
    by_cases one : boxed.shared.ref_count = 1
    · simp only [one,beq_self_eq_true,↓reduceIte,sat_bind]
      refine (reclaim_promoted_gains lies word (by simp [alone,one])).mono ?_ (fun _ _ fault => no_panic fault)
      rintro ok q ⟨_,reclaim⟩
      cases ok with
      | true => exact reclaim.shift
      | false => exact rest q reclaim
    · have more : (boxed.shared.ref_count == 1) = false := by simpa using one
      simp only [more]
      exact rest (H,m) (.shared (by simp [alone,more]))

/-! ### The calls -/

theorem reserve_shift (lies : m.Lies H e) : Sat (reserve A n) (H,m) (fun _ p => Shift A H m n n p.2)
    (fun k p => k = .panic → Stays m p.2) := by
  have fits := lies.fits
  simp only [reserve,sat_bind,Method.sat_self,sat_usize_sub,fits,forall_const,not_true_eq_false,false_implies,and_true,
    sat_ite,sat_pure]
  refine ⟨fun _ => .stays (.refl m),fun less => ?_⟩
  have shifts : Sat (reserve_inner A n true) (H,m) (fun _ p => Shift A H m n n p.2) (fun k p => k = .panic → Stays m p.2) :=
    reserve_inner_shift lies (by omega)
  exact shifts.mono (fun _ _ shift => shift) (fun _ _ => id)

theorem try_reclaim_shift (lies : m.Lies H e) : Sat (try_reclaim A n) (H,m) (fun _ p => Shift A H m 0 0 p.2)
    (fun k p => k = .panic → Stays m p.2) := by
  have fits := lies.fits
  simp only [try_reclaim,sat_bind,Method.sat_self,sat_usize_sub,fits,forall_const,not_true_eq_false,false_implies,and_true,
    sat_ite,sat_pure]
  refine ⟨fun _ => .stays (.refl m),fun less => ?_⟩
  have stays : Sat (reserve_inner A n false) (H,m) (fun _ p => Shift A H m 0 n p.2) (fun k p => k = .panic → Stays m p.2) :=
    reserve_inner_shift lies (by omega)
  refine ((reserve_inner_reclaims lies (by omega)).and stays).mono ?_ ?_
  · rintro ok p ⟨⟨_,_,reclaim⟩,_⟩
    exact reclaim.shift
  · exact fun _ _ stops => stops.2

theorem spare_capacity_faults {v : List UInt8} : Sat (m.spare_capacity_mut v) H (fun _ _ => True) (fun k _ => k = .fault) := by
  simp only [spare_capacity_mut,sat_bind,sat_usize_sub,sat_check]
  exact ⟨fun _ => ⟨fun _ => write_quiet.mono (fun _ _ _ => trivial) (fun _ _ => id),fun _ => trivial⟩,fun _ => trivial⟩

theorem extend_from_slice_shift (lies : m.Lies H e) {v : List UInt8} : Sat (extend_from_slice A v) (H,m)
    (fun _ p => Shift A H m 0 v.length p.2) (fun k p => k = .panic → Shift A H m 0 v.length p.2) := by
  simp only [extend_from_slice,sat_bind,Method.sat_self,sat_onFst,Method.sat_put]
  refine (reserve_shift lies).mono (fun _ p shift => ?_) (fun _ _ stays panic => .stays (stays panic))
  exact spare_capacity_faults.mono (fun _ _ _ => shift.append) (fun _ _ fault => no_panic fault)

/-! ### Taking from the front -/

/-- The first `n` bytes of the view are gone. -/
structure Drained (m : BytesMut) (n : Nat) (m' : BytesMut) : Prop where
  ptr : m'.ptr = m.ptr.add n
  len : m'.len+n = m.len
  cap : m'.cap+n = m.cap

theorem Drained.refl (m : BytesMut) : Drained m 0 m := ⟨rfl,rfl,rfl⟩
theorem Drained.trans {k : Nat} (one : Drained m n r) (two : Drained r k m') : Drained m (n+k) m' where
  ptr := by
    rw [two.ptr,one.ptr]
    exact Ptr.ext (Nat.add_assoc ..) rfl
  len := by
    have := one.len
    have := two.len
    omega
  cap := by
    have := one.cap
    have := two.cap
    omega

theorem advance_unchecked_drains (inside : n ≤ m.len) : Sat (advance_unchecked n) (H,m) (fun _ p => Drained m n p.2)
    (fun _ p => Drained m 0 p.2) := by
  simp only [advance_unchecked,sat_ite,sat_pure,sat_bind,Method.sat_self,sat_onFst]
  refine ⟨?_,fun _ => sat_any.mono (fun word H₁ _ => ?_) (fun _ _ _ => .refl m)⟩
  · rintro rfl
    exact .refl m
  · have moves (data : Ptr) : Sat (do
        let cap ← usize_sub m.cap n
        Method.put { ptr := m.ptr.add n,len := m.len-n,cap,data } : Method BytesMut Unit) (H₁,m) (fun _ p => Drained m n p.2)
        (fun _ p => Drained m 0 p.2) := by
      simp only [sat_bind,sat_usize_sub,Method.sat_put]
      exact ⟨fun room => ⟨rfl,Nat.sub_add_cancel inside,Nat.sub_add_cancel room⟩,fun _ => .refl m⟩
    rcases word with node | offset
    · exact moves m.data
    · simp only [Shared.mask_payload,sat_bind,sat_check,sat_pure]
      exact ⟨fun _ => ⟨fun _ => sat_bind.mp (moves _),fun _ => .refl m⟩,fun _ => .refl m⟩

theorem advance_drains : Sat (advance n) (H,m) (fun _ p => Drained m n p.2) (fun _ p => Drained m 0 p.2) := by
  simp only [advance,sat_bind,Method.sat_self,sat_check]
  exact ⟨advance_unchecked_drains,fun _ => .refl m⟩

/-- Promoting a handle leaves it where it is. -/
theorem shallow_clone_still : Sat (shallow_clone A) (H,m) (fun _ p => Drained m 0 p.2) (fun _ p => Drained m 0 p.2) := by
  simp only [shallow_clone,sat_bind,Method.sat_self,sat_onFst]
  refine sat_any.mono (fun word H₁ _ => ?_) (fun _ _ _ => .refl m)
  rcases word with node | offset
  · simp only [sat_bind,sat_onFst,Method.sat_self]
    exact sat_any.mono (fun _ _ _ => .refl m) (fun _ _ _ => .refl m)
  · simp only [sat_bind,sat_onFst,Method.sat_put,Method.sat_self]
    refine sat_any.mono (fun vec H₂ _ => ?_) (fun _ _ _ => .refl m)
    exact sat_any.mono (fun data H₃ _ => ⟨rfl,rfl,rfl⟩) (fun _ _ _ => .refl m)

theorem split_to_drains : Sat (split_to A n) (H,m) (fun _ p => Drained m n p.2) (fun _ p => Drained m 0 p.2) := by
  simp only [split_to,try_split_to,sat_bind,Method.sat_self,sat_ite,sat_pure,sat_ofOption]
  refine ⟨fun _ => ⟨fun _ bad => (by cases bad),fun _ => .refl m⟩,fun inside => ?_⟩
  refine shallow_clone_still.mono ?_ (fun _ _ => id)
  rintro front ⟨H₁,r⟩ still
  have len := still.len
  refine (advance_unchecked_drains (by simp only at len; omega)).mono (fun _ p drained => ⟨fun _ _ => ?_,fun bad => by cases bad⟩) (fun _ _ drained => ?_)
  · have both := still.trans drained
    rwa [Nat.zero_add] at both
  · exact still.trans drained

/-! ### What it costs -/

/-- The bytes that were moved, where the view should begin at `p`: all of them or none. -/
def moved (m : BytesMut) (p : Ptr) (m' : BytesMut) : Nat := if m'.ptr = p then 0 else m.len

theorem Lies.owed (lies : m.Lies H e) : m.owed H = m.len-(m.cap-m.len)+(m.ptr.addr-e.base) := by rw [BytesMut.owed,lies.head]
theorem Lies.size_eq (lies : m.Lies H e) : m.size H = e.size := by rw [BytesMut.size,lies.extent,Option.map_some,Option.getD_some]

/-- A handle with an allocation of its own lies at its start. -/
theorem Lies.alone (lies : m.Lies H e) (word : hold m.data = .unpromoted 0) : m.ptr.addr = e.base ∧ m.cap = e.size := by
  obtain ⟨head,all⟩ := lies.unpromoted 0 word
  have low := lies.low
  exact ⟨by omega,by omega⟩

/-- A move is paid by what is owed no longer, with what was asked for and three times what
    was put behind the view. -/
theorem Shift.pays (lies : m.Lies H e) (lies' : m'.Lies H' e') (kept : m'.ptr.prov = m.ptr.prov → e' = e) (shift : Shift A H m asked n m') :
    moved m m.ptr m'+m'.owed H' ≤ m.owed H+asked+3*(m'.len-m.len) := by
  have fits := lies.fits
  have fits' := lies'.fits
  have low := lies.low
  rw [lies.owed,lies'.owed,moved]
  cases shift with
  | stays stays =>
    obtain ⟨ptr,len,cap⟩ := stays
    rw [if_pos ptr,kept (by rw [ptr]),ptr]
    omega
  | back far ptr len cap =>
    rw [lies.head] at far ptr
    have start : m'.ptr.addr = e.base := by
      rw [ptr,Ptr.sub_addr]
      omega
    rw [kept (by rw [ptr]; rfl),start]
    split <;> omega
  | grown spare _ _ _ word len cap =>
    have start := (lies'.alone word).1
    split <;> omega

/-- What is taken from the front will be paid by what is in front. -/
theorem Drained.pays (lies : m.Lies H e) (lies' : m'.Lies H' e') (kept : m'.ptr.prov = m.ptr.prov → e' = e) (drained : Drained m n m') :
    m'.owed H' ≤ m.owed H+n := by
  have low := lies.low
  have len := drained.len
  have cap := drained.cap
  rw [lies.owed,lies'.owed,kept (by rw [drained.ptr]; rfl),drained.ptr,Ptr.add_addr]
  omega

/-- No allocation is larger than twice what was needed, and what the allocator gives beyond. -/
theorem Shift.size {slack : Nat} (grants : ∀ K k, k ≤ isizeMax → (A.buffer K k).2 ≤ k+slack) (lies : m.Lies H e) (lies' : m'.Lies H' e')
    (kept : m'.ptr.prov = m.ptr.prov → e' = e) (shift : Shift A H m asked n m') :
    m'.size H' ≤ max (m.size H) (2*(m.len+2*n)+slack) := by
  rw [lies.size_eq,lies'.size_eq]
  cases shift with
  | stays stays =>
    rw [kept (by rw [stays.ptr])]
    exact Nat.le_max_left ..
  | back _ ptr _ _ =>
    rw [kept (by rw [ptr]; rfl)]
    exact Nat.le_max_left ..
  | @grown K k _ small limit most word _ _ =>
    have all := (lies'.alone word).2
    have given := grants K k small
    omega

end BytesMut
end Tcio
