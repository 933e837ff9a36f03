import Tcio.Reclaim
import Tcio.Run

/-!
Reserving and reclaiming in every state a run reaches: when `try_reclaim` and
`try_reclaim_full` tell the truth about what they gained, when `reserve` allocates
although it need not, and for which requests it falls short.
-/
namespace Tcio
open Exec Ledger

variable {A : Allocator} {H H' : Heap} {p : Ptr} {n : Nat} {e : Extent}

namespace World
variable {w₀ w w' : World} {i : Nat} {m : BytesMut} {α : Type}

/-- Empty buffers lie at the dangling address in every state. -/
theorem run_dangling (initial : w₀.Initial) (run : JoinableRun A w₀ w) : w.heap.mem.extent 0 = some dangling := by
  induction run with
  | refl => exact initial.dangling
  | tail before step ih =>
    obtain ⟨op,joinable,step⟩ := step
    obtain ⟨_,later⟩ := step_sound (run_sound initial before) joinable step
    rcases later.extent 0 _ ih with kept | ⟨writable,_⟩
    · exact kept
    · cases writable

/-- The operation joins nothing. -/
def Plain : Op → Prop
  | .unsplit _ _ => False
  | .try_unsplit _ _ => False
  | _ => True

instance : DecidablePred Plain := fun op => by
  cases op <;> first | exact .isTrue trivial | exact .isFalse id

theorem joinable_of_plain {op : Op} (plain : Plain op) : w.Joinable op := by
  cases op <;> trivial

theorem JoinableRun.run (run : JoinableRun A w₀ w) : Run A w₀ w := by
  refine Relation.ReflTransGen.mono ?_ _ _ run
  rintro _ _ ⟨op,_,step⟩
  exact ⟨op,step⟩

theorem plain_run {ops : List Op} (plain : ∀ op ∈ ops, Plain op) (played : play A ops w = some w') : JoinableRun A w w' :=
  play_run (fun op mem _ _ step => ⟨op,joinable_of_plain (plain op mem),step⟩) played

/-- A call on a `BytesMut` that keeps its view. -/
theorem call_kept (A : Allocator) {y : Method BytesMut α} {Q : α → Heap × BytesMut → Prop} {E : Stop → Heap → Prop} (sound : w.Sound)
    (empty : w.heap.mem.extent 0 = some dangling) (here : w.slot i = some (.bytesMut m))
    (spec : ∀ v e, m.Lies w.heap e → (Handle.bytesMut m).view w.heap = some v →
      Tcio.Sound w.heap [] (.bytesMut m :: w.rest i) → Sat y (w.heap,m)
        (fun a p => Turns A w.heap (w.rest i) p.1 [] [(.bytesMut p.2,v)] ∧ Q a p) (fun k p => E k p.1)) :
    Sat (call i missing y) w (fun a w' => ∃ m', w'.slot i = some (.bytesMut m') ∧ Settles A w w' w.views ∧
      Q a (w'.heap,m')) (fun k w' => E k w'.heap) := by
  obtain ⟨v,viewed,view,focused⟩ := sound.focus here
  obtain ⟨e,lies⟩ := BytesMut.lies focused empty
  refine sat_call_mut (fun m' here' => ?_) (fun none => absurd ⟨m,here⟩ none)
  cases here.symm.trans here'
  refine (spec v e lies view focused).mono ?_ (fun _ _ => id)
  rintro a p ⟨turns,holds⟩
  have settles := settle_set here turns
  rw [set_view viewed] at settles
  refine ⟨p.2,?_,settles,holds⟩
  have inside := (List.getElem?_eq_some_iff.mp (slot_eq_some.mp here)).1
  rw [slot_eq_some]
  exact List.getElem?_set_self inside

/-- A handle that keeps its buffer lies in the same allocation. -/
theorem still_lies {m' : BytesMut} {V : List (Option (List UInt8))} (settles : Settles A w w' V) (empty : w.heap.mem.extent 0 = some dangling)
    (there : w'.slot i = some (.bytesMut m')) (lies : m.Lies w.heap e) (same : m'.ptr.prov = m.ptr.prov) : m'.Lies w'.heap e := by
  obtain ⟨_,_,_,focused⟩ := settles.sound.focus there
  have empty' : w'.heap.mem.extent 0 = some dangling := (settles.later.extent 0 _ empty).resolve_right (by simp [dangling])
  obtain ⟨e',lies'⟩ := BytesMut.lies focused empty'
  have kept := settles.later.extent _ _ lies.extent
  rw [← same,lies'.extent] at kept
  rcases kept with kept | ⟨_,gone⟩
  · cases kept
    exact lies'
  · cases gone

/-! ### The calls on a slot -/

theorem exec_try_reclaim (sound : w.Sound) (empty : w.heap.mem.extent 0 = some dangling) (here : w.slot i = some (.bytesMut m)) :
    Sat (exec A (.try_reclaim i n)) w (fun out w' => ∃ ok m', out = .flag ok ∧ w'.slot i = some (.bytesMut m') ∧
        w'.views = w.views ∧ m'.len = m.len ∧ w.heap.Quiet w'.heap ∧
        (n ≤ m.cap-m.len ∧ ok = true ∧ m' = m ∨ m.cap-m.len < n ∧ m.Reclaim w.heap n ok m'))
      (fun k _ => k = .panic ∧ m.cap-m.len < n ∧ isizeMax < wrap (n+m.cap)) := by
  simp only [exec,sat_bind,sat_pure]
  refine (call_kept A (Q := fun ok p => n ≤ m.cap-m.len ∧ ok = true ∧ p = (w.heap,m) ∨
      m.cap-m.len < n ∧ m.Reclaims w.heap n ok p)
    (E := fun k _ => k = .panic ∧ m.cap-m.len < n ∧ isizeMax < wrap (n+m.cap)) sound empty here ?_).mono ?_ (fun _ _ => id)
  · intro v e lies view focused
    refine ((BytesMut.try_reclaim_spec focused view).and (BytesMut.try_reclaim_reclaims lies)).mono ?_ ?_
    · rintro ok p ⟨⟨turns,_⟩,holds⟩
      exact ⟨turns,holds⟩
    · rintro k p ⟨⟨panic,_⟩,large⟩
      exact ⟨panic,large panic⟩
  · rintro ok w' ⟨m',there,settles,⟨enough,yes,same⟩ | ⟨less,_,quiet,reclaim⟩⟩
    · obtain ⟨still,rfl⟩ := Prod.mk.inj same
      exact ⟨ok,m',rfl,there,settles.views,rfl,by rw [still]; exact .refl _,.inl ⟨enough,yes,rfl⟩⟩
    · exact ⟨ok,m',rfl,there,settles.views,reclaim.len,quiet,.inr ⟨less,reclaim⟩⟩

theorem exec_try_reclaim_full (sound : w.Sound) (empty : w.heap.mem.extent 0 = some dangling) (here : w.slot i = some (.bytesMut m))
    (lies : m.Lies w.heap e) : Sat (exec A (.try_reclaim_full i)) w (fun out w' => ∃ ok m', out = .flag ok ∧
        w'.slot i = some (.bytesMut m') ∧ w'.views = w.views ∧ w.heap.Quiet w'.heap ∧ m'.Lies w'.heap e ∧
        (m.len = e.size ∧ ok = true ∧ m' = m ∨ m.len < e.size ∧ wrap (e.size-m.len+m.cap) ≤ isizeMax ∧
          m.Reclaim w.heap (e.size-m.len) ok m'))
      (fun k _ => k = .panic ∧ m.len < e.size ∧ isizeMax < wrap (e.size-m.len+m.cap)) := by
  simp only [exec,sat_bind,sat_pure]
  refine (call_kept A (Q := fun ok p => m.len = e.size ∧ ok = true ∧ p = (w.heap,m) ∨
      m.len < e.size ∧ m.Reclaims w.heap (e.size-m.len) ok p)
    (E := fun k _ => k = .panic ∧ m.len < e.size ∧ isizeMax < wrap (e.size-m.len+m.cap)) sound empty here ?_).mono ?_
    (fun _ _ => id)
  · intro v e' lies' view focused
    refine ((BytesMut.try_reclaim_full_spec focused view).and (BytesMut.try_reclaim_full_reclaims lies)).mono ?_ ?_
    · rintro ok p ⟨⟨turns,_⟩,holds⟩
      exact ⟨turns,holds⟩
    · rintro k p ⟨⟨panic,_⟩,large⟩
      exact ⟨panic,large panic⟩
  · rintro ok w' ⟨m',there,settles,⟨enough,yes,same⟩ | ⟨less,fine,quiet,reclaim⟩⟩
    · obtain ⟨still,rfl⟩ := Prod.mk.inj same
      exact ⟨ok,m',rfl,there,settles.views,by rw [still]; exact .refl _,by rw [still]; exact lies,.inl ⟨enough,yes,rfl⟩⟩
    · exact ⟨ok,m',rfl,there,settles.views,quiet,still_lies settles empty there lies reclaim.prov,.inr ⟨less,fine,reclaim⟩⟩

theorem exec_reserve (sound : w.Sound) (empty : w.heap.mem.extent 0 = some dangling) (here : w.slot i = some (.bytesMut m)) :
    Sat (exec A (.reserve i n)) w (fun _ w' => ∃ m', w'.slot i = some (.bytesMut m') ∧ Settles A w w' w.views ∧
        m'.len = m.len ∧ (m.len+n < 2^64 → n ≤ m'.cap-m.len) ∧ (n ≤ m.cap-m.len ∧ w'.heap = w.heap ∨
          m.cap-m.len < n ∧ wrap (n+m.cap) ≤ isizeMax ∧ m.Gains w.heap n true true (w'.heap,m')))
      (fun k w' => k = .panic ∧ m.cap-m.len < n ∧ w.heap.Quiet w'.heap ∧
        (isizeMax < wrap (n+m.cap) ∨ ∃ r, m.Reclaim w.heap n false r ∧ isizeMax < r.demand n)) := by
  simp only [exec,sat_bind,sat_pure]
  refine (call_kept A (Q := fun _ p => p.2.len = m.len ∧ (m.len+n < 2^64 → n ≤ p.2.cap-m.len) ∧
      (n ≤ m.cap-m.len ∧ p = (w.heap,m) ∨ m.cap-m.len < n ∧ wrap (n+m.cap) ≤ isizeMax ∧ m.Gains w.heap n true true p))
    (E := fun k H' => k = .panic ∧ m.cap-m.len < n ∧ w.heap.Quiet H' ∧
      (isizeMax < wrap (n+m.cap) ∨ ∃ r, m.Reclaim w.heap n false r ∧ isizeMax < r.demand n)) sound empty here ?_).mono ?_
    (fun _ _ => id)
  · intro v e lies view focused
    refine ((BytesMut.reserve_spec focused view).and (BytesMut.reserve_gains lies)).mono ?_ ?_
    · rintro _ p ⟨⟨turns,len,_,more⟩,holds⟩
      exact ⟨turns,len,more,holds⟩
    · rintro k p ⟨⟨panic,_⟩,large⟩
      exact ⟨panic,large panic⟩
  · rintro _ w' ⟨m',there,settles,len,more,⟨enough,same⟩ | gained⟩
    · obtain ⟨still,rfl⟩ := Prod.mk.inj same
      exact ⟨m',there,settles,len,more,.inl ⟨enough,still⟩⟩
    · exact ⟨m',there,settles,len,more,.inr gained⟩

/-! ### What `try_reclaim` tells -/

/-- The capacity behind the view and the tail are enough together, but neither is alone,
    and the bytes cannot be moved to the start of the buffer. -/
def Overlooked (H : Heap) (m : BytesMut) (n : Nat) : Prop :=
  m.unique H = true ∧ m.cap-m.len < n ∧ m.tail H < n ∧ n ≤ m.cap-m.len+m.tail H ∧ m.head H < m.len

instance (H : Heap) (m : BytesMut) (n : Nat) : Decidable (Overlooked H m n) := inferInstanceAs (Decidable (_ ∧ _))

/-- `try_reclaim` allocates nothing, keeps the view, gives no capacity up and tells whether
    there is room now; `reserve` allocates only where `try_reclaim` does not make room. -/
structure ReclaimsWell (A : Allocator) (w : World) (i n : Nat) (m : BytesMut) : Prop where
  reclaims : ∃ ok w' m', exec A (.try_reclaim i n) w = (.ok (.flag ok),w') ∧ w'.slot i = some (.bytesMut m') ∧
    w.heap.Quiet w'.heap ∧ w'.views = w.views ∧ m'.len = m.len ∧ m.cap ≤ m'.cap ∧ (ok = true ↔ n ≤ m'.cap-m'.len)
  allocates : ∀ r w', exec A (.reserve i n) w = (r,w') → w'.heap.mem.bound ≠ w.heap.mem.bound →
    ∀ r' w'' m'', exec A (.try_reclaim i n) w = (r',w'') → w''.slot i = some (.bytesMut m'') → m''.cap-m''.len < n

/-- `try_reclaim` tells the truth exactly where nothing is overlooked. -/
theorem reclaims_well_iff (initial : w₀.Initial) (run : JoinableRun A w₀ w) (here : w.slot i = some (.bytesMut m))
    (small : m.cap+n ≤ isizeMax) : ReclaimsWell A w i n m ↔ ¬ Overlooked w.heap m n := by
  have sound := run_sound initial run
  have empty := run_dangling initial run
  have low : ¬ isizeMax < wrap (n+m.cap) := by
    have := BytesMut.wrap_le (n+m.cap)
    omega
  obtain ⟨out,w',ran,ok,m',rfl,there,views,len,quiet,gained⟩ | ⟨_,_,_,stops⟩ := (exec_try_reclaim (A := A) (n := n) sound empty here).cases
  swap
  · exact absurd stops.2.2 low
  obtain ⟨_,_,_,focused⟩ := sound.focus here
  have fits : m.len ≤ m.cap := (focused.placed _ List.mem_cons_self).fits
  constructor
  · rintro ⟨⟨ok',w'',m'',ran',there',_,_,_,_,told⟩,_⟩ ⟨alone,less,tail,enough,near⟩
    cases ran.symm.trans ran'
    cases there.symm.trans there'
    rcases gained with ⟨enough',_⟩ | ⟨_,reclaim⟩
    · omega
    · cases reclaim with
      | shared other => simp [alone] at other
      | tail _ all => omega
      | moved _ _ _ far => omega
      | kept _ _ _ _ len cap =>
        cases told.mpr (by omega)
  · intro seen
    have told : m.cap ≤ m'.cap ∧ (ok = true ↔ n ≤ m'.cap-m'.len) := by
      rcases gained with ⟨enough,rfl,rfl⟩ | ⟨less,reclaim⟩
      · exact ⟨Nat.le_refl _,by simp [enough]⟩
      · cases reclaim with
        | shared => exact ⟨Nat.le_refl _,by simp; omega⟩
        | tail _ enough _ len cap => exact ⟨by omega,by simp; omega⟩
        | moved _ _ enough _ _ len cap => exact ⟨by omega,by simp; omega⟩
        | kept alone less' short _ len cap =>
          refine ⟨by omega,?_⟩
          have : ¬ n ≤ m.cap-m.len+m.tail w.heap := fun enough => seen ⟨alone,less,less',enough,by omega⟩
          simp
          omega
    refine ⟨⟨ok,w',m',ran,there,quiet,views,len,told⟩,?_⟩
    intro r w₁ reserved new r' w₂ m₂ ran' there'
    cases ran.symm.trans ran'
    cases there.symm.trans there'
    have gains := exec_reserve (A := A) (n := n) sound empty here
    cases r with
    | error k =>
      rw [sat_of_error reserved] at gains
      exact absurd gains.2.2.1.1 new
    | ok out =>
      rw [sat_of_ok reserved] at gains
      obtain ⟨_,_,_,_,_,⟨_,same⟩ | ⟨less,_,⟨quiet,_⟩ | ⟨_,_,r,reclaim,_⟩⟩⟩ := gains
      · exact absurd (by rw [same]) new
      · exact absurd quiet.1 new
      · rcases gained with ⟨enough,_⟩ | ⟨_,reclaim'⟩
        · omega
        · cases reclaim.agree reclaim'
          have := told.2
          simp only [Bool.false_eq_true,false_iff] at this
          omega

/-- A buffer of eight bytes of which two were split off and given back. -/
def shortened : List Op := [.vec [1,2,3] 5,.bytes_mut_from_vec 0,.split_off 1 6,.drop 2]

theorem shortened_slot : (play (bump 0) shortened (start [])).map (fun w => (w.slot 1,decide (Overlooked w.heap
    ⟨⟨16,2⟩,3,6,⟨8,0⟩⟩ 4),decide (Overlooked w.heap ⟨⟨16,2⟩,3,6,⟨8,0⟩⟩ 3))) =
    some (some (.bytesMut ⟨⟨16,2⟩,3,6,⟨8,0⟩⟩),true,false) := by
  decide +kernel

theorem shortened_run : ∃ w, JoinableRun (bump 0) (start []) w ∧ w.slot 1 = some (.bytesMut ⟨⟨16,2⟩,3,6,⟨8,0⟩⟩) ∧
    Overlooked w.heap ⟨⟨16,2⟩,3,6,⟨8,0⟩⟩ 4 ∧ ¬ Overlooked w.heap ⟨⟨16,2⟩,3,6,⟨8,0⟩⟩ 3 := by
  obtain ⟨w,played,found⟩ := Option.map_eq_some_iff.mp shortened_slot
  simp only [Prod.mk.injEq,decide_eq_true_eq,decide_eq_false_iff_not] at found
  exact ⟨w,plain_run (by decide) played,found⟩

theorem reclaims_well_shortened : ∃ w, JoinableRun (bump 0) (start []) w ∧
    ReclaimsWell (bump 0) w 1 3 ⟨⟨16,2⟩,3,6,⟨8,0⟩⟩ := by
  obtain ⟨w,run,here,_,fine⟩ := shortened_run
  exact ⟨w,run,(reclaims_well_iff (start_initial []) run here (by decide)).mpr fine⟩

/-- Of the three bytes of spare capacity and the two of the tail, four are refused. -/
theorem shortened_overlooked : ¬ ∀ (A : Allocator) (w₀ w : World), w₀.Initial → Run A w₀ w → ∀ i n m,
    w.slot i = some (.bytesMut m) → m.cap+n ≤ isizeMax → ReclaimsWell A w i n m := by
  intro claim
  obtain ⟨w,run,here,overlooked,_⟩ := shortened_run
  have well := claim _ _ w (start_initial []) run.run 1 4 _ here (by decide)
  exact (reclaims_well_iff (start_initial []) run here (by decide)).mp well overlooked

/-! ### What `try_reclaim_full` tells -/

/-- The handle has the whole of its allocation. -/
def Whole (H : Heap) (m : BytesMut) : Prop :=
  ∃ e, H.mem.extent m.ptr.prov = some e ∧ m.ptr.addr = e.base ∧ m.cap = e.size

/-- Something is asked for, and that is too much for the check against overflow, or the
    handle starts where its allocation does and will have all of it without a move. -/
def Misjudged (H : Heap) (m : BytesMut) : Prop :=
  ∃ e, H.mem.extent m.ptr.prov = some e ∧ m.len < e.size ∧ (isizeMax < e.size-m.len+m.cap ∨
    m.ptr.addr = e.base ∧ if m.unique H = true then 0 < m.len ∧ m.len < m.cap else m.cap = e.size)

/-- `try_reclaim_full` allocates nothing, keeps the view and tells whether the handle has
    the whole of its allocation now. -/
def ReclaimsFully (A : Allocator) (w : World) (i : Nat) : Prop :=
  ∃ ok w' m', exec A (.try_reclaim_full i) w = (.ok (.flag ok),w') ∧ w'.slot i = some (.bytesMut m') ∧
    w.heap.Quiet w'.heap ∧ w'.views = w.views ∧ (ok = true ↔ Whole w'.heap m')

/-- Whether it tells that it gained everything, by where it lies and what it asks for. -/
theorem whole_iff {m' : BytesMut} (lies : m'.Lies H e) : Whole H m' ↔ m'.ptr.addr = e.base ∧ m'.cap = e.size := by
  simp [Whole,lies.extent]

theorem misjudged_iff (lies : m.Lies H e) : Misjudged H m ↔ m.len < e.size ∧ (isizeMax < e.size-m.len+m.cap ∨
    m.ptr.addr = e.base ∧ if m.unique H = true then 0 < m.len ∧ m.len < m.cap else m.cap = e.size) := by
  simp [Misjudged,lies.extent]

/-- `try_reclaim_full` tells the truth exactly where it does not misjudge. -/
theorem reclaims_fully_iff (initial : w₀.Initial) (run : JoinableRun A w₀ w) (here : w.slot i = some (.bytesMut m)) :
    ReclaimsFully A w i ↔ ¬ Misjudged w.heap m := by
  have sound := run_sound initial run
  have empty := run_dangling initial run
  obtain ⟨_,_,_,focused⟩ := sound.focus here
  obtain ⟨e,lies⟩ := BytesMut.lies focused empty
  have fits := lies.fits
  have size := lies.size
  have small := lies.small
  have low := lies.low
  have head := lies.head
  have word : wrap (e.size-m.len+m.cap) = e.size-m.len+m.cap := BytesMut.wrap_eq (by rw [isizeMax] at small; omega)
  have tried := exec_try_reclaim_full (A := A) sound empty here lies
  rw [misjudged_iff lies]
  rcases tried.cases with ⟨out,w',ran,ok,m',rfl,there,views,quiet,lies',gained⟩ | ⟨k,w',ran,rfl,less,large⟩
  · have told : (ok = true ↔ Whole w'.heap m') ↔ ¬ (m.len < e.size ∧ (isizeMax < e.size-m.len+m.cap ∨
        m.ptr.addr = e.base ∧ if m.unique w.heap = true then 0 < m.len ∧ m.len < m.cap else m.cap = e.size)) := by
      rw [whole_iff lies']
      rcases gained with ⟨all,rfl,rfl⟩ | ⟨less,fine,reclaim⟩
      · refine iff_of_true ⟨fun _ => ⟨by omega,by omega⟩,fun _ => rfl⟩ (by omega)
      · rw [word] at fine
        cases reclaim with
        | shared other =>
          simp only [other,Bool.false_eq_true,↓reduceIte,false_iff]
          omega
        | tail alone enough ptr len cap =>
          simp only [alone,↓reduceIte,ptr,cap,true_iff]
          omega
        | moved alone less' _ far ptr len cap =>
          simp only [alone,↓reduceIte,ptr,Ptr.sub_addr,cap,true_iff]
          omega
        | kept alone less' short ptr len cap =>
          simp only [alone,Bool.false_eq_true,↓reduceIte,ptr,cap,false_iff]
          omega
    refine Iff.trans ⟨?_,fun told => ⟨ok,w',m',ran,there,quiet,views,told⟩⟩ told
    rintro ⟨_,_,_,ran',there',_,_,told⟩
    cases ran.symm.trans ran'
    cases there.symm.trans there'
    exact told
  · refine ⟨?_,fun fine => absurd ⟨less,.inl (by omega)⟩ fine⟩
    rintro ⟨_,_,_,ran',_⟩
    cases ran.symm.trans ran'

/-- A vector with room behind its bytes, as it is. -/
def roomy : List Op := [.vec [1,2,3] 5,.bytes_mut_from_vec 0,.bytes_mut_new]

theorem roomy_slots : (play (bump 0) roomy (start [])).map (fun w => (w.slot 1,w.slot 2,
    w.heap.mem.extent 2,w.heap.mem.extent 0)) =
    some (some (.bytesMut ⟨⟨16,2⟩,3,8,⟨1,0⟩⟩),some (.bytesMut ⟨⟨1,0⟩,0,0,⟨1,0⟩⟩),some ⟨16,8,false⟩,some ⟨1,0,true⟩) := by
  decide +kernel

theorem roomy_run : ∃ w, JoinableRun (bump 0) (start []) w ∧ w.slot 1 = some (.bytesMut ⟨⟨16,2⟩,3,8,⟨1,0⟩⟩) ∧
    w.slot 2 = some (.bytesMut ⟨⟨1,0⟩,0,0,⟨1,0⟩⟩) ∧ w.heap.mem.extent 2 = some ⟨16,8,false⟩ ∧
    w.heap.mem.extent 0 = some ⟨1,0,true⟩ := by
  obtain ⟨w,played,found⟩ := Option.map_eq_some_iff.mp roomy_slots
  simp only [Prod.mk.injEq] at found
  exact ⟨w,plain_run (by decide) played,found⟩

theorem reclaims_fully_roomy : ∃ w, JoinableRun (bump 0) (start []) w ∧ ReclaimsFully (bump 0) w 2 := by
  obtain ⟨w,run,_,here,_,empty⟩ := roomy_run
  refine ⟨w,run,(reclaims_fully_iff (start_initial []) run here).mpr ?_⟩
  rintro ⟨e,live,less,_⟩
  cases empty.symm.trans live
  simp at less

/-- A handle that has all of its vector already is told that it does not. -/
theorem roomy_misjudged : ¬ ∀ (A : Allocator) (w₀ w : World), w₀.Initial → Run A w₀ w → ∀ i m,
    w.slot i = some (.bytesMut m) → ReclaimsFully A w i := by
  intro claim
  obtain ⟨w,run,here,_,extent,_⟩ := roomy_run
  have fully := claim _ _ w (start_initial []) run.run 1 _ here
  exact (reclaims_fully_iff (start_initial []) run here).mp fully
    ⟨_,extent,by decide,.inr ⟨rfl,by simp [BytesMut.unique,hold]⟩⟩

/-! ### Requests near `usize::MAX` -/

/-- What `reserve` takes to be the capacity when it reallocates: the tail has been taken over. -/
def grown (H : Heap) (m : BytesMut) : Nat := m.cap+if m.unique H then m.tail H else 0

/-- The length and the request do not fit in a word, and twice the capacity can be allocated. -/
def Wraps (H : Heap) (m : BytesMut) (n : Nat) : Prop := 2^64 ≤ m.len+n ∧ 2*grown H m ≤ isizeMax

/-- Where `reserve` returns, and where `try_reclaim` returns true, there is room for what was
    asked for, and the view is what it was. -/
structure ReservesEnough (A : Allocator) (w : World) (i n : Nat) : Prop where
  reserve : ∀ out w', exec A (.reserve i n) w = (.ok out,w') →
    ∃ m', w'.slot i = some (.bytesMut m') ∧ n ≤ m'.cap-m'.len ∧ w'.views = w.views
  try_reclaim : ∀ w', exec A (.try_reclaim i n) w = (.ok (.flag true),w') →
    ∃ m', w'.slot i = some (.bytesMut m') ∧ n ≤ m'.cap-m'.len

/-- A request is met exactly where it does not wrap. -/
theorem reserves_enough_iff (initial : w₀.Initial) (run : JoinableRun A w₀ w) (here : w.slot i = some (.bytesMut m))
    (word : n < 2^64) : ReservesEnough A w i n ↔ ¬ Wraps w.heap m n := by
  have sound := run_sound initial run
  have empty := run_dangling initial run
  obtain ⟨_,_,_,focused⟩ := sound.focus here
  obtain ⟨e,lies⟩ := BytesMut.lies focused empty
  have fits := lies.fits
  have size := lies.size
  have small := lies.small
  have bound : grown w.heap m ≤ e.size := by
    unfold grown
    split <;> omega
  have limit : isizeMax = 2^63-1 := rfl
  -- a request that wraps is more than any buffer can hold
  have none : ∀ {ok m'}, 2^64 ≤ m.len+n → m.Reclaim w.heap n ok m' → ok = false := by
    intro ok m' wraps reclaim
    cases reclaim with
    | shared => rfl
    | kept => rfl
    | tail _ enough => omega
    | moved _ _ enough => omega
  have asked : ∀ {r}, 2^64 ≤ m.len+n → m.Reclaim w.heap n false r → (r.demand n ≤ isizeMax ↔ 2*grown w.heap m ≤ isizeMax) := by
    intro r wraps reclaim
    have cap : r.cap = grown w.heap m := reclaim.cap_of_false
    have len := reclaim.len
    have double : wrap (r.cap*2) = r.cap*2 := BytesMut.wrap_eq (by omega)
    have past : wrap (r.len+n) = r.len+n-2^64 := by
      rw [wrap]
      omega
    rw [BytesMut.demand,double,past]
    omega
  have reserved := exec_reserve (A := A) (n := n) sound empty here
  have tried := exec_try_reclaim (A := A) (n := n) sound empty here
  constructor
  · rintro ⟨enough,_⟩ ⟨wraps,room⟩
    rcases reserved.cases with ⟨out,w',ran,m',there,settles,_⟩ | ⟨_,_,_,_,_,_,large | ⟨r,reclaim,large⟩⟩
    · obtain ⟨m₂,there',enough,_⟩ := enough out w' ran
      cases there.symm.trans there'
      obtain ⟨_,_,_,focused'⟩ := settles.sound.focus there
      have := BytesMut.cap_small focused'
      omega
    · have past : wrap (n+m.cap) = n+m.cap-2^64 := by
        rw [wrap]
        omega
      omega
    · have := (asked wraps reclaim).mpr room
      omega
  · intro fine
    refine ⟨fun out w' ran => ?_,fun w' ran => ?_⟩
    · rw [sat_of_ok ran] at reserved
      obtain ⟨m',there,settles,len,more,gained⟩ := reserved
      refine ⟨m',there,?_,settles.views⟩
      rw [len]
      by_cases wraps : 2^64 ≤ m.len+n
      · rcases gained with ⟨enough,_⟩ | ⟨_,_,⟨_,reclaim,_⟩ | ⟨_,_,r,reclaim,demanded⟩⟩
        · omega
        · cases none wraps reclaim
        · exact absurd ⟨wraps,(asked wraps reclaim).mp demanded⟩ fine
      · exact more (by omega)
    · rw [sat_of_ok ran] at tried
      obtain ⟨ok,m',same,there,_,len,_,⟨enough,_,rfl⟩ | ⟨_,reclaim⟩⟩ := tried
      · exact ⟨m',there,enough⟩
      · cases same
        refine ⟨m',there,?_⟩
        cases reclaim with
        | tail _ _ _ len cap => omega
        | moved _ _ _ _ _ len cap => omega

theorem reserves_enough_roomy : ∃ w, JoinableRun (bump 0) (start []) w ∧ ReservesEnough (bump 0) w 1 100 := by
  obtain ⟨w,run,here,_⟩ := roomy_run
  refine ⟨w,run,(reserves_enough_iff (start_initial []) run here (by decide)).mpr ?_⟩
  rintro ⟨wraps,_⟩
  simp at wraps

/-- All of `usize::MAX` is granted. -/
theorem roomy_wraps : ¬ ∀ (A : Allocator) (w₀ w : World), w₀.Initial → Run A w₀ w → ∀ i n m,
    w.slot i = some (.bytesMut m) → n < 2^64 → ReservesEnough A w i n := by
  intro claim
  obtain ⟨w,run,here,_,extent,_⟩ := roomy_run
  have enough := claim _ _ w (start_initial []) run.run 1 (2^64-1) _ here (by decide)
  refine (reserves_enough_iff (start_initial []) run here (by decide)).mp enough ⟨by decide,?_⟩
  simp [grown,BytesMut.unique,hold,BytesMut.tail,extent,isizeMax]

end World
end Tcio
