import Tcio.Views

/-!
Who owns the buffers and the nodes in every state a run reaches, where the allocator
never places two buffers next to each other. A buffer and a node are there exactly as
long as a handle holds them, and the step that takes the last handle frees them.
-/
namespace Tcio
open Exec Ledger

/-- The handle alone owns the buffer it lies in: it is unpromoted, or a vector. -/
def Handle.Owns (h : Handle) (b : Nat) : Prop := h.claim = .sole b
/-- The data word of the handle is the node. -/
def Handle.Carries (h : Handle) (k : Nat) : Prop := hold h.data = .promoted ∧ h.data.prov = k

instance (h : Handle) (b : Nat) : Decidable (h.Owns b) := inferInstanceAs (Decidable (_ = _))
instance (h : Handle) (k : Nat) : Decidable (h.Carries k) := inferInstanceAs (Decidable (_ ∧ _))

/-- The node owns the buffer. -/
def NodeOwns (H : Heap) (k b : Nat) : Prop :=
  ∃ boxed, H.nodes.get k = some boxed ∧ boxed.shared.cap ≠ 0 ∧ boxed.shared.ptr.prov = b

namespace Handle
variable {h : Handle} {b k : Nat}

/-- It owns the buffer that it points into, and it has a capacity. -/
theorem owns_iff : h.Owns b ↔ ∃ offset, hold h.data = .unpromoted offset ∧ offset+h.room ≠ 0 ∧ h.ptr.prov = b := by
  unfold Owns
  cases word : hold h.data with
  | null => simp [claim_null word]
  | promoted => simp [claim_promoted word]
  | unpromoted offset =>
    rw [claim_unpromoted word,blockOf]
    split_ifs with none
    · simp only [Claim.ofBlock,reduceCtorEq,Hold.unpromoted.injEq,exists_eq_left',false_iff]
      exact fun owns => owns.1 none
    · simp only [Claim.ofBlock,Claim.sole.injEq,Hold.unpromoted.injEq,exists_eq_left',ne_eq,none,not_false_eq_true,true_and]

theorem carries_iff : h.Carries k ↔ h.claim = .share k := by
  unfold Carries
  cases word : hold h.data with
  | null => simp [claim_null word]
  | promoted => simp [claim_promoted word]
  | unpromoted offset =>
    rw [claim_unpromoted word,blockOf]
    split_ifs <;> simp [Claim.ofBlock]

theorem count_owns (L : List Handle) : (L.map claim).count (.sole b) = L.countP (·.Owns b) := by
  rw [List.count,List.countP_map]
  refine List.countP_congr fun h _ => ?_
  simp only [Function.comp_apply,beq_iff_eq,decide_eq_true_eq]
  rfl
theorem count_carries (L : List Handle) : (L.map claim).count (.share k) = L.countP (·.Carries k) := by
  rw [List.count,List.countP_map]
  refine List.countP_congr fun h _ => ?_
  simp only [Function.comp_apply,beq_iff_eq,decide_eq_true_eq,carries_iff]

end Handle

theorem nodeOwns_iff {H : Heap} {k b : Nat} : NodeOwns H k b ↔ ∃ n, entry H k = some (n,some b) := by
  simp only [entry_eq_some]
  constructor
  · rintro ⟨boxed,live,some',rfl⟩
    exact ⟨_,boxed,live,rfl,by rw [blockOf,if_neg some']⟩
  · rintro ⟨n,boxed,live,_,own⟩
    rw [blockOf] at own
    split_ifs at own with none
    exact ⟨boxed,live,none,by simpa using own⟩

namespace World
variable {A : Allocator} {w₀ w w' : World} {b k : Nat} {op : Op}

/-- Some handle owns the buffer, alone or through its node. -/
def Holds (w : World) (b : Nat) : Prop := ∃ h ∈ w.handles, h.Owns b ∨ ∃ k, h.Carries k ∧ NodeOwns w.heap k b
/-- Some handle carries the node. -/
def HoldsNode (w : World) (k : Nat) : Prop := ∃ h ∈ w.handles, h.Carries k

/-- Every buffer and every node has its owners. -/
structure Accounted (w : World) : Prop where
  /-- A buffer is owned by one unpromoted handle or by one node. -/
  buffer : ∀ b, Buffer w.heap b →
    (w.handles.countP (·.Owns b) = 1 ∧ ∀ k, ¬ NodeOwns w.heap k b) ∨
      (w.handles.countP (·.Owns b) = 0 ∧ ∃! k, NodeOwns w.heap k b)
  /-- A node counts the handles whose data word it is. -/
  node : ∀ k boxed, w.heap.nodes.get k = some boxed → boxed.shared.ref_count = w.handles.countP (·.Carries k)
  owned : ∀ b, Buffer w.heap b ↔ w.Holds b
  carried : ∀ k, w.heap.nodes.get k ≠ none ↔ w.HoldsNode k
  /-- What was given out and is not there any more was taken back once. -/
  freed : ∀ b, w.heap.mem.freed.count b = if b < w.heap.mem.bound ∧ w.heap.mem.get b = none then 1 else 0
  freedNode : ∀ k, w.heap.nodes.freed.count k = if k < w.heap.nodes.bound ∧ w.heap.nodes.get k = none then 1 else 0
  /-- A null data word owns nothing, and nothing but static memory is viewed through it. -/
  null : ∀ h ∈ w.handles, hold h.data = .null → (∀ b, ¬ h.Owns b) ∧ (∀ k, ¬ h.Carries k) ∧
    (0 < h.len → ¬ Buffer w.heap h.ptr.prov)

/-- Taken back in between exactly if `c`, and then for the first time. -/
def Freed (before after : List Nat) (i : Nat) (c : Prop) : Prop :=
  (c → before.count i = 0 ∧ after.count i = 1) ∧ (¬ c → after.count i = before.count i)

/-- What a step takes back is what it leaves without a handle. -/
structure Frees (w w' : World) : Prop where
  buffer : ∀ b, b < w.heap.mem.bound → Freed w.heap.mem.freed w'.heap.mem.freed b (w.Holds b ∧ ¬ w'.Holds b)
  node : ∀ k, k < w.heap.nodes.bound → Freed w.heap.nodes.freed w'.heap.nodes.freed k (w.HoldsNode k ∧ ¬ w'.HoldsNode k)

theorem mem_claims (sound : w.Sound) : Balanced (w.handles.map Handle.claim) (entry w.heap) (Buffer w.heap) := by
  have ledger := sound.ledger
  rwa [List.nil_append] at ledger

theorem Sound.accounted (sound : w.Sound) : w.Accounted := by
  have ledger := mem_claims sound
  have sole : ∀ {b}, .sole b ∈ w.handles.map Handle.claim ↔ ∃ h ∈ w.handles, h.Owns b := List.mem_map
  have shared : ∀ {k}, .share k ∈ w.handles.map Handle.claim ↔ w.HoldsNode k := by
    simp [HoldsNode,Handle.carries_iff]
  have carried : ∀ k, w.heap.nodes.get k ≠ none ↔ w.HoldsNode k := by
    intro k
    rw [← shared]
    constructor
    · intro live
      obtain ⟨boxed,live⟩ := Option.ne_none_iff_exists'.mp live
      obtain ⟨count,some'⟩ := ledger.counted _ _ _ (Shared.entry_of_get live)
      exact List.count_pos_iff.mp (by omega)
    · intro mem none
      obtain ⟨_,_,found⟩ := ledger.backed k mem
      simp [entry,none] at found
  constructor
  · intro b live
    rw [← Handle.count_owns]
    have once := ledger.soleOnce b
    by_cases mem : .sole b ∈ w.handles.map Handle.claim
    · have some' := List.count_pos_iff.mpr mem
      refine .inl ⟨by omega,fun k owns => ?_⟩
      obtain ⟨n,found⟩ := nodeOwns_iff.mp owns
      exact ledger.exclusive b k n mem found
    · obtain ⟨k,n,found⟩ := (ledger.owned b live).resolve_left mem
      refine .inr ⟨List.count_eq_zero.mpr mem,k,nodeOwns_iff.mpr ⟨n,found⟩,fun k' owns => ?_⟩
      obtain ⟨n',found'⟩ := nodeOwns_iff.mp owns
      exact ledger.nodeOnce k' k n' n b found' found
  · intro k boxed live
    rw [← Handle.count_carries]
    exact (ledger.counted _ _ _ (Shared.entry_of_get live)).1.symm
  · intro b
    constructor
    · intro live
      rcases ledger.owned b live with mem | ⟨k,n,found⟩
      · obtain ⟨h,mem,owns⟩ := sole.mp mem
        exact ⟨h,mem,.inl owns⟩
      · have owns := nodeOwns_iff.mpr ⟨n,found⟩
        obtain ⟨_,live,_⟩ := id owns
        obtain ⟨h,mem,carries⟩ := (carried k).mp (by simp [live])
        exact ⟨h,mem,.inr ⟨k,carries,owns⟩⟩
    · rintro ⟨h,mem,owns | ⟨k,_,owns⟩⟩
      · exact ledger.soleLive b (sole.mpr ⟨h,mem,owns⟩)
      · obtain ⟨n,found⟩ := nodeOwns_iff.mp owns
        exact ledger.nodeLive k n b found
  · exact carried
  · exact w.heap.mem.once
  · exact w.heap.nodes.once
  · intro h mem word
    refine ⟨fun b owns => ?_,fun k carries => ?_,fun some' => ?_⟩
    · simp [Handle.Owns,claim_null word] at owns
    · simp [Handle.Carries,word] at carries
    · rintro ⟨e,live,writable⟩
      obtain ⟨_,_,static⟩ := (sound.placed h mem).of_null word
      obtain ⟨_,e',live',frozen⟩ := static some'
      cases live.symm.trans live'
      simp [frozen] at writable

/-- The record of what was taken back, by what is there. -/
theorem freed_of_count {ν : Type} {a b : Arena ν} {i : Nat} {c : Prop} (later : a.Later b) (low : i < a.bound)
    (same : a.get i ≠ none ∧ b.get i = none ↔ c) : Freed a.freed b.freed i c := by
  have count := later.count low
  have before := a.once i
  constructor
  · intro holds
    have gone := same.mpr holds
    rw [if_neg (by simp [gone.1])] at before
    rw [if_pos gone,before] at count
    exact ⟨before,count⟩
  · intro holds
    rwa [if_neg (mt same.mp holds)] at count

/-- A step from a sound world to a sound one frees what it leaves without a handle. -/
theorem frees_of_later (sound : w.Sound) (sound' : w'.Sound) (later : w.heap.Later A w'.heap) : w.Frees w' where
  buffer b low := by
    refine freed_of_count later.mem low ?_
    rw [← sound.accounted.owned,← sound'.accounted.owned]
    constructor
    · rintro ⟨live,gone⟩
      have gone' := Memory.extent_eq_none.mpr gone
      obtain ⟨block,live⟩ := Option.ne_none_iff_exists'.mp live
      have extent := Memory.extent_eq_some.mpr ⟨block,live,rfl⟩
      rcases later.extent b _ extent with stays | ⟨writable,_⟩
      · rw [gone'] at stays
        cases stays
      · refine ⟨⟨_,extent,writable⟩,?_⟩
        rintro ⟨e,live',_⟩
        rw [gone'] at live'
        cases live'
    · rintro ⟨⟨e,live,writable⟩,gone⟩
      refine ⟨fun none => ?_,?_⟩
      · rw [Memory.extent_eq_none.mpr none] at live
        cases live
      · rcases later.extent b e live with stays | ⟨_,none⟩
        · exact absurd ⟨e,stays,writable⟩ gone
        · exact Memory.extent_eq_none.mp none
  node k low := by
    refine freed_of_count later.nodes low ?_
    rw [← sound.accounted.carried,← sound'.accounted.carried,not_not]

/-- In every state of a run all is accounted for, and nothing is left when no handle is
    left. The next step does not fault, and it frees what loses its last handle. -/
theorem run_accounted (spaced : A.Spaced 1) (initial : w₀.Initial) (run : Run A w₀ w) :
    w.Accounted ∧ (w.handles = [] → (∀ b, ¬ Buffer w.heap b) ∧ ∀ k, w.heap.nodes.get k = none) ∧
      ∀ op w', exec A op w ≠ (.error .fault,w') ∧ (Step A op w w' → w'.Accounted ∧ w.Frees w') := by
  obtain ⟨sound,spread⟩ := run_spaced spaced initial run
  have accounted := sound.accounted
  refine ⟨accounted,fun none => ⟨fun b live => ?_,fun k => ?_⟩,fun op w' => ⟨fun ran => ?_,fun step => ?_⟩⟩
  · obtain ⟨h,mem,_⟩ := (accounted.owned b).mp live
    rw [none] at mem
    cases mem
  · by_contra live
    obtain ⟨h,mem,_⟩ := (accounted.carried k).mp live
    rw [none] at mem
    cases mem
  · have refines := exec_refines A sound op (joinable_of_spread sound spread op)
    rw [Refines,sat_of_error ran] at refines
    exact refines
  · obtain ⟨sound',later⟩ := step_sound sound (joinable_of_spread sound spread op) step
    exact ⟨sound'.accounted,frees_of_later sound sound' later⟩

theorem halves_spaced : ∃ w, Run (bump 1) (start []) w ∧ w.handles.length = 2 := by
  have two : (play (bump 1) halves (start [])).map (fun w => w.handles.length) = some 2 := by decide +kernel
  obtain ⟨w,played,length⟩ := Option.map_eq_some_iff.mp two
  exact ⟨w,play_run (fun op _ w w' step => ⟨op,step⟩) played,length⟩

theorem run_accounted_halves : ∃ w, Run (bump 1) (start []) w ∧ w.handles.length = 2 ∧ w.Accounted := by
  obtain ⟨w,run,two⟩ := halves_spaced
  exact ⟨w,run,two,(run_accounted (bump_spaced 1) (start_initial []) run).1⟩

end World
end Tcio
