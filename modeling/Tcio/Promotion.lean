import Tcio.RaceSpec

/-!
Many threads clone one unpromoted handle at the same time. Whatever the order of their
steps, they agree on one node, its count covers all live handles, and the buffer is freed
once, after the last handle is dropped.
-/
namespace Tcio
open Exec
namespace Race

variable {A : Allocator} {H : Heap} {b : Bytes} {shared : Ptr} {offset : Nat} {S : Race} {evs : List Event} {o : Option Ptr}
variable {w : World}

/-- What is to hold of a race on `b` after the events `evs`. -/
structure Agrees (A : Allocator) (b : Bytes) (evs : List Event) (S : Race) : Prop where
  /-- At most one candidate is installed, in the handle the race began with. -/
  once : (evs.filterMap Event.installed).length ≤ 1
  first : ∀ i shared, Event.installs i shared ∈ evs → i = 0
  /-- Once a call has returned a node is installed, which the returned handle carries. -/
  returned : ∀ r, Event.returns r ∈ evs → evs.filterMap Event.installed = [(0,r.data)]
  carried : ∀ shared, Event.installs 0 shared ∈ evs → ∀ (i : Nat) r, S.handles[i]? = some (some r) → r.data = shared
  counted : ∀ shared, Event.installs 0 shared ∈ evs → S.carrying shared ≤ S.ref_count shared ∧
    (S.clones = [] → S.drops = [] → S.ref_count shared = S.carrying shared)
  viewed : ∀ (i : Nat) r, S.handles[i]? = some (some r) →
    evs.countP Event.isFree = 0 ∧ (Handle.bytes r).view S.heap ≠ none
  freed_once : evs.countP Event.isFree ≤ 1
  /-- After the last handle is dropped the buffer has been freed. -/
  freed_last : (∀ h ∈ S.handles, h = none) → S.drops = [] → evs.countP Event.isFree = 1
  buffer : ∀ vec, Event.frees vec ∈ evs → vec.ptr.prov = b.ptr.prov
  /-- No turn touches what is not there; a count that overflows aborts. -/
  aborts : ∀ t k, S.move A t = some (.error k) → k = .abort ∧ S.Crowded

namespace Inv

theorem installs_iff {i : Nat} (inv : S.Inv H b offset o evs) : Event.installs i shared ∈ evs ↔ i = 0 ∧ o = some shared := by
  have member : (i,shared) ∈ evs.filterMap Event.installed ↔ Event.installs i shared ∈ evs := by
    rw [List.mem_filterMap]
    constructor
    · rintro ⟨e,mem,found⟩
      cases e <;> cases found
      exact mem
    · exact fun mem => ⟨_,mem,rfl⟩
  rw [← member,inv.installed]
  cases o with
  | none => simp
  | some p => simp [eq_comm]

theorem carrying (inv : S.Inv H b offset o evs) (done : o = some shared) : S.carrying shared = S.live := by
  refine List.countP_congr fun h mem => ?_
  obtain ⟨i,here⟩ := List.mem_iff_getElem?.mp mem
  cases h with
  | none => simp
  | some r => simp [(inv.word i r here).1,done]

theorem ref_count (inv : S.Inv H b offset o evs) (done : o = some shared) : S.ref_count shared = S.holders := by
  rw [Race.ref_count,(inv.node shared done).2]
  by_cases none : S.holders = 0
  · simp [none]
  · simp [none]

/-- A live handle views a part of what the first one views. -/
theorem viewed {v : List UInt8} {i : Nat} {r : Bytes} (inv : S.Inv H b offset o evs) (view : (Handle.bytes b).view H = some v)
    (here : S.handles[i]? = some (some r)) : (Handle.bytes r).view S.heap ≠ none := by
  obtain ⟨k,start,fits⟩ := (inv.word i r here).2
  have tail := Memory.load_drop view (show k ≤ b.len by omega)
  have part := Memory.load_take tail (show r.len ≤ b.len-k by omega)
  rw [Handle.view,(inv.not_freed here).2,show (Handle.bytes r).ptr = b.ptr.add k from start]
  intro none
  exact Option.some_ne_none _ (part.symm.trans none)

theorem agrees {v : List UInt8} (inv : S.Inv H b offset o evs) (word : hold b.data = .unpromoted offset)
    (spans : Spans H (b.ptr.sub offset) (b.len+offset)) (view : (Handle.bytes b).view H = some v) : Agrees A b evs S where
  once := by
    rw [inv.installed]
    cases o <;> simp
  first i shared mem := (inv.installs_iff.mp mem).1
  returned r mem := by rw [inv.installed,inv.returned r mem]; rfl
  carried shared mem i r here := by
    rw [(inv.word i r here).1,(inv.installs_iff.mp mem).2]
    rfl
  counted shared mem := by
    have done := (inv.installs_iff.mp mem).2
    rw [inv.carrying done,inv.ref_count done,holders]
    refine ⟨by omega,fun _ idle => ?_⟩
    rw [idle]
    rfl
  viewed i r here := ⟨(inv.not_freed here).1,inv.viewed view here⟩
  freed_once := by
    have := inv.once
    omega
  freed_last all idle := by
    have gone : S.holders = 0 := by
      have none_live : S.live = 0 := List.countP_eq_zero.mpr fun h mem => by simp [all h mem]
      rw [holders,none_live,idle]
      rfl
    have once := inv.once
    rw [gone,idle] at once
    simpa using once
  buffer vec mem := by rw [(inv.freed vec mem).1]; rfl
  aborts t k stops := by
    obtain ⟨same,crowded⟩ | ⟨_,_,same,_⟩ := inv.takes word spans stops
    · cases same
      exact ⟨rfl,crowded⟩
    · cases same

end Inv

/-- Turns that all can be taken, with their events. -/
def play (A : Allocator) : List Turn → Race → Option (List Event × Race)
  | [],S => some ([],S)
  | t :: ts,S =>
    match S.move A t with
    | some (.ok (new,S')) => (play A ts S').map fun (evs,S'') => (new++evs,S'')
    | _ => none

theorem play_run {S₀ S' : Race} {ts : List Turn} {new : List Event} (run : Run A S₀ evs S) (played : play A ts S = some (new,S')) :
    Run A S₀ (evs++new) S' := by
  induction ts generalizing S evs new with
  | nil =>
    cases played
    rwa [List.append_nil]
  | cons t ts ih =>
    rw [play] at played
    split at played
    · next one S₁ moved =>
      obtain ⟨⟨rest,S₂⟩,later,same⟩ := Option.map_eq_some_iff.mp played
      cases same
      rw [← List.append_assoc]
      exact ih (run.step moved) later
    · cases played

end Race
end Tcio
