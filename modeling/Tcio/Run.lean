import Tcio.Refinement
import Tcio.Bump

/-!
What holds in every state a run reaches. As long as no step joins two handles that are
not on the same node, the heap is sound and every operation refines what it means for
the views. Where the allocator never places two buffers next to each other, no step
can join such handles.
-/
namespace Tcio
open Exec Ledger

namespace World
variable {A : Allocator} {w₀ w w' : World} {op : Op} {i j : Nat}

/-- A run that never joins two handles that are not on the same node. -/
def JoinableRun (A : Allocator) : World → World → Prop :=
  Relation.ReflTransGen fun w w' => ∃ op, w.Joinable op ∧ Step A op w w'

theorem Initial.sound (initial : w.Initial) : w.Sound := by
  have none : w.handles = [] := by simp [handles,initial.pool]
  unfold Sound
  rw [none]
  constructor
  · constructor
    · intro k n o found
      simp [entry,initial.nodes] at found
    · intro k bad
      cases bad
    · intro k bad
      cases bad
    · intro k n b found
      simp [entry,initial.nodes] at found
    · rintro b ⟨e,live,writable⟩
      simp [initial.static b e live] at writable
    · simp
    · intro k k' n n' b found
      simp [entry,initial.nodes] at found
    · intro k b n bad
      cases bad
  · intro k boxed live
    simp [initial.nodes] at live
  · intro h bad
    cases bad
  · exact .nil

theorem Initial.spread (initial : w.Initial) (gap : Nat) : w.heap.Spread gap where
  low i e live writable := by simp [initial.static i e live] at writable
  apart i _ e _ _ live writable := by simp [initial.static i e live] at writable

/-- One step of a run keeps the heap sound. -/
theorem step_sound (sound : w.Sound) (joinable : w.Joinable op) (step : Step A op w w') :
    w'.Sound ∧ w.heap.Later A w'.heap := by
  have refines := exec_refines A sound op joinable
  rcases step with ⟨out,ran⟩ | ran
  · rw [Refines,sat_of_ok ran] at refines
    obtain ⟨_,settles,_⟩ := refines
    exact ⟨settles.sound,settles.later⟩
  · rw [Refines,sat_of_error ran] at refines
    exact ⟨refines.1.sound,refines.1.later⟩

theorem run_sound (initial : w₀.Initial) (run : JoinableRun A w₀ w) : w.Sound := by
  induction run with
  | refl => exact initial.sound
  | tail _ step ih =>
    obtain ⟨op,joinable,step⟩ := step
    exact (step_sound ih joinable step).1

/-! ### Allocators that leave a gap -/

/-- Handles on different nodes do not meet where no two buffers meet. -/
theorem joinable_of_spread (sound : w.Sound) (spread : w.heap.Spread 1) (op : Op) : w.Joinable op := by
  have apart : ∀ i j m o, w.slot i = some (.bytesMut m) → w.slot j = some (.bytesMut o) → ¬ m.Misjoins o := by
    rintro i j m o here there ⟨some',⟨next,even,even'⟩,other⟩
    obtain ⟨_,_,_,one⟩ := sound.focus here
    obtain ⟨_,_,_,two⟩ := sound.focus there
    have placed := one.placed _ List.mem_cons_self
    have placed' := two.placed _ List.mem_cons_self
    obtain ⟨boxed,live,addr,prov,low,high⟩ := placed.of_promoted (BytesMut.promoted_of_joins placed even)
    obtain ⟨boxed',live',addr',prov',low',high'⟩ := placed'.of_promoted (BytesMut.promoted_of_joins placed' even')
    simp only [Handle.data,Handle.region,Handle.ptr,Handle.room] at live addr prov low high live' addr' prov' low' high'
    have fits : m.len ≤ m.cap := placed.fits
    obtain ⟨_,_,spans⟩ := sound.nodes _ _ live
    obtain ⟨_,_,spans'⟩ := sound.nodes _ _ live'
    have extent' := spans'.live (by omega)
    simp only [Ptr.add] at next
    by_cases none : boxed.shared.cap = 0
    · -- an empty buffer lies at the dangling address
      have least := spread.low _ _ extent' rfl
      rcases spans with ⟨_,dangles⟩ | ⟨more,_⟩
      · simp only [dangles,Vec.new] at low high
        simp only at least
        omega
      · omega
    · have extent := spans.live (by omega)
      have different : boxed.shared.ptr.prov ≠ boxed'.shared.ptr.prov := by
        intro same
        have nodes : m.data.prov = o.data.prov := by
          refine sound.ledger.nodeOnce _ _ boxed.shared.ref_count boxed'.shared.ref_count boxed.shared.ptr.prov ?_ ?_
          · exact entry_eq_some.mpr ⟨boxed,live,rfl,by rw [blockOf,if_neg none]⟩
          · exact entry_eq_some.mpr ⟨boxed',live',rfl,by rw [blockOf,if_neg (by omega),same]⟩
        rw [nodes] at live
        cases live.symm.trans live'
        exact other (Ptr.ext (addr.symm.trans addr') nodes)
      have separate := spread.apart _ _ _ _ different extent rfl extent' rfl
      simp only at separate
      omega
  cases op <;> simp only [Joinable]
  case unsplit i j => exact fun m o here there => .inr (apart i j m o here there)
  case try_unsplit i j => exact fun m o here there => apart i j m o here there

theorem run_spaced (spaced : A.Spaced 1) (initial : w₀.Initial) (run : Run A w₀ w) : w.Sound ∧ w.heap.Spread 1 := by
  induction run with
  | refl => exact ⟨initial.sound,initial.spread 1⟩
  | tail _ step ih =>
    obtain ⟨op,step⟩ := step
    obtain ⟨sound,later⟩ := step_sound ih.1 (joinable_of_spread ih.1 ih.2 op) step
    exact ⟨sound,later.spread 1 spaced ih.2⟩

end World
end Tcio
