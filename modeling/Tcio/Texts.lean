import Tcio.ByteStrSpec

/-!
What the invariant of `ByteStr` is for: in every state that a run reaches the unchecked
conversions meet UTF-8, and what is cut off or borrowed is UTF-8 again.
-/
namespace Tcio
open Exec

namespace Strings
variable {A : Allocator} {w₀ : World} {t t' : Strings} {op : StrOp} {i : Nat}

theorem initial_sound (initial : w₀.Initial) : Sound ⟨w₀,[]⟩ := ⟨initial.sound,nofun⟩

theorem step_sound (sound : t.Sound) (allowed : t.Allowed op) (step : Step A op t t') : t'.Sound := by
  have kept := exec_keeps A sound op allowed
  rcases step with ⟨out,ran⟩ | ran
  · rwa [Keeps,sat_of_ok ran] at kept
  · rwa [Keeps,sat_of_error ran] at kept

theorem run_sound (initial : w₀.Initial) (run : Run A ⟨w₀,[]⟩ t) : t.Sound := by
  induction run with
  | refl => exact initial_sound initial
  | tail _ step ih =>
    obtain ⟨op,allowed,step⟩ := step
    exact step_sound ih allowed step

/-- The string that is asked for comes as a new `ByteStr`; one that does not lie inside the
    handle panics and leaves all values as they were. -/
def Borrows (A : Allocator) (t : Strings) (op : Str → StrOp) (i : Nat) : Prop :=
  ∀ str u, t.world.heap.mem.load str.ptr str.len = some u → Utf8 u → t.Agrees i str →
    Sat (exec A (op str)) t (fun _ t' => t.Inside i str ∧ t.Cuts A t' u)
      (fun k t' => k = .abort ∧ Crowded t.world.heap ∧ t.Inside i str ∨ k = .panic ∧ t' = t ∧ ¬ t.Inside i str)

/-- The `ByteStr` in a slot holds UTF-8, which its conversions return; it is cut at the
    boundaries of characters only. -/
structure HoldsText (A : Allocator) (t : Strings) (i : Nat) (s : ByteStr) (v : List UInt8) : Prop where
  here : t.world.slot i = some (.bytes s.bytes)
  viewed : t.world.views[i]? = some (some v)
  utf8 : Utf8 v
  as_str : s.as_str t.world.heap = (.ok v,t.world.heap)
  into_string : Sat (s.into_string A) t.world.heap (fun vec H => (Handle.vec vec).view H = some v) (fun _ _ => False)
  truncate : ∀ n ≤ v.length, Sat (exec A (.truncate i n)) t
    (fun _ t' => Utf8.is_char_boundary v n ∧ t.Acts A t' i (v.take n))
    (fun k t' => k = .abort ∧ Crowded t.world.heap ∨ k = .panic ∧ t' = t ∧ ¬ Utf8.is_char_boundary v n)
  slice_ref : t.Borrows A (.slice_ref i) i

theorem Sound.holds_text (sound : t.Sound) (mem : i ∈ t.texts) : ∃ s v, t.HoldsText A i s v := by
  obtain ⟨b,v,here,viewed,view,valid,focused⟩ := sound.focus mem
  refine ⟨⟨b⟩,v,here,viewed,valid,ByteStr.as_str_ok view valid,?_,?_,?_⟩
  · exact (ByteStr.into_string_spec focused view valid).mono (fun _ _ turns => turns.view) (fun _ _ => id)
  · intro n inside
    obtain ⟨v',viewed',_,spec⟩ := truncate_spec (A := A) (n := n) sound mem
    cases viewed.symm.trans viewed'
    refine spec.mono (fun _ _ post => ⟨post.1 inside,post.2.1⟩) ?_
    rintro k t' (crowded | ⟨rfl,same,_,other⟩)
    · exact .inl crowded
    · exact .inr ⟨rfl,same,other⟩
  · exact fun str u loaded valid agrees => (slice_ref_spec sound mem loaded valid agrees).mono (fun _ _ => And.left) (fun _ _ => id)

/-- In every state of a run each `ByteStr` holds UTF-8, and a part of any `Bytes` becomes one
    that holds the string that was given. -/
theorem run_utf8 (initial : w₀.Initial) (run : Run A ⟨w₀,[]⟩ t) :
    (∀ i ∈ t.texts, ∃ s v, t.HoldsText A i s v) ∧
      ∀ i ∉ t.texts, t.world.HasBytes i → t.Borrows A (.from_slice_of i) i := by
  have sound := run_sound initial run
  refine ⟨fun i mem => sound.holds_text mem,?_⟩
  rintro i other ⟨b,here⟩ str u loaded valid agrees
  exact (from_slice_of_spec sound other here loaded valid agrees).mono (fun _ _ => And.left) (fun _ _ => id)

/-- A `ByteStr` of the bytes of "aé". -/
def accent : Except Stop Outcome × Strings := exec (bump 0) (.copy_from_str [97,195,169]) ⟨World.start [],[]⟩

theorem accent_texts : accent.1.toOption = some .done ∧ accent.2.texts = [0] := by decide +kernel

theorem run_utf8_accent : ∃ t, Run (bump 0) ⟨World.start [],[]⟩ t ∧ 0 ∈ t.texts ∧ ∃ s v, t.HoldsText (bump 0) 0 s v := by
  obtain ⟨done,texts⟩ := accent_texts
  have run : Run (bump 0) ⟨World.start [],[]⟩ accent.2 := by
    refine .single ⟨.copy_from_str [97,195,169],trivial,.inl ⟨.done,?_⟩⟩
    show accent = _
    rcases ran : accent with ⟨_ | out,t⟩ <;> rw [ran] at done
    · cases done
    · cases done
      rfl
  have mem : 0 ∈ accent.2.texts := by simp [texts]
  exact ⟨accent.2,run,mem,(run_utf8 (World.start_initial []) run).1 0 mem⟩

/-- Cut behind its first character it is "a"; inside the second it is not cut. -/
example : ((exec (bump 0) (.truncate 0 1) accent.2).2.world.views,(exec (bump 0) (.truncate 0 2) accent.2).2.world.views) =
    ([some [97]],[some [97,195,169]]) := by decide +kernel

end Strings
end Tcio
