import Tcio.Run

/-!
What a run does to the views, and what `try_unsplit` joins. It tells by the addresses
that one handle begins where the other ends and not whether both are on one node: where
two buffers meet it joins handles of different buffers, and then drops the second one.
-/
namespace Tcio
open Exec Ledger

namespace World
variable {A : Allocator} {w₀ w w' : World} {i j : Nat} {m o : BytesMut}

/-! ### Views along a run -/

/-- In a run that only joins handles of one node, every operation does to the views what
    it stands for. -/
theorem run_refines (initial : w₀.Initial) (run : JoinableRun A w₀ w) (op : Op) (joinable : w.Joinable op) :
    w.Refines A op :=
  exec_refines A (run_sound initial run) op joinable

/-- Two halves of one buffer, which `unsplit` joins again. -/
def halves : List Op := [.vec [1,2,3] 1,.bytes_mut_from_vec 0,.split_off 1 2]

theorem halves_slots : (play (bump 0) halves (start [])).map (fun w => (w.slot 1,w.slot 2)) =
    some (some (.bytesMut ⟨⟨16,2⟩,2,2,⟨8,0⟩⟩),some (.bytesMut ⟨⟨18,2⟩,1,2,⟨8,0⟩⟩)) := by
  decide +kernel

theorem halves_run : ∃ w, JoinableRun (bump 0) (start []) w ∧ w.slot 1 = some (.bytesMut ⟨⟨16,2⟩,2,2,⟨8,0⟩⟩) ∧
    w.slot 2 = some (.bytesMut ⟨⟨18,2⟩,1,2,⟨8,0⟩⟩) := by
  obtain ⟨w,played,slots⟩ := Option.map_eq_some_iff.mp halves_slots
  simp only [Prod.mk.injEq] at slots
  refine ⟨w,play_run (fun op mem w w' step => ⟨op,?_,step⟩) played,slots⟩
  simp only [halves,List.mem_cons,List.not_mem_nil,or_false] at mem
  rcases mem with rfl | rfl | rfl <;> trivial

theorem run_refines_halves : ∃ w, JoinableRun (bump 0) (start []) w ∧ w.Refines (bump 0) (.unsplit 1 2) := by
  obtain ⟨w,run,one,two⟩ := halves_run
  refine ⟨w,run,run_refines (start_initial []) run _ ?_⟩
  intro m o here there
  cases one.symm.trans here
  cases two.symm.trans there
  exact .inr (by decide)

/-- Where buffers never meet, that is every run. -/
theorem spaced_refines (spaced : A.Spaced 1) (initial : w₀.Initial) (run : Run A w₀ w) (op : Op) : w.Refines A op := by
  obtain ⟨sound,spread⟩ := run_spaced spaced initial run
  exact exec_refines A sound op (joinable_of_spread sound spread op)

/-- Two vectors one right behind the other, each turned over to a node of its own. -/
def meeting : List Op := [.vec [1,2] 0,.bytes_mut_from_vec 0,.vec [3] 0,.bytes_mut_from_vec 2,
  .split_off 1 2,.split_off 3 1,.drop 4,.drop 5]

theorem meeting_joined : (play (bump 0) meeting (start [])).map (fun w =>
    ((exec (bump 0) (.try_unsplit 1 3) w).1,(exec (bump 0) (.try_unsplit 1 3) w).2.views[1]?,w.slot 1,w.slot 3)) =
      some (.ok .done,some none,some (.bytesMut ⟨⟨16,2⟩,2,2,⟨8,0⟩⟩),some (.bytesMut ⟨⟨18,3⟩,1,1,⟨16,1⟩⟩)) := by
  decide +kernel

/-- The run up to where they meet, and the step that joins them. -/
theorem meeting_run : ∃ w w' m o, Run (bump 0) (start []) w ∧ exec (bump 0) (.try_unsplit 1 3) w = (.ok .done,w') ∧
    w'.views[1]? = some none ∧ w.slot 1 = some (.bytesMut m) ∧ w.slot 3 = some (.bytesMut o) ∧ o.cap ≠ 0 := by
  obtain ⟨w,played,joined⟩ := Option.map_eq_some_iff.mp meeting_joined
  simp only [Prod.mk.injEq] at joined
  obtain ⟨ran,gone,here,there⟩ := joined
  exact ⟨w,_,_,_,play_run (fun op _ w w' step => ⟨op,step⟩) played,Prod.ext ran rfl,gone,here,there,by decide⟩

/-- Not so where they do: the view of the handle that took the other over reads memory
    that was freed with it. -/
theorem meeting_not_refined : ¬ ∀ (A : Allocator) (w₀ w : World), w₀.Initial → Run A w₀ w → ∀ op, w.Refines A op := by
  intro claim
  obtain ⟨w,w',_,_,run,ran,gone,_⟩ := meeting_run
  have refines := claim _ _ _ (start_initial []) run (.try_unsplit 1 3)
  rw [Refines,sat_of_ok ran] at refines
  obtain ⟨after,settles,v,u,viewed,_,⟨_,_,rfl⟩ | ⟨_,refused,_⟩⟩ := refines
  · have inside := (List.getElem?_eq_some_iff.mp viewed).1
    rw [settles.views,List.getElem?_set_self (by simpa using inside)] at gone
    cases gone
  · cases refused

/-! ### What `try_unsplit` joins -/

/-- The region of the handle lies in a live buffer, which a node owns that the handle
    has a claim on. -/
def HeldIn (H : Heap) (h : Handle) : Prop := ∃ boxed, H.nodes.get h.data.prov = some boxed ∧ boxed.addr = h.data.addr ∧
  boxed.shared.ptr.prov = h.ptr.prov ∧ H.mem.extent h.ptr.prov = some ⟨boxed.shared.ptr.addr,boxed.shared.cap,false⟩ ∧
  boxed.shared.ptr.addr ≤ h.ptr.addr ∧ h.ptr.addr+h.room ≤ boxed.shared.ptr.addr+boxed.shared.cap

/-- The two handles are joined only if they are on one node. Then the whole region is
    held, and the view is both views, also when other handles are dropped. -/
def JoinsWell (A : Allocator) (w : World) (i j : Nat) : Prop :=
  ∀ m o w', w.slot i = some (.bytesMut m) → w.slot j = some (.bytesMut o) → o.cap ≠ 0 →
    exec A (.try_unsplit i j) w = (.ok .done,w') →
    (hold m.data = .promoted ∧ m.data = o.data) ∧
    (∃ m', w'.slot i = some (.bytesMut m') ∧ m'.data = m.data ∧ HeldIn w'.heap (.bytesMut m')) ∧
    ∃ v u, w.views[i]? = some (some v) ∧ w.views[j]? = some (some u) ∧ w'.views[i]? = some (some (v++u)) ∧
      (∀ w'', Relation.ReflTransGen (fun a b => ∃ k, k ≠ i ∧ Step A (.drop k) a b) w' w'' →
        w''.views[i]? = some (some (v++u))) ∧
      ∀ w'', exec A (.unsplit i j) w = (.ok .done,w'') → w''.views[i]? = some (some (v++u))

/-- A handle on a node with room for something is held in a live buffer. -/
theorem held_in (sound : w.Sound) (here : w.slot i = some (.bytesMut m)) (word : hold m.data = .promoted)
    (some' : m.cap ≠ 0) : HeldIn w.heap (.bytesMut m) := by
  obtain ⟨_,_,_,focused⟩ := sound.focus here
  obtain ⟨boxed,live,addr,prov,low,high⟩ := (focused.placed _ List.mem_cons_self).of_promoted word
  obtain ⟨_,_,spans⟩ := sound.nodes _ _ live
  simp only [Handle.region,Handle.ptr,Handle.room] at prov low high
  have extent : w.heap.mem.extent m.ptr.prov = some ⟨boxed.shared.ptr.addr,boxed.shared.cap,false⟩ := by
    rw [prov]
    exact spans.live (by omega)
  exact ⟨boxed,live,addr,prov.symm,extent,low,high⟩

/-- Dropping other handles leaves a view as it is. -/
theorem drops_keep {w'' : World} {v : List UInt8} (sound : w'.Sound) (viewed : w'.views[i]? = some (some v))
    (drops : Relation.ReflTransGen (fun a b => ∃ k, k ≠ i ∧ Step A (.drop k) a b) w' w'') :
    w''.Sound ∧ w''.views[i]? = some (some v) := by
  induction drops with
  | refl => exact ⟨sound,viewed⟩
  | tail _ step ih =>
    obtain ⟨k,other,step⟩ := step
    have refines := refines_drop (A := A) (i := k) ih.1
    rcases step with ⟨out,ran⟩ | ran
    · rw [Refines,sat_of_ok ran] at refines
      obtain ⟨after,settles,_,rfl⟩ := refines
      refine ⟨settles.sound,?_⟩
      rw [settles.views,List.getElem?_set_ne other]
      exact ih.2
    · rw [Refines,sat_of_error ran] at refines
      exact refines.2.elim

/-- What the code does with handles that meet, whether on one node or not. -/
theorem try_unsplit_joins (sound : w.Sound) (here : w.slot i = some (.bytesMut m)) (there : w.slot j = some (.bytesMut o))
    (some' : o.cap ≠ 0) : Sat (exec A (.try_unsplit i j)) w
      (fun out w' => (out = .done ↔ m.Joins o) ∧ (out = .done → w'.slot i =
        some (.bytesMut { m with len := m.len+o.len, cap := m.cap+o.cap })))
      (fun _ _ => i = j) := by
  simp only [exec,sat_bind]
  refine sat_move_bytes_mut (fun o' there' => ?_) (fun none => absurd ⟨o,there⟩ none)
  cases there.symm.trans there'
  refine sat_call_mut (w := w.without j) (fun m' here' => ?_) (fun none => ?_)
  · obtain ⟨_,same⟩ := slot_without here'
    cases here.symm.trans same
    obtain ⟨v,u,_,_,_,_,focused⟩ := sound.focus_two there here'
    simp only [BytesMut.try_unsplit,sat_bind,sat_ite,Method.sat_self,Method.sat_put,sat_onFst,sat_pure]
    refine ⟨fun none => absurd none some',fun _ => ⟨fun joins => ?_,fun apart => ?_⟩⟩
    · obtain ⟨taken,placed,_⟩ := sound_cons.mp (focused.perm (List.Perm.swap ..))
      refine (BytesMut.drop_spec A taken placed).mono (fun _ H' _ => ?_) (fun _ _ => False.elim)
      refine ⟨⟨fun _ => joins,fun _ => trivial⟩,fun _ => ?_⟩
      have inside := (List.getElem?_eq_some_iff.mp (slot_eq_some.mp here')).1
      rw [slot_eq_some]
      exact List.getElem?_set_self inside
    · exact ⟨⟨fun bad => (by cases bad),fun joins => absurd joins apart⟩,fun bad => by cases bad⟩
  · intro _
    by_contra other
    refine none ⟨m,?_⟩
    rw [slot_eq_some] at here ⊢
    rw [without,List.getElem?_set_ne (Ne.symm other)]
    exact here

/-- `try_unsplit` joins well exactly where the handles that meet are on one node. -/
theorem joins_well_iff (initial : w₀.Initial) (run : JoinableRun A w₀ w) (here : w.slot i = some (.bytesMut m))
    (there : w.slot j = some (.bytesMut o)) : JoinsWell A w i j ↔ ¬ m.Misjoins o := by
  have sound := run_sound initial run
  constructor
  · intro well misjoins
    obtain ⟨some',joins,other⟩ := misjoins
    obtain ⟨out,w',ran,done,_⟩ | ⟨_,_,_,same⟩ := (try_unsplit_joins (A := A) sound here there some').cases
    · cases done.mpr joins
      exact other (well m o w' here there some' ran).1.2
    · subst same
      cases here.symm.trans there
      exact other rfl
  · rintro fits m' o' w' here' there' some' ran
    cases here.symm.trans here'
    cases there.symm.trans there'
    have joinable : w.Joinable (.try_unsplit i j) := by
      intro m' o' here' there'
      cases here.symm.trans here'
      cases there.symm.trans there'
      exact fits
    have joinable' : w.Joinable (.unsplit i j) := fun m' o' here' there' => .inr (joinable m' o' here' there')
    have joined := try_unsplit_joins (A := A) sound here there some'
    rw [sat_of_ok ran] at joined
    have joins := joined.1.mp rfl
    have now := joined.2 rfl
    obtain ⟨_,_,_,focused⟩ := sound.focus here
    have word := BytesMut.promoted_of_joins (focused.placed _ List.mem_cons_self) joins.2.1
    have refines := refines_try_unsplit (A := A) sound joinable
    rw [Refines,sat_of_ok ran] at refines
    obtain ⟨_,settles,v,u,viewed,viewed',⟨_,_,rfl⟩ | ⟨_,refused,_⟩⟩ := refines
    · have inside := (List.getElem?_eq_some_iff.mp viewed).1
      have after : ∀ {w'' : World}, w''.views = (w.views.set j none).set i (some (v++u)) →
          w''.views[i]? = some (some (v++u)) := by
        intro w'' views
        rw [views,List.getElem?_set_self (by simpa using inside)]
      refine ⟨⟨word,BytesMut.joined_data joins fits some'⟩,⟨_,now,rfl,held_in settles.sound now word ?_⟩,
        v,u,viewed,viewed',after settles.views,?_,?_⟩
      · simp only
        omega
      · exact fun w'' drops => (drops_keep settles.sound (after settles.views) drops).2
      · intro w'' ran'
        have refines := refines_unsplit (A := A) sound joinable'
        rw [Refines,sat_of_ok ran'] at refines
        obtain ⟨_,settles',_,v',u',other,other',rfl⟩ := refines
        cases viewed.symm.trans other
        cases viewed'.symm.trans other'
        exact after settles'.views
    · cases refused

/-- The halves of a buffer are on one node. -/
theorem joins_well_halves : ∃ w, JoinableRun (bump 0) (start []) w ∧ JoinsWell (bump 0) w 1 2 := by
  obtain ⟨w,run,one,two⟩ := halves_run
  exact ⟨w,run,(joins_well_iff (start_initial []) run one two).mpr (by decide)⟩

/-- Handles that meet where one buffer ends and another begins are joined as well. -/
theorem meeting_joins_badly : ¬ ∀ (A : Allocator) (w₀ w : World), w₀.Initial → Run A w₀ w → ∀ i j, JoinsWell A w i j := by
  intro claim
  obtain ⟨w,w',m,o,run,ran,gone,here,there,some'⟩ := meeting_run
  obtain ⟨_,_,_,_,_,_,after,_⟩ := claim _ _ _ (start_initial []) run 1 3 m o w' here there some' ran
  cases gone.symm.trans after

end World
end Tcio
