import Tcio.AtomicSpec

/-!
Threads that give references up, in any order of their steps. As long as no step takes the
bytes away that a call has still to copy, all calls return what they are to return; but
`into_vec` and `into_mut` copy after they gave their reference up, so that another thread
may free or reuse the buffer in between.
-/
namespace Tcio
open Exec Ledger

variable {A : Allocator} {H H' : Heap} {R : List Handle} {v u : List UInt8} {c c' : Call} {b : Bytes}
variable {i j : Nat} {t t' : Task} {M M' : Threads} {w : World}

/-! ### What other threads leave a call -/

/-- A call depends on the views of its handles, on the bytes it has still to copy, and on
    being alone on its node once it has seen that it is. -/
theorem Call.Fits.frame (fits : c.Fits H v) (views : ∀ h ∈ c.handles, h.view H' = h.view H)
    (left : ∀ b, c.pending = some b → H'.mem.load b.ptr b.len = H.mem.load b.ptr b.len)
    (alone : ∀ h ∈ c.handles, ∀ k boxed, h.claim = .share k → H.nodes.get k = some boxed → boxed.shared.ref_count = 1 →
      ∃ boxed', H'.nodes.get k = some boxed' ∧ boxed'.shared.ref_count = 1 ∧ boxed'.shared.ptr = boxed.shared.ptr) :
    c.Fits H' v := by
  cases c with
  | into_vec b => exact ⟨fits.1,(views _ List.mem_cons_self).trans fits.2⟩
  | into_vec_copy b => exact ⟨fits.1,(left b rfl).trans fits.2⟩
  | into_vec_back b advanced vec =>
    obtain ⟨start,room,view⟩ := fits
    exact ⟨start,room,(views _ List.mem_cons_self).trans view⟩
  | into_mut b => exact ⟨fits.1,(views _ List.mem_cons_self).trans fits.2⟩
  | into_mut_copy b => exact ⟨fits.1,(left b rfl).trans fits.2⟩
  | release h back =>
    refine ⟨fits.1,?_⟩
    rintro r rfl
    exact (views r (List.mem_cons_of_mem _ List.mem_cons_self)).trans (fits.2 r rfl)
  | free vec back =>
    rintro r rfl
    exact (views r (List.mem_cons_of_mem _ List.mem_cons_self)).trans (fits r rfl)
  | reserve m n => exact ⟨fits.1,(views _ List.mem_cons_self).trans fits.2⟩
  | reserve_back m p =>
    obtain ⟨word,view,far,boxed,live,one,rfl⟩ := fits
    have claim : (Handle.bytesMut m).claim = .share m.data.prov := claim_promoted word
    exact ⟨word,(views _ List.mem_cons_self).trans view,far,alone _ List.mem_cons_self _ boxed claim live one⟩
  | reserve_copy m n => exact ⟨fits.1,(views _ List.mem_cons_self).trans fits.2⟩
  | freeze m => exact ⟨fits.1,(views _ List.mem_cons_self).trans fits.2⟩
  | as_mut_slice m at_ x =>
    obtain ⟨u,view,rfl⟩ := fits
    exact ⟨u,(views _ List.mem_cons_self).trans view,rfl⟩

theorem Call.Fits.pending (fits : c.Fits H v) (pending : c.pending = some b) : H.mem.load b.ptr b.len = some v := by
  cases c <;> simp only [Call.pending,Option.some.injEq,reduceCtorEq] at pending
  case into_vec_copy b =>
    subst pending
    exact fits.2
  case into_mut_copy b =>
    subst pending
    exact fits.2

def Task.handles : Task → List Handle
  | .idle h => [h]
  | .busy _ c => c.handles
  | .gone => []

theorem Task.handles_of (back : Option Handle) : (Task.of back).handles = back.toList := by cases back <;> rfl

namespace Threads

def handles (M : Threads) : List Handle := M.tasks.flatMap Task.handles
/-- The tasks of the other threads. -/
def others (M : Threads) (i : Nat) : List Task := M.tasks.eraseIdx i

theorem set_perm {tasks : List Task} (here : tasks[i]? = some t) :
    ((tasks.set i t').flatMap Task.handles).Perm (t'.handles++(tasks.eraseIdx i).flatMap Task.handles) := by
  induction tasks generalizing i with
  | nil => simp at here
  | cons s tasks ih =>
    cases i with
    | zero => simp
    | succ i =>
      simp only [List.set_cons_succ,List.eraseIdx_cons_succ,List.flatMap_cons]
      refine ((ih (by simpa using here)).append_left s.handles).trans ?_
      rw [← List.append_assoc,← List.append_assoc]
      exact List.perm_append_comm.append_right _

theorem handles_perm (here : M.tasks[i]? = some t) : M.handles.Perm (t.handles++(M.others i).flatMap Task.handles) := by
  have same : M.tasks.set i t = M.tasks := by
    obtain ⟨inside,found⟩ := List.getElem?_eq_some_iff.mp here
    rw [← found]
    exact List.set_getElem_self inside
  have perm : ((M.tasks.set i t).flatMap Task.handles).Perm _ := set_perm here
  rwa [same] at perm

theorem mem_put {s : Task} (mem : s ∈ (M.put i H t').tasks) : s = t' ∨ s ∈ M.others i := by
  unfold put others at *
  generalize M.tasks = tasks at mem
  induction tasks generalizing i with
  | nil => simp at mem
  | cons r tasks ih =>
    cases i with
    | zero => simpa using mem
    | succ i =>
      rcases List.mem_cons.mp mem with rfl | later
      · exact .inr List.mem_cons_self
      · exact (ih later).imp_right (List.mem_cons_of_mem _)

/-- The heap is sound for the handles of the threads, and every call has what it relies on. -/
structure Inv (M : Threads) : Prop where
  sound : Sound M.heap [] M.handles
  fits : ∀ v c, Task.busy v c ∈ M.tasks → c.Fits M.heap v

theorem Inv.focus (inv : M.Inv) (here : M.tasks[i]? = some t) :
    Sound M.heap [] (t.handles++(M.others i).flatMap Task.handles) := inv.sound.perm (handles_perm here)

/-- A thread goes on while the others are left what they rely on. -/
theorem Inv.put (inv : M.Inv) (here : M.tasks[i]? = some t)
    (passes : Passes A M.heap ((M.others i).flatMap Task.handles) t.handles H' t'.handles)
    (fits : ∀ v c, t' = .busy v c → c.Fits H' v)
    (left : ∀ v c b, Task.busy v c ∈ M.tasks → c.pending = some b → H'.mem.load b.ptr b.len = M.heap.mem.load b.ptr b.len) :
    (M.put i H' t').Inv where
  sound := passes.sound.perm (set_perm here).symm
  fits v c mem := by
    rcases mem_put mem with same | other
    · exact fits v c same.symm
    have mem := List.mem_of_mem_eraseIdx other
    have sound := inv.focus here
    have inside : ∀ h ∈ c.handles, h ∈ (M.others i).flatMap Task.handles :=
      fun h mem => List.mem_flatMap.mpr ⟨_,other,mem⟩
    refine (inv.fits v c mem).frame (fun h mem => passes.frame h (inside h mem)) (fun b => left v c b mem) ?_
    exact fun h mem k boxed claim live one => passes.alone sound (inside h mem) claim live one

/-- A call begins on a handle. -/
theorem begin_passes {h : Handle} (sound : Sound H [] (h :: R)) (begins : c.begins h = true) (view : h.view H = some v) :
    Passes A H R [h] H c.handles ∧ c.Fits H (c.outcome v) := by
  cases c <;> simp only [Call.begins,decide_eq_true_eq,Bool.false_eq_true] at begins
  case into_vec b =>
    obtain ⟨rfl,word⟩ := begins
    exact ⟨.refl sound,word,view⟩
  case into_mut b =>
    obtain ⟨rfl,word⟩ := begins
    exact ⟨.refl sound,word,view⟩
  case release h' back =>
    obtain ⟨rfl,word,rfl⟩ := begins
    exact ⟨.refl sound,word,nofun⟩
  case free vec back =>
    cases word : hold h.data with
    | null => simp [word] at begins
    | promoted => simp [word] at begins
    | unpromoted offset =>
      simp only [word,decide_eq_true_eq] at begins
      obtain ⟨rfl,rfl⟩ := begins
      have turns := Turns.start (A := A) sound view
      obtain ⟨low,spans⟩ := turns.placed.of_unpromoted word
      have taken := turns.take
      rw [claim_own word] at taken
      have word' : hold (Handle.vec ⟨h.ptr.sub offset,0,h.room+offset⟩).data = .unpromoted 0 := Shared.hold_new_unpromoted
      rw [Nat.add_comm] at taken spans
      have made := taken.put_vec (p := h.ptr.sub offset) (v := []) spans word' rfl (Nat.zero_add _) (Nat.zero_le _) Memory.load_zero
      exact ⟨.of_turns made (Call.fewer_of_owner word'),nofun⟩
  case reserve m n =>
    obtain ⟨rfl,word⟩ := begins
    exact ⟨.refl sound,word,view⟩
  case freeze m =>
    obtain ⟨rfl,word⟩ := begins
    exact ⟨.refl sound,word,view⟩
  case as_mut_slice m at_ x =>
    subst begins
    exact ⟨.refl sound,v,view,rfl⟩

/-- Every move that does not disturb a call keeps the invariant. -/
theorem Inv.move {mv : Move} (inv : M.Inv) (undisturbed : M.Undisturbed mv) (moved : M.move A mv = some M') : M'.Inv := by
  cases mv with
  | begin i c =>
    simp only [Threads.move] at moved
    split at moved
    · next h here =>
      split_ifs at moved with begins
      obtain ⟨v,view,rfl⟩ := Option.map_eq_some_iff.mp moved
      obtain ⟨passes,fits⟩ := begin_passes (A := A) (inv.focus here) begins view
      refine inv.put here passes ?_ (fun _ _ _ _ _ => rfl)
      rintro _ _ ⟨⟩
      exact fits
    · cases moved
  | tick i =>
    simp only [Threads.move] at moved
    split at moved
    · next v c here =>
      have passes := Call.passes (A := A) (inv.focus here) (inv.fits v c (List.mem_of_getElem? here))
      have leaves := Call.step_leaves (A := A) (inv.focus here) (inv.fits v c (List.mem_of_getElem? here))
      have left : ∀ {H'}, c.Leaves M.heap H' → ∀ u c' b, Task.busy u c' ∈ M.tasks → c'.pending = some b →
          H'.mem.load b.ptr b.len = M.heap.mem.load b.ptr b.len := by
        intro H' leaves u c' b mem pending
        have loaded := (inv.fits u c' mem).pending pending
        rw [loaded]
        exact leaves _ _ _ loaded (undisturbed v c here u c' b mem pending)
      split at moved
      · next c' H' ran =>
        cases moved
        rw [Call.Passing,sat_of_ok ran] at passes
        rw [sat_of_ok ran] at leaves
        refine inv.put here passes.1 ?_ (left leaves)
        rintro _ _ ⟨⟩
        exact passes.2
      · next back H' ran =>
        cases moved
        rw [Call.Passing,sat_of_ok ran] at passes
        rw [sat_of_ok ran] at leaves
        refine inv.put here (by rw [Task.handles_of]; exact passes.1) ?_ (left leaves)
        cases back <;> rintro _ _ ⟨⟩
      · next H' ran =>
        cases moved
        rw [Call.Passing,sat_of_error ran] at passes
        obtain ⟨_,rfl,h,unwound,same⟩ := passes
        have focused : Sound M.heap [] (c.handles++(M.others i).flatMap Task.handles) := inv.focus here
        rw [same] at focused
        rw [unwound]
        refine inv.put (A := A) here ?_ ?_ (fun _ _ _ _ _ => rfl)
        · show Passes A M.heap _ c.handles M.heap [h]
          rw [same]
          exact .refl focused
        · rintro _ _ ⟨⟩
      · cases moved
    · cases moved

/-- A list of moves that all can be made. -/
def play (A : Allocator) : List Move → Threads → Option Threads
  | [],M => some M
  | mv :: mvs,M => (M.move A mv).bind (play A mvs)

theorem play_run {mvs : List Move} (played : play A mvs M = some M') :
    Relation.ReflTransGen (fun M M' => ∃ mv, M.move A mv = some M') M M' := by
  induction mvs generalizing M with
  | nil =>
    cases played
    exact .refl
  | cons mv mvs ih =>
    obtain ⟨M₁,moved,played⟩ := Option.bind_eq_some_iff.mp played
    exact .head ⟨mv,moved⟩ (ih played)

/-- Two handles of one buffer. -/
def pair : Option World := World.play (bump 0) [.vec [1,2,3] 0,.bytes_from_vec 0,.clone 1] (World.start [])

end Threads
end Tcio
