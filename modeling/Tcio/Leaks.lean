import Tcio.Promotion

/-!
What becomes of the nodes that racing threads allocate. A thread that loses the exchange
releases its candidate once, but the candidate was built with two references, one of them for
the handle it was to be installed in. So the nodes left over at the end are those of the lost
exchanges.
-/
namespace Tcio
open Exec

/-- Another thread was faster. -/
def Cloning.lost : Cloning → Bool
  | .release _ _ => true
  | _ => false

namespace Race

variable {A : Allocator} {H H₀ H' : Heap} {b r : Bytes} {shared : Ptr} {offset n k : Nat} {S S' : Race} {evs new : List Event}
variable {o : Option Ptr} {leaked : List Nat} {t : Turn} {w : World}

/-- The turn is an exchange that finds the word changed since it was loaded. -/
def loses (S : Race) : Turn → Bool
  | .tick c =>
    match c.next,S.handles[c.handle]?.join with
    | .compare_exchange shared _,some b => b.data ≠ shared
    | _,_ => false
  | _ => false

/-- The runs of a race in which `n` exchanges are lost. -/
inductive Losing (A : Allocator) (S : Race) : Nat → List Event → Race → Prop where
  | start : Losing A S 0 [] S
  | step {n : Nat} {evs new : List Event} {S' S'' : Race} {t : Turn} : Losing A S n evs S' →
    S'.move A t = some (.ok (new,S'')) → Losing A S (n+(S'.loses t).toNat) (evs++new) S''

theorem Losing.run (losing : Losing A S n evs S') : Run A S evs S' := by
  induction losing with
  | start => exact .start
  | step _ moved ih => exact ih.step moved
theorem Run.losing (run : Run A S evs S') : ∃ n, Losing A S n evs S' := by
  induction run with
  | start => exact ⟨0,.start⟩
  | step _ moved ih =>
    obtain ⟨n,losing⟩ := ih
    exact ⟨_,losing.step moved⟩

/-- The nodes of the race that are live: `leaked` ones, candidates, and the one that is installed. -/
def nodes (o : Option Ptr) (leaked : List Nat) (S : Race) : List Nat :=
  leaked++(o.toList++candidates S.clones).map Ptr.prov

/-- After a race that began on `H₀` lost `n` exchanges. -/
structure Leaks (H₀ : Heap) (o : Option Ptr) (n : Nat) (leaked : List Nat) (S : Race) : Prop where
  tally : leaked.length+S.clones.countP (fun c => c.next.lost) = n
  live : ∀ k ∈ leaked, S.heap.nodes.get k ≠ none
  known : ∀ k, H₀.nodes.bound ≤ k → S.heap.nodes.get k ≠ none → k ∈ nodes o leaked S
  range : ∀ k ∈ nodes o leaked S, H₀.nodes.bound ≤ k ∧ k < S.heap.nodes.bound
  distinct : (nodes o leaked S).Nodup
  bound : H₀.nodes.bound ≤ S.heap.nodes.bound

namespace Leaks

/-- A turn that leaves the same nodes. -/
theorem keeps {o' : Option Ptr} {leaked' : List Nat} (leaks : Leaks H₀ o n leaked S)
    (tally : leaked'.length+S'.clones.countP (fun c => c.next.lost) = leaked.length+S.clones.countP (fun c => c.next.lost)+k)
    (live : ∀ i ∈ leaked', S.heap.nodes.get i ≠ none) (same : ∀ i, S'.heap.nodes.get i = none ↔ S.heap.nodes.get i = none)
    (bound : S'.heap.nodes.bound = S.heap.nodes.bound) (perm : (nodes o' leaked' S').Perm (nodes o leaked S)) :
    Leaks H₀ o' (n+k) leaked' S' where
  tally := by rw [tally,leaks.tally]
  live i mem := mt (same i).mp (live i mem)
  known i low some' := perm.mem_iff.mpr (leaks.known i low (mt (same i).mpr some'))
  range i mem := by
    rw [bound]
    exact leaks.range i (perm.mem_iff.mp mem)
  distinct := perm.nodup_iff.mpr leaks.distinct
  bound := by
    rw [bound]
    exact leaks.bound

end Leaks

theorem nodes_perm {c : Clone} (mem : c ∈ S.clones) : (nodes o leaked S).Perm
    (leaked++(o.toList++(c.next.candidate.toList++candidates (S.clones.erase c))).map Ptr.prov) :=
  (((candidates_perm mem).append_left o.toList).map Ptr.prov).append_left leaked

theorem lost_erase {c : Clone} (mem : c ∈ S.clones) : S.clones.countP (fun c => c.next.lost) =
    (S.clones.erase c).countP (fun c => c.next.lost)+if c.next.lost then 1 else 0 := by
  rw [(List.perm_cons_erase mem).countP_eq,List.countP_cons]

theorem recounted_none {f : Nat → Nat} {i : Nat} :
    (Shared.recounted H shared f).nodes.get i = none ↔ H.nodes.get i = none := by
  rw [Shared.recounted,Arena.get_update]
  split_ifs <;> simp

namespace Leaks

/-- A call goes on or returns, in one of the ways there are. -/
theorem tick {c : Clone} {next : Except Cloning Bytes} {r' : Bytes} (leaks : Leaks H₀ o n leaked S)
    (inv : S.Inv H₀ b offset o evs) (word : hold b.data = .unpromoted offset) (mem : c ∈ S.clones)
    (here : S.handles[c.handle]? = some (some r)) (effect : Effect A b offset o S c r next H' r') :
    ∃ leaked', Leaks H₀ (after o r r') (n+(S.loses (.tick c)).toNat) leaked' (S.ticked c r next H' r').2 := by
  have perm : (nodes o leaked S).Perm _ := nodes_perm mem
  have lost := lost_erase mem
  have data := (inv.word _ r here).1
  cases effect with
  | promotes loads _ _ =>
    rw [loads] at perm lost
    have kept : S.loses (.tick c) = false := by simp [loses,loads]
    rw [ticked_goes here (by rw [loads]; rfl),after_same,kept]
    refine ⟨leaked,leaks.keeps ?_ leaks.live (fun _ => Iff.rfl) rfl perm.symm⟩
    rw [lost]
    rfl
  | shares loads _ =>
    rw [loads] at perm lost
    have kept : S.loses (.tick c) = false := by simp [loses,loads]
    rw [ticked_goes here (by rw [loads]; rfl),after_same,kept]
    refine ⟨leaked,leaks.keeps ?_ leaks.live (fun _ => Iff.rfl) rfl perm.symm⟩
    rw [lost]
    rfl
  | builds builds zero =>
    rw [builds] at perm lost
    have kept : S.loses (.tick c) = false := by simp [Race.loses,builds]
    rw [ticked_goes here (by rw [builds]; rfl),after_same,kept]
    have grown : (nodes o leaked { S with
        heap := Cloning.candidate_built A S.heap (b.ptr.sub offset) (b.len+offset)
        clones := { c with next := .compare_exchange b.data ⟨A.node S.heap,S.heap.nodes.bound⟩ } :: S.clones.erase c }).Perm
          (S.heap.nodes.bound :: nodes o leaked S) := by
      refine List.Perm.trans ?_ (perm.symm.cons _)
      exact installed_perm.append_left leaked |>.trans List.perm_middle
    refine ⟨leaked,?_,?_,?_,?_,?_,?_⟩
    · rw [← leaks.tally,lost]
      rfl
    · intro k mem'
      have low := (leaks.range k (List.mem_append_left _ mem')).2
      rw [Cloning.candidate_built,Arena.get_insert_ne (Nat.ne_of_lt low)]
      exact leaks.live k mem'
    · intro k low some'
      refine grown.mem_iff.mpr (List.mem_cons.mpr ?_)
      by_cases new : k = S.heap.nodes.bound
      · exact .inl new
      · rw [Cloning.candidate_built,Arena.get_insert_ne new] at some'
        exact .inr (leaks.known k low some')
    · intro k mem'
      rw [Cloning.candidate_built,Arena.insert_bound]
      rcases List.mem_cons.mp (grown.mem_iff.mp mem') with rfl | old
      · exact ⟨leaks.bound,Nat.lt_succ_self _⟩
      · exact ⟨(leaks.range k old).1,Nat.lt_succ_of_lt (leaks.range k old).2⟩
    · refine grown.nodup_iff.mpr (List.nodup_cons.mpr ⟨fun again => ?_,leaks.distinct⟩)
      exact Nat.lt_irrefl _ (leaks.range _ again).2
    · exact Nat.le_succ_of_le leaks.bound
  | @wins new exchanges unpromoted other =>
    subst unpromoted
    rw [exchanges] at perm lost
    have kept : S.loses (.tick c) = false := by
      have same : r.data = b.data := data
      simp [Race.loses,exchanges,here,same]
    rw [after,if_neg other,kept]
    refine ⟨leaked,leaks.keeps ?_ leaks.live (fun _ => Iff.rfl) rfl perm.symm⟩
    rw [lost]
    rfl
  | @loses new shared exchanges promoted =>
    rw [exchanges] at perm lost
    have late : S.loses (.tick c) = true := by
      have changed : r.data ≠ b.data := by
        rw [data,promoted]
        rintro (rfl : shared = b.data)
        have := (inv.node _ promoted).1
        rw [word] at this
        cases this
      simp [Race.loses,exchanges,here,changed]
    rw [ticked_goes here (by rw [exchanges]; rfl),after_same,late]
    refine ⟨leaked,leaks.keeps ?_ leaks.live (fun _ => Iff.rfl) rfl perm.symm⟩
    show leaked.length+List.countP _ (_ :: _) = _
    rw [lost,List.countP_cons]
    show leaked.length+((S.clones.erase c).countP _+1) = leaked.length+((S.clones.erase c).countP _+0)+1
    omega
  | @backs_out new shared releases promoted =>
    rw [releases] at perm lost
    have kept : S.loses (.tick c) = false := by simp [Race.loses,releases]
    rw [ticked_goes here (by rw [releases]; rfl),after_same,kept]
    have built := (inv.built new ((candidates_perm mem).mem_iff.mpr (by simp [releases,Cloning.candidate]))).2
    refine ⟨new.prov :: leaked,leaks.keeps ?_ ?_ (fun _ => recounted_none) rfl ?_⟩
    · rw [lost]
      show leaked.length+1+(S.clones.erase c).countP _ = leaked.length+((S.clones.erase c).countP _+1)+0
      omega
    · intro k mem'
      rcases List.mem_cons.mp mem' with rfl | old
      · rw [built]
        exact Option.some_ne_none _
      · exact leaks.live k old
    · refine List.Perm.trans ?_ perm.symm
      exact (installed_perm.append_left leaked |>.trans List.perm_middle).symm
  | returns increments promoted =>
    rw [increments] at perm lost
    have kept : S.loses (.tick c) = false := by simp [Race.loses,increments]
    rw [ticked_returns here (by rw [increments]; rfl),after_same,kept]
    refine ⟨leaked,leaks.keeps ?_ leaks.live (fun _ => recounted_none) rfl perm.symm⟩
    rw [lost]
    rfl

/-- A step of a drop frees at most the node that is installed. -/
theorem finish {d : Release} {d' : Option Release} (leaks : Leaks H₀ o n leaked S)
    (undoes : Undoes b offset o S d d' H') :
    Leaks H₀ o n leaked { S with heap := H', drops := d'.toList++S.drops.erase d } := by
  cases undoes with
  | more promoted many =>
    refine leaks.keeps (k := 0) rfl leaks.live (fun _ => ?_) rfl .rfl
    exact recounted_none
  | frees gone ptr cap =>
    refine leaks.keeps (k := 0) rfl leaks.live (fun _ => ?_) ?_ .rfl
    · split_ifs <;> exact Iff.rfl
    · split_ifs <;> rfl
  | @last shared promoted one =>
    refine ⟨leaks.tally,fun k mem => ?_,fun k low some' => ?_,leaks.range,leaks.distinct,leaks.bound⟩
    · have apart : k ≠ shared.prov := by
        rintro rfl
        exact (List.nodup_append.mp leaks.distinct).2.2 _ mem _ (by simp [promoted]) rfl
      rw [Arena.get_free_ne apart]
      exact leaks.live k mem
    · refine leaks.known k low fun none => some' ?_
      rw [Arena.get_free,none]
      split_ifs <;> rfl

theorem step (leaks : Leaks H₀ o n leaked S) (inv : S.Inv H₀ b offset o evs) (word : hold b.data = .unpromoted offset)
    (takes : Takes A b offset o S t new S') : ∃ o' leaked',
      S'.Inv H₀ b offset o' (evs++new) ∧ Leaks H₀ o' (n+(S.loses t).toNat) leaked' S' := by
  cases takes with
  | borrow here view =>
    rw [List.append_nil]
    exact ⟨o,leaked,inv.borrows here (inv.view_covers here view),leaks.keeps rfl leaks.live (fun _ => Iff.rfl) rfl .rfl⟩
  | tick mem here effect =>
    obtain ⟨leaked',leaks'⟩ := leaks.tick inv word mem here effect
    exact ⟨_,leaked',inv.tick mem here effect,leaks'⟩
  | drop here unlent fits last =>
    rw [List.append_nil]
    exact ⟨o,leaked,inv.put_down here unlent fits last,leaks.keeps rfl leaks.live (fun _ => Iff.rfl) rfl .rfl⟩
  | finish mem undoes => exact ⟨o,leaked,inv.finish mem undoes,leaks.finish undoes⟩

theorem run (word : hold b.data = .unpromoted offset) (spans : Spans H (b.ptr.sub offset) (b.len+offset))
    (losing : Losing A (start H b) n evs S) : ∃ o leaked, S.Inv H b offset o evs ∧ Leaks H o n leaked S := by
  induction losing with
  | start =>
    refine ⟨none,[],start_inv,rfl,nofun,fun k low some' => ?_,nofun,.nil,Nat.le_refl _⟩
    exact absurd (H.nodes.fresh k low) some'
  | step _ moved ih =>
    obtain ⟨o,leaked,inv,leaks⟩ := ih
    exact leaks.step inv word (inv.move word spans moved)

end Leaks

end Race
end Tcio
