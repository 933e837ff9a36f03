import Tcio.Atomic
import Tcio.Race

/-!
A call whose steps no other thread comes between: its steps, one after the other, are the
function it is made of.
-/
namespace Tcio
open Exec
namespace Call

variable {A : Allocator} {H : Heap} {b : Bytes} {m : BytesMut} {n : Nat} {data : Ptr}

/-- The steps of a call, at most so many, until it returns. -/
def alone (A : Allocator) : Nat → Call → Exec Heap (Option Handle)
  | 0,_ => stop .spin
  | n+1,c => do
    match ← c.step A with
    | .go c' => alone A n c'
    | .ret back => return back

/-! ### Taking the buffer -/

theorem into_unpromoted_node {α : Type} {f : Except Ptr Nat → Exec Heap α} (word : hold data = .promoted) :
    (Shared.into_unpromoted data >>= f) = Shared.deref data >>= fun _ => f (.error data) := by
  have even : Shared.is_unpromoted data = false := by
    rw [Shared.hold_promoted] at word
    simp [← Bool.not_eq_true,Shared.is_unpromoted_iff,word.1]
  simp only [Shared.into_unpromoted,Shared.as_unpromoted,even,Bool.false_eq_true,↓reduceIte,bind_assoc,pure_bind]

theorem deref_twice {α : Type} {f : Shared → Exec Heap α} :
    (Shared.deref data >>= fun _ => Shared.deref data >>= f) = Shared.deref data >>= f := by
  funext H
  simp only [Shared.deref,Bind.bind,Exec.get]
  cases live : H.nodes.get data.prov with
  | none => rfl
  | some boxed =>
    by_cases same : boxed.addr = data.addr
    · simp [check,same,live,pure]
    · simp [check,same,stop]

theorem into_vec_alone (word : hold b.data = .promoted) :
    alone A 2 (.into_vec b) = (fun vec => some (.vec vec)) <$> b.into_vec A := by
  simp only [alone,step.eq_1,Bytes.into_vec,Bytes.not_null (b := b) (by simp [word]),Bool.false_eq_true,↓reduceIte,
    into_unpromoted_node word,deref_twice,bind_assoc,pure_bind,map_eq_pure_bind]
  congr 1
  funext node
  congr 1
  funext o
  cases o with
  | none => simp only [pure_bind,step.eq_2,bind_assoc]
  | some vec =>
    simp only [pure_bind,bind_assoc,step.eq_3]
    congr 1
    funext _
    congr 1
    funext advanced
    split_ifs <;> simp only [pure_bind,bind_assoc]

theorem into_mut_alone (word : hold b.data = .promoted) :
    alone A 2 (.into_mut b) = (fun m => some (.bytesMut m)) <$> b.into_mut A := by
  simp only [alone,step.eq_4,Bytes.into_mut,Bytes.not_null (b := b) (by simp [word]),Bool.false_eq_true,↓reduceIte,
    into_unpromoted_node word,deref_twice,bind_assoc,map_eq_pure_bind]
  congr 1
  funext node
  congr 1
  funext o
  cases o with
  | none => simp only [pure_bind,step.eq_5,bind_assoc]
  | some vec => simp only [pure_bind,bind_assoc]

/-! ### Dropping -/

theorem release_alone {h : Handle} (back : Option Handle) : Sat (Shared.release h.data) H
    (fun _ H' => alone A 2 (.release h back) H = (.ok back,H')) (fun _ _ => True) := by
  simp only [Shared.release,sat_bind]
  refine sat_of_run (fun old H₁ first => ?_) (fun _ _ _ => trivial)
  simp only [alone,step.eq_6,bind_assoc]
  rw [ok_bind first]
  simp only [sat_ite,sat_pure]
  refine ⟨fun more => ?_,fun one => ?_⟩
  · rw [if_pos more]
    rfl
  rw [if_neg one]
  simp only [sat_bind]
  refine sat_of_run (fun node H₂ second => sat_of_run (fun vec H₃ third => ?_) (fun _ _ _ => trivial)) (fun _ _ _ => trivial)
  simp only [bind_assoc,pure_bind,step.eq_7]
  rw [ok_bind second,ok_bind third]
  -- the box is freed before the buffer here, and after it in `release`
  refine sat_of_run (fun _ H₄ fourth => ?_) (fun _ _ _ => trivial)
  have kept : H₄.nodes = H₃.nodes := by
    have same : Sat (Vec.drop vec) H₃ (fun _ H' => H'.nodes = H₃.nodes) (fun _ _ => True) := by
      simp [Vec.drop]
    rwa [sat_of_ok fourth] at same
  have swapped : Vec.drop vec { H₃ with nodes := H₃.nodes.free h.data.prov } =
      (.ok (),{ H₄ with nodes := H₃.nodes.free h.data.prov }) := by
    refine run_eq (vec_drop_nodes.mpr ?_)
    rw [sat_of_ok fourth]
    exact ⟨rfl,rfl⟩
  rw [Shared.free,sat_modify,ok_bind (show modify _ H₃ = (.ok (),_) from rfl),ok_bind swapped,kept]
  rfl

/-! ### Reserving -/

theorem reserve_copy_alone : Sat (BytesMut.reallocate_promoted A m.data n) (H,m)
    (fun _ p => alone A 3 (.reserve_copy m n) H = (.ok (some (.bytesMut p.2)),p.1)) (fun _ _ => True) := by
  simp only [BytesMut.reallocate_promoted,sat_bind,Method.sat_self,sat_onFst,Method.sat_put]
  refine sat_of_run (fun vec H₁ first => sat_of_run (fun _ H₂ second => ?_) (fun _ _ _ => trivial)) (fun _ _ _ => trivial)
  refine (release_alone (A := A) (h := .bytesMut m)
    (some (.bytesMut ⟨vec.ptr,m.len,vec.cap,Shared.new_unpromoted⟩))).mono ?_ (fun _ _ => id)
  intro _ H' ran
  rw [alone,step.eq_10]
  simp only [bind_assoc,pure_bind]
  rw [ok_bind first,ok_bind second]
  exact ran

theorem sat_as_unpromoted_node (word : hold data = .promoted) :
    Sat (Shared.as_unpromoted_mut data) H (fun o H' => o = .error data ∧ H' = H) (fun _ _ => True) := by
  have even : Shared.is_unpromoted data = false := by
    rw [Shared.hold_promoted] at word
    simp [← Bool.not_eq_true,Shared.is_unpromoted_iff,word.1]
  show Sat (Shared.as_unpromoted data) H _ _
  simp only [Shared.as_unpromoted,even,Bool.false_eq_true,↓reduceIte,sat_bind,sat_pure,true_and]
  simp only [Shared.deref,sat_bind,sat_get]
  split <;> simp

theorem reserve_alone (word : hold m.data = .promoted) : Sat (BytesMut.reserve A n) (H,m)
    (fun _ p => alone A 4 (.reserve m n) H = (.ok (some (.bytesMut p.2)),p.1)) (fun _ _ => True) := by
  simp only [BytesMut.reserve,sat_bind,Method.sat_self,sat_usize_sub,sat_ite,sat_pure,implies_true,and_true]
  rw [alone,step.eq_8]
  simp only [bind_assoc]
  intro fits
  rw [ok_bind (usize_sub_ok fits)]
  refine ⟨fun enough => ?_,fun less => ?_⟩
  · rw [if_pos enough]
    rfl
  rw [if_neg less]
  simp only [BytesMut.reserve_inner,sat_ite,sat_pure,sat_bind,Method.sat_self,sat_check,sat_onFst,implies_true,and_true]
  refine ⟨fun none => absurd (by omega) less,fun _ small => ?_⟩
  simp only [bind_assoc]
  rw [ok_bind (check_ok small)]
  refine (sat_as_unpromoted_node word).mono ?_ (fun _ _ => id)
  rintro _ _ ⟨rfl,rfl⟩
  simp only [sat_bind,sat_onFst]
  refine sat_of_run (fun unique H₁ first => ?_) (fun _ _ _ => trivial)
  rw [ok_bind first]
  -- the end of the call, once the handle may have taken the tail over
  have copies : ∀ (H : Heap) (m : BytesMut), Sat (BytesMut.reallocate_promoted A m.data n) (H,m) (fun _ p =>
    alone A 3 (.reserve_copy m n) H = (.ok (some (.bytesMut p.2)),p.1)) (fun _ _ => True) := fun _ _ => reserve_copy_alone
  cases unique with
  | false => simpa using copies H₁ m
  | true =>
    simp only [↓reduceIte,BytesMut.reclaim_promoted,sat_bind,sat_onFst,Method.sat_self,sat_check,sat_usize_sub,Method.sat_put,
      sat_ite,sat_pure,implies_true,and_true,Bool.not_true,Bool.false_eq_true,false_implies,true_and,bind_assoc,not_true_eq_false]
    refine sat_of_run (fun node H₂ second => ?_) (fun _ _ _ => trivial)
    intro prov low tail
    rw [ok_bind second,ok_bind (check_ok prov),ok_bind (usize_sub_ok low),ok_bind (usize_sub_ok tail)]
    refine ⟨fun enough => ?_,fun short => ?_⟩
    · simp only [forall_const]
      rw [if_pos enough]
      rfl
    rw [if_neg short]
    intro room
    simp only [bind_assoc]
    rw [ok_bind (usize_sub_ok room)]
    refine ⟨fun moves => ?_,fun stays => ?_⟩
    · rw [if_pos moves]
      refine sat_of_run (fun _ H₃ third => ?_) (fun _ _ _ => trivial)
      simp only [forall_const,pure_bind,alone,step.eq_9,bind_assoc]
      rw [ok_bind (usize_sub_ok low),ok_bind third]
      rfl
    · rw [if_neg stays]
      simpa only [not_false_eq_true,forall_const,pure_bind] using copies H₂ _

end Call

/-! ### Cloning -/

namespace Cloning

variable {A : Allocator} {H : Heap} {b : Bytes}

/-- The steps of a call on one handle, at most so many, until it returns. -/
def alone (A : Allocator) : Nat → Cloning → Method Bytes Bytes
  | 0,_ => stop .spin
  | n+1,c => do
    match ← c.step A with
    | .error c' => alone A n c'
    | .ok r => return r

theorem alone_goes {n : Nat} {c c' : Cloning} {p p' : Heap × Bytes} (goes : c.step A p = (.ok (.error c'),p')) :
    alone A (n+1) c p = alone A n c' p' := by
  rw [alone,ok_bind goes]
theorem alone_returns {n : Nat} {c : Cloning} {r : Bytes} {p p' : Heap × Bytes} (returns : c.step A p = (.ok (.ok r),p')) :
    alone A (n+1) c p = (.ok r,p') := by
  rw [alone,ok_bind returns]
  rfl

/-- A reference to a node is the word itself. -/
theorem word_of_node {data shared : Ptr} {H' : Heap} (ran : Shared.as_unpromoted data H = (.ok (.error shared),H')) :
    shared = data := by
  have same : Sat (Shared.as_unpromoted data) H (fun o _ => ∀ p, o = .error p → p = data) (fun _ _ => True) := by
    simp only [Shared.as_unpromoted,sat_ite,sat_pure,sat_bind]
    refine ⟨fun _ _ bad => (by cases bad),fun _ => sat_of_run (fun _ _ _ => ?_) (fun _ _ _ => trivial)⟩
    rintro _ ⟨⟩
    rfl
  rw [sat_of_ok ran] at same
  exact same _ rfl

theorem clone_alone : Sat (Bytes.clone_inner A) (H,b) (fun r p => alone A 3 .load (H,b) = (.ok r,p)) (fun _ _ => True) := by
  simp only [Bytes.clone_inner,sat_bind,Method.sat_self,sat_ite,sat_pure,sat_onFst]
  refine ⟨fun null => alone_returns (run_eq ?_),fun some' => ?_⟩
  · simp [step,null]
  refine sat_of_run (fun o H₁ first => ?_) (fun _ _ _ => trivial)
  cases o with
  | error shared =>
    have loads : load.step A (H,b) = (.ok (.error (.increment shared)),(H₁,b)) := by
      apply run_eq
      simp only [step,sat_bind,Method.sat_self,some',Bool.false_eq_true,↓reduceIte,sat_onFst]
      rw [sat_of_ok first]
      exact ⟨rfl,rfl⟩
    rw [alone_goes loads]
    obtain rfl := word_of_node first
    simp only [sat_bind,sat_onFst,sat_pure]
    refine sat_of_run (fun _ H₂ second => alone_returns (run_eq ?_)) (fun _ _ _ => trivial)
    simp only [step,sat_bind,sat_onFst]
    rw [sat_of_ok second]
    exact ⟨rfl,rfl⟩
  | ok offset =>
    have loads : load.step A (H,b) = (.ok (.error (.promote offset b.data)),(H₁,b)) := by
      apply run_eq
      simp only [step,sat_bind,Method.sat_self,some',Bool.false_eq_true,↓reduceIte,sat_onFst]
      rw [sat_of_ok first]
      exact ⟨rfl,rfl⟩
    rw [alone_goes loads]
    simp only [Bytes.promote_ref,sat_bind,Method.sat_self,sat_onFst]
    refine sat_of_run (fun vec H₂ second => sat_of_run (fun new H₃ third => ?_) (fun _ _ _ => trivial)) (fun _ _ _ => trivial)
    have builds : (promote offset b.data).step A (H₁,b) = (.ok (.error (.compare_exchange b.data new)),(H₃,b)) := by
      apply run_eq
      simp only [step,sat_bind,Method.sat_self,sat_onFst]
      rw [sat_of_ok second,sat_of_ok third]
      exact ⟨rfl,rfl⟩
    -- no other thread has changed the word
    simp only [↓reduceIte,sat_bind,Method.sat_put,sat_pure]
    rw [alone_goes builds]
    refine alone_returns (run_eq ?_)
    simp [step]

end Cloning
end Tcio
