import Tcio.Write
import Tcio.BufSpec

/-!
The rule for `poll_write_all_buf`: what the writer does at each call, given the bytes it
has taken so far, decides where the loop ends. A call is made on a slice that is not empty
and follows these bytes; the cursor has always lost what the writer took and no more.
-/
namespace Tcio
open Exec Buf

namespace AsyncWrite
variable {W : Type} {poll_write : PollWrite W} {A : Allocator} {H : Heap} {R : List Handle} {buf : Buf} {w : W} {v : List UInt8}
variable {I : List UInt8 → W → Prop} {F : Poll (IoResult Unit) → List UInt8 → W → Prop} {E : Stop → W → Prop}

/-- What a call leaves when the writer had taken `v` before: the loop goes on only with
    bytes that were taken, and else it returns. -/
def Responds (I : List UInt8 → W → Prop) (F : Poll (IoResult Unit) → List UInt8 → W → Prop) (v s : List UInt8)
    (r : Poll (IoResult Nat)) (w : W) : Prop :=
  match r with
  | .ready (.ok 0) => F (.ready (.error .WriteZero)) v w
  | .ready (.ok n) => n ≤ s.length ∧ I (v++s.take n) w
  | .ready (.error err) => F (.ready (.error err)) v w
  | .pending => F .pending v w

theorem Responds.taken {s : List UInt8} {n : Nat} (some' : 0 < n) (inside : n ≤ s.length) (inv : I (v++s.take n) w) :
    Responds I F v s (.ready (.ok n)) w := by
  cases n with
  | zero => exact absurd some' (Nat.lt_irrefl 0)
  | succ n => exact ⟨inside,inv⟩

/-- The writer has taken `v`, which is gone from the front of the cursor. -/
structure Taken (A : Allocator) (H : Heap) (R : List Handle) (buf : Buf) (v : List UInt8) (p : Heap × Buf) : Prop where
  heap : p.1 = H
  begins : v <+: buf.content H
  moves : Moves A H R v.length buf H p.2

theorem Taken.left {p : Heap × Buf} (taken : Taken A H R buf v p) : p.2.content H = (buf.content H).drop v.length :=
  taken.moves.consumed.content.2

theorem Taken.split {p : Heap × Buf} (taken : Taken A H R buf v p) : v++p.2.content H = buf.content H := by
  obtain ⟨rest,whole⟩ := taken.begins
  rw [taken.left,← whole,List.drop_left]

theorem Taken.trans {p q : Heap × Buf} {s : List UInt8} (one : Taken A H R buf v p) (two : Taken A H R p.2 s q) :
    Taken A H R buf (v++s) q := by
  obtain ⟨H₁,buf'⟩ := p
  have same : H₁ = H := one.heap
  subst same
  refine ⟨two.heap,?_,?_⟩
  · rw [← one.split]
    exact (List.prefix_append_right_inj v).mpr two.begins
  · rw [List.length_append]
    exact one.moves.trans two.moves

/-- A round calls the writer once, unless the cursor is empty. -/
theorem write_round_spec
    (call : ∀ v s w, s ≠ [] → v++s <+: buf.content H → I v w → Sat (poll_write s) w (Responds I F v s) E)
    {p : (Heap × Buf) × W} (taken : Taken A H R buf v p.1) (inv : I v p.2) : Sat (write_round poll_write) p
      (fun o q => ∃ v', Taken A H R buf v' q.1 ∧ match o with
        | none => I v' q.2 ∧ v.length < v'.length
        | some r => r = .ready (.ok ()) ∧ v' = buf.content H ∧ I v' q.2 ∨ v' ≠ buf.content H ∧ F r v' q.2)
      (fun k q => E k q.2) := by
  obtain ⟨⟨H₁,buf'⟩,w⟩ := p
  have same : H₁ = H := taken.heap
  subst same
  have whole := taken.split
  simp only at whole inv
  simp only [write_round,poll_write_buf,sat_bind,sat_onFst,sat_onSnd,Method.sat_self,sat_ite,sat_pure]
  refine ⟨fun empty => ?_,fun some' => ?_⟩
  · have done : buf'.content H₁ = [] := by
      by_contra rest
      simp [(has_remaining_iff taken.moves.sound).mpr rest] at empty
    rw [done,List.append_nil] at whole
    exact ⟨v,taken,.inl ⟨trivial,whole,inv⟩⟩
  · have rest : buf'.content H₁ ≠ [] := (has_remaining_iff taken.moves.sound).mp (by simpa using some')
    obtain ⟨s,ran,small,first,more⟩ := chunk_ok taken.moves.sound
    rw [sat_of_ok ran]
    have follows : v++s <+: buf.content H₁ := by
      rw [← whole]
      exact (List.prefix_append_right_inj v).mpr first
    refine (call v s w (more rest) follows inv).mono ?_ (fun _ _ => id)
    intro r w' responds
    have unread : v ≠ buf.content H₁ := by
      rw [← whole]
      simpa using rest
    cases r with
    | pending => exact ⟨v,taken,.inr ⟨unread,responds⟩⟩
    | ready r =>
      cases r with
      | error err => exact ⟨v,taken,.inr ⟨unread,responds⟩⟩
      | ok n =>
        -- what was taken is advanced over; nothing taken ends the loop
        have accepted : n ≤ s.length := by
          cases n with
          | zero => exact Nat.zero_le _
          | succ n => exact responds.1
        have inside : n ≤ (buf'.content H₁).length := accepted.trans first.length_le
        have word : isizeMax ≤ usizeMax := by decide
        simp only [sat_bind,Method.sat_replace,sat_pure,sat_ite,sat_onFst]
        refine (advance_spec A taken.moves.sound (n := n) (by omega)).mono ?_ ?_
        · rintro buf'' H₁ ⟨rfl,moved⟩
          have size : (s.take n).length = n := by rw [List.length_take,min_eq_left accepted]
          have taken' : Taken A H₁ R buf (v++s.take n) (H₁,buf'') := by
            refine ⟨rfl,?_,?_⟩
            · exact List.IsPrefix.trans ((List.prefix_append_right_inj v).mpr (List.take_prefix n s)) follows
            · rw [List.length_append,size]
              exact taken.moves.trans moved
          refine ⟨fun none => ?_,fun some'' => ?_⟩
          · subst none
            rw [List.take_zero,List.append_nil] at taken'
            exact ⟨v,taken',.inr ⟨unread,responds⟩⟩
          · cases n with
            | zero => exact absurd rfl some''
            | succ n =>
              refine ⟨_,taken',responds.2,?_⟩
              rw [List.length_append,size]
              omega
        · rintro k _ ⟨_,_,short⟩
          exact absurd inside (Nat.not_le_of_lt short)

/-- Where the loop has rounds enough it returns, or the writer stops it. -/
theorem write_all_spec {rounds : Nat} (sound : buf.Sound H R) (enough : (buf.content H).length < rounds)
    (call : ∀ v s w, s ≠ [] → v++s <+: buf.content H → I v w → Sat (poll_write s) w (Responds I F v s) E) (inv : I [] w) :
    Sat (poll_write_all_buf poll_write rounds) ((H,buf),w)
      (fun r p => ∃ v, Taken A H R buf v p.1 ∧
        (r = .ready (.ok ()) ∧ v = buf.content H ∧ I v p.2 ∨ v ≠ buf.content H ∧ F r v p.2))
      (fun k p => E k p.2) := by
  refine Sat.loop (fun p => ∃ v, Taken A H R buf v p.1 ∧ I v p.2) (fun p => (p.1.2.content H).length) ?_ _ _ ?_ enough
  · rintro p ⟨v,taken,inv⟩
    refine (write_round_spec call taken inv).mono ?_ (fun _ _ => id)
    rintro o q ⟨v',taken',outcome⟩
    cases o with
    | some r =>
      refine ⟨?_,nofun⟩
      rintro _ ⟨⟩
      exact ⟨v',taken',outcome⟩
    | none =>
      refine ⟨nofun,fun _ => ⟨⟨v',taken',outcome.1⟩,?_⟩⟩
      have := taken'.begins.length_le
      simp only [taken.left,taken'.left,List.length_drop]
      omega
  · exact ⟨[],⟨rfl,List.nil_prefix,.refl sound⟩,inv⟩

end AsyncWrite
end Tcio
