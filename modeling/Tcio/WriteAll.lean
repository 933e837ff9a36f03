import Tcio.WriteSpec
import Tcio.Puts

/-!
Repeated polls of `poll_write_all_buf` on one cursor, over any writer. Whatever a poll ends
with, the bytes that the writer has taken so far and those left in the cursor are the
bytes that the cursor had at first.
-/
namespace Tcio
open Exec Buf

namespace AsyncWrite
variable {W : Type}

/-- A call of `poll_write` and what it returned. -/
structure Call where
  slice : List UInt8
  result : Poll (IoResult Nat)

/-- The bytes that the writer took in a call. -/
def Call.accepted (call : Call) : List UInt8 :=
  match call.result with
  | .ready (.ok n) => call.slice.take n
  | _ => []
def accepted (calls : List Call) : List UInt8 := calls.flatMap Call.accepted

/-- A writer that notes its calls. -/
def logged (poll_write : PollWrite W) : PollWrite (W × List Call) := fun buf => do
  let result ← onFst (poll_write buf)
  modify fun p => (p.1,p.2++[⟨buf,result⟩])
  return result

/-- The writer returns at each call, and takes no more than it is given. -/
def Lawful (poll_write : PollWrite W) : Prop :=
  ∀ s w, Sat (poll_write s) w (fun r _ => ∀ n, r = .ready (.ok n) → n ≤ s.length) (fun _ _ => False)

/-- The states that polls lead to, of a loop whose rounds suffice. -/
inductive Polled (poll_write : PollWrite W) (s : (Heap × Buf) × W × List Call) : (Heap × Buf) × W × List Call → Prop
  | start : Polled poll_write s s
  | poll {t u : (Heap × Buf) × W × List Call} {rounds : Nat} {r : Poll (IoResult Unit)} (polled : Polled poll_write s t)
      (enough : (t.1.2.content t.1.1).length < rounds)
      (ran : poll_write_all_buf (logged poll_write) rounds t = (.ok r,u)) : Polled poll_write s u

/-- A poll on a cursor that stood for `v` at first has returned `r`, where `Z` tells which
    results of the writer may lead to `WriteZero`. -/
structure Returned (Z : Poll (IoResult Nat) → Prop) (v : List UInt8) (before : (Heap × Buf) × W × List Call)
    (r : Poll (IoResult Unit)) (after : (Heap × Buf) × W × List Call) : Prop where
  kept : accepted after.2.2++after.1.2.content after.1.1 = v
  ok_iff : r = .ready (.ok ()) ↔ after.1.2.content after.1.1 = []
  zero : r = .ready (.error .WriteZero) → ∃ call, after.2.2.getLast? = some call ∧ call.slice ≠ [] ∧ Z call.result
  calls : ∃ calls, after.2.2 = before.2.2++calls ∧ (∀ call ∈ calls, call.slice ≠ []) ∧
    calls.length ≤ (before.1.2.content before.1.1).length

variable {poll_write : PollWrite W} {A : Allocator} {H : Heap} {R : List Handle} {buf : Buf} {w : W} {v : List UInt8}
variable {log calls : List Call} {call : Call} {rounds : Nat} {s t : (Heap × Buf) × W × List Call}

theorem accepted_append : accepted (log++calls) = accepted log++accepted calls := List.flatMap_append
@[simp] theorem accepted_single : accepted [call] = call.accepted := by simp [accepted]

/-- The calls of a poll that goes on: each took at least a byte. -/
structure Going (v : List UInt8) (calls : List Call) : Prop where
  took : accepted calls = v
  nonempty : ∀ call ∈ calls, call.slice ≠ []
  few : calls.length ≤ v.length

theorem Going.next (going : Going v calls) (some' : call.slice ≠ []) (more : call.accepted ≠ []) :
    Going (v++call.accepted) (calls++[call]) where
  took := by rw [accepted_append,accepted_single,going.took]
  nonempty := by
    simp only [List.mem_append,List.mem_singleton]
    rintro c (old | rfl)
    · exact going.nonempty c old
    · exact some'
  few := by
    have := going.few
    have := List.length_pos_iff.mpr more
    simp only [List.length_append,List.length_singleton]
    omega

/-- What is noted while the poll goes on. -/
def Noted (log : List Call) (v : List UInt8) (p : W × List Call) : Prop := ∃ calls, p.2 = log++calls ∧ Going v calls

/-- The result of the writer that ends a poll, and what is returned. -/
def Ends (result : Poll (IoResult Nat)) (r : Poll (IoResult Unit)) : Prop :=
  match result with
  | .ready (.ok n) => n = 0 ∧ r = .ready (.error .WriteZero)
  | .ready (.error err) => r = .ready (.error err)
  | .pending => r = .pending

theorem Ends.not_ok {result : Poll (IoResult Nat)} {r : Poll (IoResult Unit)} (ends : Ends result r) : r ≠ .ready (.ok ()) := by
  rcases result with (err | n) | _
  · rw [show r = .ready (.error err) from ends]
    nofun
  · rw [ends.2]
    nofun
  · rw [show r = .pending from ends]
    nofun

/-- `WriteZero` comes from a call that took nothing, or it is the writer's own error. -/
theorem Ends.zero {result : Poll (IoResult Nat)} (ends : Ends result (.ready (.error .WriteZero))) :
    result = .ready (.ok 0) ∨ result = .ready (.error .WriteZero) := by
  rcases result with (err | n) | _
  · cases ends
    exact .inr rfl
  · rw [ends.1]
    exact .inl rfl
  · cases ends

/-- The last call took nothing, and its result ended the poll. -/
def Stopped (log : List Call) (r : Poll (IoResult Unit)) (v : List UInt8) (p : W × List Call) : Prop :=
  ∃ calls call, p.2 = log++calls++[call] ∧ call.slice ≠ [] ∧ call.accepted = [] ∧ Going v calls ∧ Ends call.result r

theorem logged_call (lawful : Lawful poll_write) {s : List UInt8} (some' : s ≠ []) {p : W × List Call}
    (noted : Noted log v p) : Sat (logged poll_write s) p (Responds (Noted log) (Stopped log) v s) (fun _ _ => False) := by
  obtain ⟨w,_⟩ := p
  obtain ⟨calls,rfl,going⟩ := noted
  simp only [logged,sat_bind,sat_onFst,sat_modify,sat_pure]
  refine (lawful s w).mono ?_ (fun _ _ => id)
  intro r w' within
  have stopped : ∀ {r'}, (Call.mk s r).accepted = [] → Ends r r' → Stopped log r' v (w',log++calls++[⟨s,r⟩]) :=
    fun none ends => ⟨calls,⟨s,r⟩,rfl,some',none,going,ends⟩
  cases r with
  | pending => exact stopped rfl rfl
  | ready r =>
    cases r with
    | error err => exact stopped rfl rfl
    | ok n =>
      have inside := within n rfl
      cases n with
      | zero => exact stopped rfl ⟨rfl,rfl⟩
      | succ n =>
        have more : (Call.mk s (.ready (.ok (n+1)))).accepted ≠ [] := by simpa [Call.accepted] using some'
        exact ⟨inside,_,List.append_assoc ..,going.next some' more⟩

/-- Before a poll the writer has taken what the cursor has lost. -/
theorem poll_returns (lawful : Lawful poll_write) {p : Heap × Buf} {log : List Call} (taken : Taken A H R buf (accepted log) p)
    (enough : (p.2.content p.1).length < rounds) : Sat (poll_write_all_buf (logged poll_write) rounds) (p,w,log)
      (fun r q => Taken A H R buf (accepted q.2.2) q.1 ∧
        Returned (fun result => result = .ready (.ok 0) ∨ result = .ready (.error .WriteZero)) (buf.content H) (p,w,log) r q)
      (fun _ _ => False) := by
  obtain ⟨H₁,buf'⟩ := p
  have same : H₁ = H := taken.heap
  subst same
  refine (write_all_spec (A := A) (I := Noted log) (F := Stopped log) (E := fun _ _ => False) taken.moves.sound enough
    (fun v s p some' _ noted => logged_call lawful some' noted) ⟨[],(List.append_nil _).symm,rfl,nofun,Nat.le_refl _⟩).mono ?_ (fun _ _ => id)
  rintro r ⟨⟨H₂,buf''⟩,w',noted⟩ ⟨v,taken',outcome⟩
  have same : H₂ = H₁ := taken'.heap
  subst same
  have all := taken.trans taken'
  have whole := all.split
  have rest := taken'.split
  simp only at whole rest
  rcases outcome with ⟨rfl,full,calls,rfl,going⟩ | ⟨unread,calls,call,rfl,some',none,going,ends⟩
  · have same : accepted (log++calls) = accepted log++v := by rw [accepted_append,going.took]
    have empty : buf''.content H₂ = [] := by rwa [full,List.append_right_eq_self] at rest
    refine ⟨same ▸ all,⟨by rw [same]; exact whole,iff_of_true rfl empty,nofun,calls,rfl,going.nonempty,?_⟩⟩
    rw [← full]
    exact going.few
  · have same : accepted (log++calls++[call]) = accepted log++v := by
      rw [accepted_append,accepted_append,accepted_single,none,going.took,List.append_nil]
    have more : buf''.content H₂ ≠ [] := by
      intro empty
      rw [empty,List.append_nil] at rest
      exact unread rest
    refine ⟨same ▸ all,⟨by rw [same]; exact whole,iff_of_false ends.not_ok more,fun zero => ?_,calls++[call],List.append_assoc ..,?_,?_⟩⟩
    · subst zero
      exact ⟨call,List.getLast?_concat,some',ends.zero⟩
    · simp only [List.mem_append,List.mem_singleton]
      rintro c (old | rfl)
      · exact going.nonempty c old
      · exact some'
    · have few := going.few
      have length := congrArg List.length rest
      have left := List.length_pos_iff.mpr more
      rw [List.length_append] at length
      simp only [List.length_append,List.length_singleton]
      omega

theorem polled_taken (lawful : Lawful poll_write) (sound : buf.Sound H R) (polled : Polled poll_write ((H,buf),w,[]) t) :
    Taken A H R buf (accepted t.2.2) t.1 := by
  induction polled with
  | start => exact ⟨rfl,List.nil_prefix,.refl sound⟩
  | poll _ enough ran taken => exact ((sat_of_ok ran).mp (poll_returns lawful taken enough)).1

/-- However polls of one cursor end, the next one returns, and nothing is lost, repeated or
    reordered. -/
theorem polls_keep (lawful : Lawful poll_write) (sound : buf.Sound H R) (polled : Polled poll_write ((H,buf),w,[]) t)
    (enough : (t.1.2.content t.1.1).length < rounds) : Sat (poll_write_all_buf (logged poll_write) rounds) t
      (fun r u => Returned (fun result => result = .ready (.ok 0) ∨ result = .ready (.error .WriteZero)) (buf.content H) t r u)
      (fun _ _ => False) := by
  have taken := polled_taken (A := bump 0) lawful sound polled
  exact (poll_returns lawful taken enough).mono (fun _ _ => And.right) (fun _ _ => id)

/-- A writer that takes two bytes at most, and is not ready at every other call. -/
def slow : PollWrite Bool := fun buf => do
  let ready ← get
  set (!ready)
  if ready then return .ready (.ok (min buf.length 2))
  return .pending

theorem slow_lawful : Lawful slow := by
  intro s w
  simp only [slow,sat_bind,sat_get,sat_set,sat_ite,sat_pure]
  constructor
  · rintro _ n ⟨⟩
    exact Nat.min_le_left _ _
  · rintro _ n ⟨⟩

/-- Polls before and after the writer was not ready. -/
theorem polls_keep_joined : ∃ w, World.JoinableRun (bump 0) (World.start []) w ∧
    ∃ r t, poll_write_all_buf (logged slow) 5 ((w.heap,joined),true,[]) = (.ok r,t) ∧
      Sat (poll_write_all_buf (logged slow) 5) t (fun r u => Returned
        (fun result => result = .ready (.ok 0) ∨ result = .ready (.error .WriteZero)) (joined.content w.heap) t r u)
      (fun _ _ => False) := by
  obtain ⟨w,run,_,sound,_,same⟩ := joined_sound
  have enough : (joined.content w.heap).length < 5 := by rw [same]; decide
  have first : Polled slow ((w.heap,joined),true,[]) _ := .start
  obtain ⟨r,t,ran,returned⟩ | ⟨_,_,_,bad⟩ := (polls_keep slow_lawful sound first enough).cases
  · refine ⟨w,run,r,t,ran,polls_keep slow_lawful sound (first.poll enough ran) ?_⟩
    have length := congrArg List.length returned.kept
    rw [List.length_append] at length
    omega
  · exact bad.elim

/-- A writer that fails with `WriteZero` itself. -/
theorem own_error : ¬ ∀ (W : Type) (poll_write : PollWrite W) (H : Heap) (R : List Handle) (buf : Buf) (w : W)
    (t : (Heap × Buf) × W × List Call) (rounds : Nat), Lawful poll_write → buf.Sound H R → Polled poll_write ((H,buf),w,[]) t →
    (t.1.2.content t.1.1).length < rounds → Sat (poll_write_all_buf (logged poll_write) rounds) t
      (fun r u => Returned (fun result => result = .ready (.ok 0)) (buf.content H) t r u) (fun _ _ => False) := by
  intro claim
  have well := claim Unit (fun _ => pure (.ready (.error .WriteZero))) (World.start []).heap [] (slice ⟨[1],by decide⟩) () _ 2
    (fun s w n bad => nomatch bad) (World.start_initial []).sound .start (by decide)
  obtain ⟨call,last,_,zero⟩ := Returned.zero well rfl
  cases last
  cases zero

end AsyncWrite
end Tcio
