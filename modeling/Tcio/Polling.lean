import Tcio.Exec

/-!
Processes that are polled. A poll ends with a value or is pending; between two polls the
world that a process shares with others may change, and a schedule says how. What a process
comes to over a schedule is the value that it ends with, the world at that point and the
part of the schedule that is left; its own state is nobody else's.
-/
namespace Tcio
open Exec

inductive Poll (α : Type) where
  | ready (a : α)
  | pending
  deriving DecidableEq, Repr

namespace Poll
variable {α β : Type}

def map (f : α → β) : Poll α → Poll β
  | ready a => ready (f a)
  | pending => pending
def isReady : Poll α → Bool
  | ready _ => true
  | pending => false

end Poll

/-- What a poll of a process with state `F` does in the world `W`. -/
abbrev Process (W F O : Type) := Exec (W × F) (Poll O)

/-- What happens in the world before each poll. -/
abbrev Schedule (W : Type) := List (W → W)

/-- How a process ends: with a value and the schedule that is left, or not at all. -/
abbrev Ending (W O : Type) := Option (O × Schedule W)

namespace Polling
variable {W F G A B O : Type} {p : Process W F A} {q : Process W G O} {f : F} {g : G} {e : W → W} {es rest : Schedule W} {w : W}

/-! ### Programs that keep a part of the state to themselves -/

@[simp] theorem lend_pure {a : A} : lend f (pure a : Exec (W × F) A) = pure (a,f) := rfl
@[simp] theorem lend_get : lend f (onSnd get : Exec (W × F) F) = pure (f,f) := rfl
@[simp] theorem lend_modify {u : F → F} : lend f (onSnd (modify u) : Exec (W × F) Unit) = pure ((),u f) := rfl
theorem lend_bind {x : Exec (W × F) A} {k : A → Exec (W × F) B} : lend f (x >>= k) = lend f x >>= fun r => lend r.2 (k r.1) := by
  funext w
  simp only [lend,bind]
  rcases x (w,f) with ⟨_ | a,w',f'⟩ <;> rfl
theorem lend_map {g : A → B} {x : Exec (W × F) A} : lend f (g <$> x) = (fun r => (g r.1,r.2)) <$> lend f x := by
  rw [map_eq_pure_bind,map_eq_pure_bind,lend_bind]
  rfl
@[simp] theorem lend_onFst {x : Exec W A} : lend f (onFst x) = (fun a => (a,f)) <$> x := by
  funext w
  simp only [lend,onFst,zoom,Functor.map]
  rcases x w with ⟨_ | a,w'⟩ <;> rfl

/-- Run a program on a part of the state that is its own. -/
def within (f : F) (whole : F → G) (x : Exec (W × F) A) : Exec (W × G) A := zoom (fun p => (p.1,f)) (fun _ q => (q.1,whole q.2)) x

@[simp] theorem lend_within {whole : F → G} {x : Exec (W × F) A} :
    lend g (within f whole x) = (fun r => (r.1,whole r.2)) <$> lend f x := by
  funext w
  simp only [lend,within,zoom,Functor.map]
  rcases x (w,f) with ⟨_ | a,w',f'⟩ <;> rfl

@[simp] theorem sat_within {whole : F → G} {x : Exec (W × F) A} {s : W × G} {Q : A → W × G → Prop} {E : Stop → W × G → Prop} :
    Sat (within f whole x) s Q E ↔ Sat x (s.1,f) (fun a t => Q a (t.1,whole t.2)) (fun k t => E k (t.1,whole t.2)) := sat_zoom

/-! ### Runs -/

/-- Poll until there is a value or the schedule is over. -/
def run (p : Process W F O) : F → Schedule W → Exec W (Ending W O)
  | _,[] => pure none
  | f,e :: es => do
    modify e
    match ← lend f p with
    | (.ready a,_) => return some (a,es)
    | (.pending,f) => run p f es

/-- Go on after a poll, with the schedule that is left. -/
def resume (p : Process W F O) (es : Schedule W) : Poll O × F → Exec W (Ending W O)
  | (.ready a,_) => pure (some (a,es))
  | (.pending,f) => run p f es

/-- Go on with the value of a process that has ended. -/
def followed (k : A → Schedule W → Exec W (Ending W O)) : Ending W A → Exec W (Ending W O)
  | none => pure none
  | some (a,es) => k a es

theorem run_cons : run p f (e :: es) = modify e >>= fun _ => lend f p >>= resume p es := by
  rw [run]
  rfl
/-- A poll at once, in the world as it is. -/
theorem run_now : run p f (id :: es) = lend f p >>= resume p es := run_cons

theorem followed_bind {k : A → Schedule W → Exec W (Ending W B)} {l : B → Schedule W → Exec W (Ending W O)} {x : Exec W (Ending W A)} :
    (x >>= followed k) >>= followed l = x >>= followed fun a es => k a es >>= followed l := by
  rw [bind_assoc]
  congr 1
  funext r
  rcases r with _ | ⟨a,es⟩ <;> rfl

theorem followed_pure {x : Exec W (Ending W A)} : (x >>= followed fun a es => pure (some (a,es))) = x := by
  rw [← bind_pure x,bind_assoc]
  congr 1
  funext r
  rcases r with _ | ⟨a,es⟩ <;> rfl

/-- What a process does that polls another one, and goes on where that is ready. -/
def passed (whole : F → G) (next : A → F → Exec W (Poll O × G)) : Poll A × F → Exec W (Poll O × G)
  | (.ready a,f) => next a f
  | (.pending,f) => pure (.pending,whole f)

/-- A process that polls another one until that is ready comes to what it does with the
    value. -/
theorem run_passed (whole : F → G) (next : A → F → Exec W (Poll O × G)) {k : A → Schedule W → Exec W (Ending W O)}
    (polls : ∀ f, lend (whole f) q = lend f p >>= passed whole next) (goes : ∀ a f rest, next a f >>= resume q rest = k a rest) :
    run q (whole f) es = run p f es >>= followed k := by
  induction es generalizing f with
  | nil => rfl
  | cons e es ih =>
    rw [run_cons,run_cons,polls,bind_assoc,bind_assoc,bind_assoc]
    congr 1
    funext _
    congr 1
    funext r
    rcases r with ⟨a | _,f'⟩
    · exact goes a f' es
    · exact ih

/-- A process that is another one in all but its state. -/
theorem run_within {whole : F → G} {p : Process W F O} (polls : ∀ f, lend (whole f) q = (fun r => (r.1,whole r.2)) <$> lend f p) :
    run q (whole f) es = run p f es := by
  induction es generalizing f with
  | nil => rfl
  | cons e es ih =>
    rw [run_cons,run_cons,polls,map_eq_pure_bind,bind_assoc]
    congr 1
    funext _
    congr 1
    funext r
    rcases r with ⟨a | _,f'⟩
    · rfl
    · exact ih

/-! ### Histories -/

/-- What each poll comes to where polls go on, whether one was ready, pending or has panicked. -/
def history (p : Exec (W × F) O) : Schedule W → W × F → List (Except Stop O) × W × F
  | [],s => ([],s)
  | e :: es,s =>
    let (r,t) := p (e s.1,s.2)
    let (rs,u) := history p es t
    (r :: rs,u)

/-- What every poll keeps holds after any history. -/
theorem history_keeps (inv : W × F → Prop) {p : Exec (W × F) O} (step : ∀ e ∈ es, ∀ s, inv s → inv (e s.1,s.2))
    (poll : ∀ s, inv s → Sat p s (fun _ t => inv t) (fun _ t => inv t)) {s : W × F} (holds : inv s) : inv (history p es s).2 := by
  induction es generalizing s with
  | nil => exact holds
  | cons e es ih =>
    refine ih (fun e mem => step e (List.mem_cons_of_mem _ mem)) ?_
    have after := poll _ (step e List.mem_cons_self s holds)
    rcases ran : p (e s.1,s.2) with ⟨k | r,t⟩
    · rwa [sat_of_error ran] at after
    · rwa [sat_of_ok ran] at after

/-- Where a poll returns as long as an invariant holds, every poll of a history does. -/
theorem history_returns (inv : W × F → Prop) {p : Exec (W × F) O} (step : ∀ e ∈ es, ∀ s, inv s → inv (e s.1,s.2))
    (poll : ∀ s, inv s → Sat p s (fun _ t => inv t) (fun _ _ => False)) {s : W × F} (holds : inv s) :
    ∀ r ∈ (history p es s).1, ∃ a, r = .ok a := by
  induction es generalizing s with
  | nil =>
    intro r mem
    cases mem
  | cons e es ih =>
    obtain ⟨a,t,ran,after⟩ | ⟨k,t,_,bad⟩ := (poll _ (step e List.mem_cons_self s holds)).cases
    · have later := ih (fun e mem => step e (List.mem_cons_of_mem _ mem)) after
      rw [history,ran]
      intro r mem
      rcases List.mem_cons.mp mem with same | mem
      · exact ⟨a,same⟩
      · exact later r mem
    · exact bad.elim

/-- A process whose polls are those of another one, with other results. -/
theorem history_within {p : Exec (W × F) A} {q : Exec (W × G) O} (whole : F → G) (outcome : Except Stop A → Except Stop O) (es : Schedule W)
    (polls : ∀ s, q (s.1,whole s.2) = (outcome (p s).1,(p s).2.1,whole (p s).2.2)) (s : W × F) :
    history q es (s.1,whole s.2) = ((history p es s).1.map outcome,(history p es s).2.1,whole (history p es s).2.2) := by
  induction es generalizing s with
  | nil => rfl
  | cons e es ih =>
    simp only [history]
    rw [polls (e s.1,s.2),ih]
    rfl

/-- A poll that was ready. -/
def completed : Except Stop (Poll O) → Bool
  | .ok r => r.isReady
  | .error _ => false

/-- Where each completion uses up what no poll gives back, there are only so many. -/
theorem history_completes {p : Process W F O} (fuel : F → Nat) (poll : ∀ s, Sat p s
      (fun r t => fuel t.2+(if r.isReady then 1 else 0) ≤ fuel s.2) (fun _ t => fuel t.2 ≤ fuel s.2)) {s : W × F} :
    (history p es s).1.countP completed ≤ fuel s.2 := by
  induction es generalizing s with
  | nil => exact Nat.zero_le _
  | cons e es ih =>
    have after := poll (e s.1,s.2)
    have later := ih (s := (p (e s.1,s.2)).2)
    rw [history,List.countP_cons]
    rcases ran : p (e s.1,s.2) with ⟨k | r,t⟩
    · rw [ran] at later
      rw [sat_of_error ran] at after
      exact Nat.le_trans later after
    · rw [ran] at later
      rw [sat_of_ok ran] at after
      exact Nat.le_trans (Nat.add_le_add_right later _) after

end Polling
end Tcio
