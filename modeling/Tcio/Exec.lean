import Mathlib.Tactic.Common

/-!
Programs that act on a state and may stop without returning, and what it takes
for a program to meet a postcondition. A program that stops keeps the state it
had reached: a panic unwinds, and what was changed before it stays changed.
Loops run on fuel; `Sat.loop` is the rule that shows a loop never runs out of it.
-/
namespace Tcio

/-- Why a program stops without returning. -/
inductive Stop where
  /-- A panic that unwinds to the caller. -/
  | panic
  /-- The process is aborted. -/
  | abort
  /-- Undefined behaviour: an access no live allocation allows. -/
  | fault
  /-- A loop that ran out of fuel. -/
  | spin
  /-- A call that does not type-check. -/
  | stuck
  deriving DecidableEq, Repr

/-- A program over the state `σ` with results in `α`. -/
def Exec (σ α : Type) : Type := σ → Except Stop α × σ

namespace Exec
variable {σ τ α β : Type}

instance : Monad (Exec σ) where
  pure a := fun s => (.ok a,s)
  bind x f := fun s =>
    match x s with
    | (.ok a,t) => f a t
    | (.error k,t) => (.error k,t)

instance : LawfulMonad (Exec σ) := by
  refine LawfulMonad.mk' (Exec σ) (fun x => ?_) (fun _ _ => rfl) (fun x f g => ?_)
  · funext s
    simp only [Functor.map]
    rcases x s with ⟨_ | _,_⟩ <;> rfl
  · funext s
    simp only [Bind.bind]
    rcases x s with ⟨_ | _,_⟩ <;> rfl

def stop (k : Stop) : Exec σ α := fun s => (.error k,s)
def get : Exec σ σ := fun s => (.ok s,s)
def set (t : σ) : Exec σ Unit := fun _ => (.ok (),t)
def modify (f : σ → σ) : Exec σ Unit := fun s => (.ok (),f s)
/-- The value of a partial operation, which stops where it has none. -/
def ofOption (k : Stop) : Option α → Exec σ α
  | some a => pure a
  | none => stop k
/-- Go on only where the condition holds. -/
def check (k : Stop) (c : Prop) [Decidable c] : Exec σ Unit := if c then pure () else stop k

/-- Run a program on a part of the state. -/
def zoom (part : σ → τ) (update : σ → τ → σ) (x : Exec τ α) : Exec σ α := fun s =>
  match x (part s) with
  | (r,t) => (r,update s t)
/-- A program on the first half of a pair of states. -/
def onFst (x : Exec σ α) : Exec (σ × τ) α := zoom Prod.fst (fun s t => (t,s.2)) x
/-- A program on the second half of a pair of states. -/
def onSnd (x : Exec τ α) : Exec (σ × τ) α := zoom Prod.snd (fun s t => (s.1,t)) x
/-- Lend `t` to a program and take it back with the result. -/
def lend (t : τ) (x : Exec (σ × τ) α) : Exec σ (α × τ) := fun s =>
  match x (s,t) with
  | (.ok a,s',t') => (.ok (a,t'),s')
  | (.error k,s',_) => (.error k,s')

/-- Run `cleanup` after `x`, also when `x` panics, as unwinding drops a local. -/
def ensure (x : Exec σ α) (cleanup : Exec σ Unit) : Exec σ α := fun s =>
  match x s with
  | (.ok a,t) => (do cleanup; pure a : Exec σ α) t
  | (.error .panic,t) => (do cleanup; stop .panic : Exec σ α) t
  | (.error k,t) => (.error k,t)

/-- Repeat a body until it gives a result; `none` asks for another round. -/
def loop (body : Exec σ (Option α)) : Nat → Exec σ α
  | 0 => stop .spin
  | n+1 => do
    match ← body with
    | some a => pure a
    | none => loop body n

/-- `x` run from `s` meets `Q` when it returns and `E` when it stops. -/
def Sat (x : Exec σ α) (s : σ) (Q : α → σ → Prop) (E : Stop → σ → Prop) : Prop :=
  match x s with
  | (.ok a,t) => Q a t
  | (.error k,t) => E k t

variable {x : Exec σ α} {f : α → Exec σ β} {s t : σ} {k : Stop} {a : α}
variable {Q Q' : α → σ → Prop} {R : β → σ → Prop} {E E' : Stop → σ → Prop}

/-! ### What each program does to a postcondition -/

@[simp] theorem sat_pure : Sat (pure a : Exec σ α) s Q E ↔ Q a s := Iff.rfl
@[simp] theorem sat_stop : Sat (stop k : Exec σ α) s Q E ↔ E k s := Iff.rfl
@[simp] theorem sat_get {Q : σ → σ → Prop} : Sat (get : Exec σ σ) s Q E ↔ Q s s := Iff.rfl
@[simp] theorem sat_set {Q : Unit → σ → Prop} : Sat (set t) s Q E ↔ Q () t := Iff.rfl
@[simp] theorem sat_modify {Q : Unit → σ → Prop} {g : σ → σ} : Sat (modify g) s Q E ↔ Q () (g s) := Iff.rfl

@[simp] theorem sat_bind : Sat (x >>= f) s R E ↔ Sat x s (fun a t => Sat (f a) t R E) E := by
  rcases run : x s with ⟨k | a,t⟩
  · have stops : (x >>= f) s = (.error k,t) := by simp only [Bind.bind,run]
    simp only [Sat,run,stops]
  · have goes : (x >>= f) s = f a t := by simp only [Bind.bind,run]
    simp only [Sat,run,goes]

@[simp] theorem sat_map {g : α → β} : Sat (g <$> x) s R E ↔ Sat x s (fun a t => R (g a) t) E :=
  sat_bind (f := fun a => pure (g a))

@[simp] theorem sat_check {c : Prop} [Decidable c] {Q : Unit → σ → Prop} :
    Sat (check k c) s Q E ↔ (c → Q () s) ∧ (¬ c → E k s) := by
  unfold check
  by_cases holds : c <;> simp [holds]

@[simp] theorem sat_ofOption {o : Option α} :
    Sat (ofOption k o) s Q E ↔ (∀ a, o = some a → Q a s) ∧ (o = none → E k s) := by
  cases o <;> simp [ofOption]

@[simp] theorem sat_ite {c : Prop} [Decidable c] {y : Exec σ α} :
    Sat (if c then x else y) s Q E ↔ (c → Sat x s Q E) ∧ (¬ c → Sat y s Q E) := by
  by_cases holds : c <;> simp [holds]

@[simp] theorem sat_zoom {part : σ → τ} {update : σ → τ → σ} {y : Exec τ α} :
    Sat (zoom part update y) s Q E ↔
      Sat y (part s) (fun a t => Q a (update s t)) (fun k t => E k (update s t)) := by
  unfold Sat zoom
  rcases y (part s) with ⟨_ | _,t⟩ <;> rfl

@[simp] theorem sat_onFst {p : σ × τ} {Q : α → σ × τ → Prop} {E : Stop → σ × τ → Prop} :
    Sat (onFst x) p Q E ↔ Sat x p.1 (fun a t => Q a (t,p.2)) (fun k t => E k (t,p.2)) := sat_zoom

@[simp] theorem sat_onSnd {y : Exec τ α} {p : σ × τ} {Q : α → σ × τ → Prop} {E : Stop → σ × τ → Prop} :
    Sat (onSnd y) p Q E ↔ Sat y p.2 (fun a t => Q a (p.1,t)) (fun k t => E k (p.1,t)) := sat_zoom

@[simp] theorem sat_lend {u : τ} {y : Exec (σ × τ) α} {Q : α × τ → σ → Prop} :
    Sat (lend u y) s Q E ↔ Sat y (s,u) (fun a p => Q (a,p.2) p.1) (fun k p => E k p.1) := by
  unfold Sat lend
  rcases y (s,u) with ⟨_ | _,t,u'⟩ <;> rfl

/-! ### Rules -/

theorem sat_of_ok (run : x s = (.ok a,t)) : Sat x s Q E ↔ Q a t := by simp only [Sat,run]
theorem sat_of_error (run : x s = (.error k,t)) : Sat x s Q E ↔ E k t := by simp only [Sat,run]

theorem ok_bind (run : x s = (.ok a,t)) : (x >>= f) s = f a t := by simp only [Bind.bind,run]
theorem map_congr {y : Exec σ α} {g : α → β} (same : x s = y s) : (g <$> x) s = (g <$> y) s := by simp only [Functor.map,same]
theorem check_ok {p : Prop} [Decidable p] (holds : p) : check k p s = (.ok (),s) := by
  rw [check,if_pos holds]
  rfl

/-- What holds of every way a program may run. -/
theorem sat_of_run (ok : ∀ a t, x s = (.ok a,t) → Q a t) (error : ∀ k t, x s = (.error k,t) → E k t) : Sat x s Q E := by
  rcases run : x s with ⟨k | a,t⟩
  · exact (sat_of_error run).mpr (error k t run)
  · exact (sat_of_ok run).mpr (ok a t run)

theorem sat_congr {y : Exec σ α} (same : x s = y s) : Sat x s Q E ↔ Sat y s Q E := by simp only [Sat,same]
theorem sat_any : Sat x s (fun _ _ => True) (fun _ _ => True) := sat_of_run (fun _ _ _ => trivial) (fun _ _ _ => trivial)

/-- A program that only reads is known by what it returns. -/
theorem run_eq (sat : Sat x s (fun b u => b = a ∧ u = t) (fun _ _ => False)) : x s = (.ok a,t) := by
  rcases run : x s with ⟨k | b,u⟩
  · rw [sat_of_error run] at sat
    exact sat.elim
  · rw [sat_of_ok run] at sat
    rw [sat.1,sat.2]

/-- A program that stops and leaves the state as it was. -/
theorem stop_eq (sat : Sat x s (fun _ _ => False) (fun j u => j = k ∧ u = t)) : x s = (.error k,t) := by
  rcases run : x s with ⟨j | b,u⟩
  · rw [sat_of_error run] at sat
    rw [sat.1,sat.2]
  · rw [sat_of_ok run] at sat
    exact sat.elim

theorem Sat.mono (sat : Sat x s Q E) (post : ∀ a t, Q a t → Q' a t) (stops : ∀ k t, E k t → E' k t) :
    Sat x s Q' E' := by
  rcases run : x s with ⟨k | a,t⟩
  · rw [sat_of_error run] at *
    exact stops k t sat
  · rw [sat_of_ok run] at *
    exact post a t sat

/-- Sequencing: the rest meets the postcondition wherever the first part leads. -/
theorem Sat.bind (first : Sat x s Q E') (rest : ∀ a t, Q a t → Sat (f a) t R E)
    (stops : ∀ k t, E' k t → E k t) : Sat (x >>= f) s R E :=
  sat_bind.mpr (first.mono rest stops)

theorem sat_ensure {cleanup : Exec σ Unit} (sat : Sat x s
    (fun a t => Sat cleanup t (fun _ u => Q a u) E)
    (fun k t => if k = .panic then Sat cleanup t (fun _ u => E .panic u) E else E k t)) :
    Sat (ensure x cleanup) s Q E := by
  rcases run : x s with ⟨k | a,t⟩
  · rw [sat_of_error run] at sat
    by_cases unwinds : k = .panic
    · subst unwinds
      have same : ensure x cleanup s = (do cleanup; stop .panic : Exec σ α) t := by simp only [ensure,run]
      simpa only [Sat,same] using (sat_bind (f := fun _ => stop .panic)).mpr sat
    · have same : ensure x cleanup s = (.error k,t) := by
        cases k <;> first | contradiction | simp only [ensure,run]
      rw [sat_of_error same]
      simpa only [unwinds,↓reduceIte] using sat
  · rw [sat_of_ok run] at sat
    have same : ensure x cleanup s = (do cleanup; pure a : Exec σ α) t := by simp only [ensure,run]
    simpa only [Sat,same] using (sat_bind (f := fun _ => pure a)).mpr sat

theorem Sat.and (left : Sat x s Q E) (right : Sat x s Q' E') :
    Sat x s (fun a t => Q a t ∧ Q' a t) (fun k t => E k t ∧ E' k t) := by
  rcases run : x s with ⟨k | a,t⟩
  · rw [sat_of_error run] at *
    exact ⟨left,right⟩
  · rw [sat_of_ok run] at *
    exact ⟨left,right⟩

/-- A program that meets a postcondition either returns and meets it or stops. -/
theorem Sat.cases (sat : Sat x s Q E) :
    (∃ a t, x s = (.ok a,t) ∧ Q a t) ∨ ∃ k t, x s = (.error k,t) ∧ E k t := by
  rcases run : x s with ⟨k | a,t⟩
  · rw [sat_of_error run] at sat
    exact .inr ⟨k,t,rfl,sat⟩
  · rw [sat_of_ok run] at sat
    exact .inl ⟨a,t,rfl,sat⟩

/-- A loop whose body keeps an invariant and lowers a measure each round meets
    the postcondition its last round establishes. -/
theorem Sat.loop {body : Exec σ (Option α)} (inv : σ → Prop) (measure : σ → Nat)
    (round : ∀ s, inv s → Sat body s
      (fun o t => (∀ a, o = some a → Q a t) ∧ (o = none → inv t ∧ measure t < measure s)) E) :
    ∀ fuel s, inv s → measure s < fuel → Sat (loop body fuel) s Q E := by
  intro fuel
  induction fuel with
  | zero => intro s _ low; omega
  | succ n ih =>
    intro s holds low
    unfold Exec.loop
    refine (round s holds).bind ?_ (fun _ _ stops => stops)
    rintro o t ⟨done,again⟩
    cases o with
    | some a => exact done a rfl
    | none =>
      obtain ⟨next,less⟩ := again rfl
      exact ih t next (by omega)

/-! ### Invariants of a program -/

/-- Where the program returns or panics, what held before holds again. -/
def Keeps (inv : σ → Prop) (x : Exec σ α) : Prop := ∀ s, inv s → Sat x s (fun _ t => inv t) (fun k t => k = .panic → inv t)

namespace Keeps
variable {inv : σ → Prop} {inv' : τ → Prop}

theorem pure {a : α} : Keeps inv (pure a) := fun _ holds => holds
theorem stop : Keeps inv (stop k : Exec σ α) := fun _ holds _ => holds
theorem get : Keeps inv get := fun _ holds => holds
theorem modify {g : σ → σ} (kept : ∀ s, inv s → inv (g s)) : Keeps inv (modify g) := kept
theorem check {c : Prop} [Decidable c] : Keeps inv (check k c) := fun _ holds =>
  sat_check.mpr ⟨fun _ => holds,fun _ _ => holds⟩
theorem ofOption {o : Option α} : Keeps inv (ofOption k o) := fun _ holds =>
  sat_ofOption.mpr ⟨fun _ _ => holds,fun _ _ => holds⟩
theorem bind (first : Keeps inv x) (rest : ∀ a, Keeps inv (f a)) : Keeps inv (x >>= f) := fun s holds =>
  (first s holds).bind (fun a t => rest a t) (fun _ _ => id)
theorem map {g : α → β} (kept : Keeps inv x) : Keeps inv (g <$> x) := fun s holds => sat_map.mpr (kept s holds)
theorem ite {c : Prop} [Decidable c] {y : Exec σ α} (yes : Keeps inv x) (no : Keeps inv y) :
    Keeps inv (if c then x else y) := fun s holds => sat_ite.mpr ⟨fun _ => yes s holds,fun _ => no s holds⟩
theorem cases {c : Prop} [Decidable c] {y : Exec σ α} (yes : c → Keeps inv x) (no : ¬ c → Keeps inv y) :
    Keeps inv (if c then x else y) := fun s holds => sat_ite.mpr ⟨fun c => yes c s holds,fun c => no c s holds⟩
theorem onFst (kept : Keeps inv x) : Keeps (fun p : σ × τ => inv p.1) (onFst x) := fun p holds =>
  sat_onFst.mpr (kept p.1 holds)
theorem lend {u : τ} {y : Exec (σ × τ) α} (kept : Keeps (fun p : σ × τ => inv p.1) y) : Keeps inv (lend u y) :=
  fun s holds => sat_lend.mpr (kept (s,u) holds)
theorem zoom {part : σ → τ} {update : σ → τ → σ} {y : Exec τ α} (kept : Keeps inv' y) (inside : ∀ s, inv s → inv' (part s))
    (outside : ∀ s t, inv' t → inv (update s t)) : Keeps inv (zoom part update y) := fun s holds =>
  sat_zoom.mpr ((kept (part s) (inside s holds)).mono (fun _ t => outside s t) (fun _ t still unwinds => outside s t (still unwinds)))
theorem loop {body : Exec σ (Option α)} (kept : Keeps inv body) (fuel : Nat) : Keeps inv (loop body fuel) := by
  induction fuel with
  | zero => exact stop
  | succ n again =>
    refine bind kept fun o => ?_
    cases o with
    | some a => exact pure
    | none => exact again
theorem ensure {cleanup : Exec σ Unit} (kept : Keeps inv x) (cleaned : Keeps inv cleanup) : Keeps inv (ensure x cleanup) := by
  refine fun s holds => sat_ensure ((kept s holds).mono (fun a t => cleaned t) (fun k t still => ?_))
  by_cases unwinds : k = .panic
  · rw [if_pos unwinds]
    exact (cleaned t (still unwinds)).mono (fun _ _ after _ => after) (fun _ _ => id)
  · rw [if_neg unwinds]
    exact fun bad => absurd bad unwinds

end Keeps

/-- What held before holds again, and what is returned meets `P`. -/
def Gives (inv : σ → Prop) (P : α → Prop) (x : Exec σ α) : Prop :=
  ∀ s, inv s → Sat x s (fun a t => inv t ∧ P a) (fun k t => k = .panic → inv t)

namespace Gives
variable {inv : σ → Prop} {P : α → Prop} {P' : β → Prop}

theorem of_keeps (kept : Keeps inv x) : Gives inv (fun _ => True) x := fun s holds =>
  (kept s holds).mono (fun _ _ still => ⟨still,trivial⟩) (fun _ _ => id)
theorem keeps (given : Gives inv P x) : Keeps inv x := fun s holds =>
  (given s holds).mono (fun _ _ => And.left) (fun _ _ => id)
theorem pure (met : P a) : Gives inv P (pure a : Exec σ α) := fun _ holds => ⟨holds,met⟩
theorem stop : Gives inv P (stop k : Exec σ α) := fun _ holds _ => holds
theorem bind (first : Gives inv P x) (rest : ∀ a, P a → Gives inv P' (f a)) : Gives inv P' (x >>= f) := fun s holds =>
  (first s holds).bind (fun a t ⟨still,met⟩ => rest a met t still) (fun _ _ => id)
theorem then_keeps (first : Gives inv P x) (rest : ∀ a, P a → Keeps inv (f a)) : Keeps inv (x >>= f) := fun s holds =>
  (first s holds).bind (fun a t ⟨still,met⟩ => rest a met t still) (fun _ _ => id)
theorem then_ (first : Keeps inv x) (rest : ∀ a, Gives inv P' (f a)) : Gives inv P' (x >>= f) :=
  (of_keeps first).bind fun a _ => rest a
theorem map {g : α → β} (given : Gives inv P x) (met : ∀ a, P a → P' (g a)) : Gives inv P' (g <$> x) := fun s holds =>
  sat_map.mpr ((given s holds).mono (fun _ _ ⟨still,holds⟩ => ⟨still,met _ holds⟩) (fun _ _ => id))
theorem ite {c : Prop} [Decidable c] {y : Exec σ α} (yes : c → Gives inv P x) (no : ¬ c → Gives inv P y) :
    Gives inv P (if c then x else y) := fun s holds => sat_ite.mpr ⟨fun c => yes c s holds,fun c => no c s holds⟩
theorem ofOption {o : Option α} (met : ∀ a, o = some a → P a) : Gives inv P (ofOption k o) := fun _ holds =>
  sat_ofOption.mpr ⟨fun a found => ⟨holds,met a found⟩,fun _ _ => holds⟩
theorem zoom {inv' : τ → Prop} {part : σ → τ} {update : σ → τ → σ} {y : Exec τ α} (given : Gives inv' P y)
    (inside : ∀ s, inv s → inv' (part s)) (outside : ∀ s t, inv s → inv' t → inv (update s t)) :
    Gives inv P (zoom part update y) := fun s holds =>
  sat_zoom.mpr ((given (part s) (inside s holds)).mono (fun _ t ⟨still,met⟩ => ⟨outside s t holds still,met⟩)
    (fun _ t still unwinds => outside s t holds (still unwinds)))

end Gives
end Exec
end Tcio
