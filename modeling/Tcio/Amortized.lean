/-!
Runs whose calls have a cost. A call is paid by what it brings, or by what earlier calls
have left to be owed, so that a whole run costs no more than all that was brought, and what
was owed at its start.
-/
namespace Tcio.Amortized

variable {Op σ : Type} {step : Op → σ → σ → Prop} {cost : σ → σ → Nat} {paid : Op → Nat} {s t : σ} {c p : Nat}

/-- A run, the sum of its costs, and the sum of what its calls pay. -/
inductive Spent (step : Op → σ → σ → Prop) (cost : σ → σ → Nat) (paid : Op → Nat) (s : σ) : Nat → Nat → σ → Prop
  | start : Spent step cost paid s 0 0 s
  | call {c p : Nat} {t u : σ} {op : Op} (spent : Spent step cost paid s c p t) (went : step op t u) :
    Spent step cost paid s (c+cost t u) (p+paid op) u

/-- Where each call is paid by what it pays itself, what the state earns by it and what is
    owed no longer, so is the run. -/
theorem Spent.bound {inv : σ → Prop} {owed earned : σ → Nat}
    (pays : ∀ op t u, inv t → step op t u → inv u ∧ cost t u+owed u+earned t ≤ owed t+earned u+paid op)
    (start : inv s) (spent : Spent step cost paid s c p t) : inv t ∧ c+owed t+earned s ≤ owed s+earned t+p := by
  induction spent with
  | start => exact ⟨start,by omega⟩
  | call _ went before =>
    obtain ⟨holds,bound⟩ := before
    obtain ⟨still,less⟩ := pays _ _ _ holds went
    exact ⟨still,by omega⟩

end Tcio.Amortized
