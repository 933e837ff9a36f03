import Tcio.Polling

/-!
`Map` and `Then`, the futures that `map` and `then` give. A closure runs in the world that
the futures share; a future is known by what its polls do.
-/
namespace Tcio
open Exec Polling

variable {W F F2 F3 A B O : Type}

/-- A closure that is called once. -/
abbrev FnOnce (W A B : Type) := A → Exec W B

namespace Futures

/-- Future returned by `map`. -/
structure Map (F M : Type) where
  f : F
  map : Option M

def map {M : Type} (f : F) (map : M) : Map F M := ⟨f,some map⟩

def Map.poll (poll_f : Process W F A) : Exec (W × Map F (FnOnce W A O)) (Poll O) := do
  let me ← onSnd get
  match ← within me.f (fun f => { me with f := f }) poll_f with
  | .ready ok =>
    onSnd (modify fun me => { me with map := none })
    -- "poll after complete"
    let map ← ofOption .panic me.map
    let out ← onFst (map ok)
    return .ready out
  | .pending => return .pending

inductive Phase (F F2 : Type) where
  | F1 (f : F)
  | F2 (f : F2)

/-- Future returned by `then`. -/
structure Then (F F2 M : Type) where
  phase : Phase F F2
  map : Option M

/-- `then` -/
def then_ {M : Type} (f : F) (map : M) : Then F F2 M := ⟨.F1 f,some map⟩

/-- A poll calls itself where the first future is ready; the source has no bound on `calls`. -/
def Then.poll (poll_f : Process W F A) (poll_f2 : Process W F2 O) :
    Nat → Exec (W × Then F F2 (FnOnce W A F2)) (Poll O)
  | 0 => stop .spin
  | calls+1 => do
    let me ← onSnd get
    match me.phase with
    | .F1 f =>
      match ← within f (fun f => { me with phase := .F1 f }) poll_f with
      | .pending => return .pending
      | .ready ok =>
        onSnd (modify fun me => { me with map := none })
        -- "poll after complete"
        let map ← ofOption .panic me.map
        let ok ← onFst (map ok)
        onSnd (modify fun me => { me with phase := .F2 ok })
        Then.poll poll_f poll_f2 calls
    | .F2 f => within f (fun f => { me with phase := .F2 f }) poll_f2

end Futures

/-! ### Either of two -/

inductive Either (L R : Type) where
  | Left (l : L)
  | Right (r : R)

inductive EitherMap (L R : Type) where
  | Left (l : L)
  | Right (r : R)

variable {L R : Type}

namespace Either

/-- `From<EitherMap<L, R>>` -/
def from_either_map : EitherMap L R → Either L R
  | .Left l => .Left l
  | .Right r => .Right r

/-- The method of the side that is there. -/
def call {α : Type} (left : Exec (W × L) α) (right : Exec (W × R) α) : Exec (W × Either L R) α := do
  match ← onSnd get with
  | .Left l => within l .Left left
  | .Right r => within r .Right right

def poll (poll_l : Process W L O) (poll_r : Process W R O) : Process W (Either L R) O := call poll_l poll_r

end Either

namespace EitherMap

/-- `From<Either<L, R>>` -/
def from_either : Either L R → EitherMap L R
  | .Left l => .Left l
  | .Right r => .Right r

/-- The method of the side that is there, and the side that its result comes from. -/
def call {α β : Type} (left : Exec (W × L) α) (right : Exec (W × R) β) {γ : Type} (of_left : α → γ) (of_right : β → γ) :
    Exec (W × EitherMap L R) γ := do
  match ← onSnd get with
  | .Left l => of_left <$> within l .Left left
  | .Right r => of_right <$> within r .Right right

def poll (poll_l : Process W L A) (poll_r : Process W R B) : Process W (EitherMap L R) (EitherMap A B) :=
  call poll_l poll_r (Poll.map .Left) (Poll.map .Right)
def next (next_l : Exec (W × L) (Option A)) (next_r : Exec (W × R) (Option B)) : Exec (W × EitherMap L R) (Option (EitherMap A B)) :=
  call next_l next_r (Option.map .Left) (Option.map .Right)

end EitherMap
end Tcio
