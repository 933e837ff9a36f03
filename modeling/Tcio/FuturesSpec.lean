import Tcio.Futures

/-!
What futures come to that are made of others, over every schedule of their polls. `then` is
sequencing: the first future runs to its end, the closure runs once, and the second one is
polled in the same poll. From this follow the laws that such futures compose by.
-/
namespace Tcio
open Exec Polling

variable {W F F2 F3 A B C O : Type} {p : Process W F A} {p2 : Process W F2 B} {p3 : Process W F3 O}
variable {f : F} {f2 : F2} {es : Schedule W} {calls : Nat}

namespace Futures

/-! ### What a poll does -/

theorem map_polls {h : FnOnce W A B} (f : F) : lend (map f h) (Map.poll p) =
    lend f p >>= passed (fun f => map f h) (fun a f => (fun b => (.ready b,⟨f,none⟩)) <$> h a) := by
  rw [Map.poll,lend_bind,lend_get,pure_bind,lend_bind,lend_within,map_eq_pure_bind,bind_assoc]
  congr 1
  funext r
  rcases r with ⟨a | _,f'⟩
  · simp only [pure_bind,lend_bind,lend_modify,lend_onFst,lend_pure,passed,map,ofOption,map_eq_pure_bind,bind_assoc]
  · rfl

theorem then_second {m : Option (FnOnce W A F2)} (f2 : F2) : lend ⟨.F2 f2,m⟩ (Then.poll p p2 (calls+1)) =
    (fun r => (r.1,⟨.F2 r.2,m⟩)) <$> lend f2 p2 := by
  rw [Then.poll,lend_bind,lend_get,pure_bind]
  exact lend_within

theorem then_polls {m : FnOnce W A F2} (f : F) : lend (then_ f m) (Then.poll p p2 (calls+2)) =
    lend f p >>= passed (fun f => then_ f m) (fun a _ => do
      let f2 ← m a
      (fun r => (r.1,⟨.F2 r.2,none⟩)) <$> lend f2 p2) := by
  rw [Then.poll,lend_bind,lend_get,pure_bind]
  simp only [then_]
  rw [lend_bind,lend_within,map_eq_pure_bind,bind_assoc]
  congr 1
  funext r
  rcases r with ⟨a | _,f'⟩
  · simp only [pure_bind,lend_bind,lend_modify,lend_onFst,passed,ofOption,map_eq_pure_bind,bind_assoc,then_second]
  · rfl

/-! ### Runs -/

/-- A mapped future ends in the poll that its future ends in. -/
theorem run_map {h : FnOnce W A B} : run (Map.poll p) (map f h) es = run p f es >>= followed fun a rest => (fun b => some (b,rest)) <$> h a := by
  refine run_passed _ _ map_polls fun a f rest => ?_
  simp only [map_eq_pure_bind,bind_assoc,pure_bind,resume]

theorem run_second {m : Option (FnOnce W A F2)} : run (Then.poll p p2 (calls+1)) ⟨.F2 f2,m⟩ es = run p2 f2 es :=
  run_within then_second

/-- `then` runs the first future to its end, the closure, and the second future, which is
    polled first in the poll that the first one ended in. -/
theorem run_then {m : FnOnce W A F2} (enough : 2 ≤ calls) : run (Then.poll p p2 calls) (then_ f m) es =
    run p f es >>= followed fun a rest => m a >>= fun f2 => run p2 f2 (id :: rest) := by
  obtain ⟨calls,rfl⟩ := Nat.exists_eq_add_of_le' enough
  refine run_passed _ _ then_polls fun a f rest => ?_
  rw [bind_assoc]
  congr 1
  funext f2
  rw [run_now,map_eq_pure_bind,bind_assoc]
  congr 1
  funext r
  rcases r with ⟨b | _,f2'⟩
  · rfl
  · exact run_second

/-- A future that is not ready at first, in a world that counts calls. -/
def late : Exec (Nat × Bool) (Poll Nat) := do
  if ← onSnd get then return .ready 7
  onSnd (set true)
  return .pending
/-- A closure that counts its calls. -/
def counting {B : Type} (b : B) : FnOnce Nat Nat B := fun _ => do
  modify (· + 1)
  return b

/-- Over every schedule `map` and `then` come to their future, the closure, and for `then`
    the second future, which is first polled in the poll that the first one ended in. -/
theorem run_in_turn {h : FnOnce W A B} {m : FnOnce W A F2} (enough : 2 ≤ calls) :
    run (Map.poll p) (map f h) es = (run p f es >>= followed fun a rest => (fun b => some (b,rest)) <$> h a) ∧
    run (Then.poll p p2 calls) (then_ f m) es = run p f es >>= followed fun a rest => m a >>= fun f2 => run p2 f2 (id :: rest) :=
  ⟨run_map,run_then enough⟩

/-- Both futures are pending once. -/
theorem late_in_turn : run (Map.poll late) (map false (counting 5)) [id,id,id] =
      (run late false [id,id,id] >>= followed fun a rest => (fun b => some (b,rest)) <$> counting 5 a) ∧
    run (Then.poll late late 2) (then_ false (counting false)) [id,id,id] =
      run late false [id,id,id] >>= followed fun a rest => counting false a >>= fun f2 => run late f2 (id :: rest) :=
  run_in_turn (Nat.le_refl 2)

/-! ### Laws -/

/-- Two futures that no schedule of polls tells apart. -/
def Alike {G : Type} (p : Process W F O) (f : F) (q : Process W G O) (g : G) : Prop := ∀ es, run p f es = run q g es

/-- `then` is associative. -/
theorem then_assoc {m : FnOnce W A F2} {k : FnOnce W B F3} (enough : 2 ≤ calls) :
    Alike (Then.poll (Then.poll p p2 calls) p3 calls) (then_ (then_ f m) k)
      (Then.poll p (Then.poll p2 p3 calls) calls) (then_ f fun a => (fun f2 => then_ f2 k) <$> m a) := by
  intro es
  rw [run_then enough,run_then enough,run_then enough,followed_bind]
  congr 2
  funext a rest
  rw [map_eq_pure_bind,bind_assoc,bind_assoc]
  congr 1
  funext f2
  rw [pure_bind,run_then enough]

/-- Mapping what `then` ends with is mapping the second future. -/
theorem map_then {m : FnOnce W A F2} {h : FnOnce W B O} (enough : 2 ≤ calls) :
    Alike (Map.poll (Then.poll p p2 calls)) (map (then_ f m) h)
      (Then.poll p (Map.poll p2) calls) (then_ f fun a => (fun f2 => map f2 h) <$> m a) := by
  intro es
  rw [run_map,run_then enough,run_then enough,followed_bind]
  congr 2
  funext a rest
  rw [map_eq_pure_bind,bind_assoc,bind_assoc]
  congr 1
  funext f2
  rw [pure_bind,run_map]

/-- `then` on a mapped future is `then` with both closures. -/
theorem then_map {h : FnOnce W A B} {k : FnOnce W B F3} (enough : 2 ≤ calls) :
    Alike (Then.poll (Map.poll p) p3 calls) (then_ (map f h) k) (Then.poll p p3 calls) (then_ f fun a => h a >>= k) := by
  intro es
  rw [run_then enough,run_then enough,run_map,followed_bind]
  congr 2
  funext a rest
  rw [map_eq_pure_bind,bind_assoc,bind_assoc]
  rfl

theorem map_map {h : FnOnce W A B} {k : FnOnce W B O} : Alike (Map.poll (Map.poll p)) (map (map f h) k) (Map.poll p) (map f fun a => h a >>= k) := by
  intro es
  rw [run_map,run_map,run_map,followed_bind]
  congr 2
  funext a rest
  rw [map_eq_pure_bind,map_eq_pure_bind,bind_assoc,bind_assoc]
  rfl

/-- How `map` and `then` compose. -/
theorem compose {m : FnOnce W A F2} {k : FnOnce W B F3} {h : FnOnce W A B} {j : FnOnce W B O} (enough : 2 ≤ calls) :
    Alike (Then.poll (Then.poll p p2 calls) p3 calls) (then_ (then_ f m) k)
      (Then.poll p (Then.poll p2 p3 calls) calls) (then_ f fun a => (fun f2 => then_ f2 k) <$> m a) ∧
    Alike (Map.poll (Then.poll p p2 calls)) (map (then_ f m) j)
      (Then.poll p (Map.poll p2) calls) (then_ f fun a => (fun f2 => map f2 j) <$> m a) ∧
    Alike (Then.poll (Map.poll p) p3 calls) (then_ (map f h) k) (Then.poll p p3 calls) (then_ f fun a => h a >>= k) ∧
    Alike (Map.poll (Map.poll p)) (map (map f h) j) (Map.poll p) (map f fun a => h a >>= j) :=
  ⟨then_assoc enough,map_then enough,then_map enough,map_map⟩

theorem late_compose : Alike (Then.poll (Then.poll late late 2) late 2) (then_ (then_ false (counting false)) (counting false))
      (Then.poll late (Then.poll late late 2) 2) (then_ false fun a => (fun f2 => then_ f2 (counting false)) <$> counting false a) ∧
    Alike (Map.poll (Then.poll late late 2)) (map (then_ false (counting false)) (counting 6))
      (Then.poll late (Map.poll late) 2) (then_ false fun a => (fun f2 => map f2 (counting 6)) <$> counting false a) ∧
    Alike (Then.poll (Map.poll late) late 2) (then_ (map false (counting 5)) (counting false))
      (Then.poll late late 2) (then_ false fun a => counting 5 a >>= counting false) ∧
    Alike (Map.poll (Map.poll late)) (map (map false (counting 5)) (counting 6)) (Map.poll late) (map false fun a => counting 5 a >>= counting 6) :=
  compose (Nat.le_refl 2)

/-! ### Polls that go on after the end -/

/-- Calls of the closure that are still to come. -/
def left {M : Type} (map : Option M) : Nat := if map.isSome then 1 else 0

/-- A mapped future is ready once at most, whatever its future does. -/
theorem map_completes {h : FnOnce W A B} {w : W} : (history (Map.poll p) es (w,map f h)).1.countP completed ≤ 1 := by
  refine history_completes (p := Map.poll p) (fun me : Map F (FnOnce W A B) => left me.map) ?_
  rintro ⟨w,me⟩
  simp only [Map.poll,sat_bind,sat_onSnd,sat_get,sat_within]
  refine sat_any.mono ?_ (fun _ _ _ => Nat.le_refl _)
  rintro (a | _) t _
  · simp only [sat_bind,sat_onSnd,sat_modify,sat_ofOption,sat_onFst,sat_pure]
    refine ⟨fun h some' => ?_,fun _ => Nat.zero_le _⟩
    refine sat_any.mono (fun _ _ _ => ?_) (fun _ _ _ => Nat.zero_le _)
    rw [some']
    exact Nat.le_refl _
  · exact Nat.le_refl _

/-- A program that does not call the closure, where `seen` counts its calls. -/
def Silent {α S : Type} (seen : W → Nat) (x : Exec (W × S) α) : Prop :=
  ∀ s, Sat x s (fun _ t => seen t.1 = seen s.1) (fun _ t => seen t.1 = seen s.1)
/-- A closure whose calls `seen` counts, also those that stop. -/
def Counted (seen : W → Nat) (m : FnOnce W A B) : Prop :=
  ∀ a w, Sat (m a) w (fun _ t => seen t = seen w+1) (fun _ t => seen t = seen w+1)

/-- The calls so far and those to come are as many as they were. -/
def Spent {G : Type} (seen : W → Nat) (m : FnOnce W A G) (n : Nat) (w : W) (map : Option (FnOnce W A G)) : Prop :=
  (∀ h, map = some h → h = m) ∧ seen w+left map = n

variable {seen : W → Nat} {n : Nat}

theorem then_spends {m : FnOnce W A F2} (first : Silent seen p) (second : Silent seen p2) (counted : Counted seen m)
    (s : W × Then F F2 (FnOnce W A F2)) (spent : Spent seen m n s.1 s.2.map) : Sat (Then.poll p p2 calls) s
      (fun _ t => Spent seen m n t.1 t.2.map) (fun _ t => Spent seen m n t.1 t.2.map) := by
  induction calls generalizing s with
  | zero => exact spent
  | succ calls again =>
    obtain ⟨w,phase,map⟩ := s
    obtain ⟨only,total⟩ := spent
    simp only [Then.poll,sat_bind,sat_onSnd,sat_get]
    cases phase with
    | F2 f2 =>
      simp only [sat_within]
      refine (second (w,f2)).mono (fun _ t same => ⟨only,?_⟩) (fun _ t same => ⟨only,?_⟩)
      · rwa [same]
      · rwa [same]
    | F1 f =>
      simp only [sat_bind,sat_within]
      refine (first (w,f)).mono ?_ (fun _ t same => ⟨only,by rwa [same]⟩)
      rintro (a | _) ⟨w₁,f'⟩ same
      · simp only at same total
        simp only [sat_bind,sat_onSnd,sat_modify,sat_ofOption,sat_onFst]
        refine ⟨fun h some' => ?_,fun none' => ?_⟩
        · subst some'
          rw [only h rfl]
          have called (w₂ : W) (more : seen w₂ = seen w₁+1) : Spent seen m n w₂ none := by
            refine ⟨fun h bad => (by cases bad),?_⟩
            rw [more,same]
            exact total
          exact (counted a w₁).mono (fun f2 w₂ more => again _ (called w₂ more)) (fun _ w₂ more => called w₂ more)
        · subst none'
          exact ⟨only,by rwa [same]⟩
      · exact ⟨only,by rwa [same]⟩

theorem map_spends {m : FnOnce W A B} (first : Silent seen p) (counted : Counted seen m)
    (s : W × Map F (FnOnce W A B)) (spent : Spent seen m n s.1 s.2.map) : Sat (Map.poll p) s
      (fun _ t => Spent seen m n t.1 t.2.map) (fun _ t => Spent seen m n t.1 t.2.map) := by
  obtain ⟨w,f,map⟩ := s
  obtain ⟨only,total⟩ := spent
  simp only [Map.poll,sat_bind,sat_onSnd,sat_get,sat_within]
  refine (first (w,f)).mono ?_ (fun _ t same => ⟨only,by rwa [same]⟩)
  rintro (a | _) ⟨w₁,f'⟩ same
  · simp only at same total
    simp only [sat_bind,sat_onSnd,sat_modify,sat_ofOption,sat_onFst,sat_pure]
    refine ⟨fun h some' => ?_,fun none' => ?_⟩
    · subst some'
      rw [only h rfl]
      have called (w₂ : W) (more : seen w₂ = seen w₁+1) : Spent seen m n w₂ none := by
        refine ⟨fun h bad => (by cases bad),?_⟩
        rw [more,same]
        exact total
      exact (counted a w₁).mono (fun _ => called) (fun _ => called)
    · subst none'
      exact ⟨only,by rwa [same]⟩
  · exact ⟨only,by rwa [same]⟩

/-- Whatever polls end with, and however long they go on, each closure is called once at
    most: its calls and what is left of it are one. -/
theorem calls_once {m : FnOnce W A F2} {h : FnOnce W A B} {w : W} (first : Silent seen p) (second : Silent seen p2)
    (then_counted : Counted seen m) (map_counted : Counted seen h) (unseen : ∀ e ∈ es, ∀ w, seen (e w) = seen w) :
    seen (history (Then.poll p p2 calls) es (w,then_ f m)).2.1+left (history (Then.poll p p2 calls) es (w,then_ f m)).2.2.map = seen w+1 ∧
    seen (history (Map.poll p) es (w,map f h)).2.1+left (history (Map.poll p) es (w,map f h)).2.2.map = seen w+1 := by
  constructor
  · refine (history_keeps (p := Then.poll p p2 calls) (s := (w,then_ f m)) (fun s => Spent seen m (seen w+1) s.1 s.2.map) ?_
      (fun s => then_spends first second then_counted s) ⟨?_,rfl⟩).2
    · rintro e mem s ⟨only,total⟩
      exact ⟨only,by rwa [unseen e mem]⟩
    · rintro _ ⟨⟩
      rfl
  · refine (history_keeps (p := Map.poll p) (s := (w,map f h)) (fun s => Spent seen h (seen w+1) s.1 s.2.map) ?_
      (fun s => map_spends first map_counted s) ⟨?_,rfl⟩).2
    · rintro e mem s ⟨only,total⟩
      exact ⟨only,by rwa [unseen e mem]⟩
    · rintro _ ⟨⟩
      rfl

theorem late_silent : Silent id late := by
  rintro ⟨w,again⟩
  simp only [late,sat_bind,sat_onSnd,sat_get,sat_ite,sat_set,sat_pure]
  exact ⟨fun _ => trivial,fun _ => trivial⟩
theorem counting_counted {b : B} : Counted id (counting b) := fun _ _ => rfl

/-- The polls go on after both futures have ended. -/
theorem late_calls_once :
    id (history (Then.poll late late 2) [id,id,id,id,id] (0,then_ false (counting false))).2.1+
      left (history (Then.poll late late 2) [id,id,id,id,id] (0,then_ false (counting false))).2.2.map = id 0+1 ∧
    id (history (Map.poll late) [id,id,id,id,id] (0,map false (counting 5))).2.1+
      left (history (Map.poll late) [id,id,id,id,id] (0,map false (counting 5))).2.2.map = id 0+1 :=
  calls_once (w := 0) late_silent late_silent counting_counted counting_counted (by simp)

/-- A program that returns wherever it starts. -/
def Returns {α σ : Type} (x : Exec σ α) : Prop := ∀ s, Sat x s (fun _ _ => True) (fun _ _ => False)

/-- Where neither the futures nor the closure stop, no poll of `then` does, before its end
    and after it: the closure is there as long as the first future is. -/
theorem then_returns {m : FnOnce W A F2} {w : W} (first : Returns p) (second : Returns p2) (closure : ∀ a, Returns (m a)) (enough : 2 ≤ calls) :
    ∀ r ∈ (history (Then.poll p p2 calls) es (w,then_ f m)).1, ∃ a, r = .ok a := by
  obtain ⟨calls,rfl⟩ := Nat.exists_eq_add_of_le' enough
  have goes_on (calls : Nat) (w : W) (f2 : F2) (map : Option (FnOnce W A F2)) : Sat (Then.poll p p2 (calls+1)) (w,⟨.F2 f2,map⟩)
      (fun _ t => ∀ f, t.2.phase = .F1 f → t.2.map = some m) (fun _ _ => False) := by
    simp only [Then.poll,sat_bind,sat_onSnd,sat_get,sat_within]
    refine (second (w,f2)).mono (fun _ _ _ => ?_) (fun _ _ => id)
    rintro f ⟨⟩
  refine history_returns (p := Then.poll p p2 (calls+2)) (s := (w,then_ f m)) (fun s => ∀ f, s.2.phase = .F1 f → s.2.map = some m)
    (fun _ _ _ holds => holds) ?_ (fun _ _ => rfl)
  rintro ⟨w,phase,map⟩ holds
  cases phase with
  | F2 f2 => exact goes_on (calls+1) w f2 map
  | F1 f =>
    have there : map = some m := holds f rfl
    subst there
    rw [Then.poll]
    simp only [sat_bind,sat_onSnd,sat_get,sat_within]
    refine (first (w,f)).mono ?_ (fun _ _ => id)
    rintro (a | _) ⟨w₁,f'⟩ _
    · simp only [sat_bind,sat_onSnd,sat_modify,sat_ofOption,sat_onFst]
      refine ⟨fun h same => ?_,fun bad => (by cases bad)⟩
      cases same
      exact (closure a w₁).mono (fun f2 w₂ _ => goes_on calls w₂ f2 none) (fun _ _ => id)
    · exact fun _ _ => rfl

theorem late_returns : Returns late := by
  rintro ⟨w,again⟩
  simp only [late,sat_bind,sat_onSnd,sat_get,sat_ite,sat_set,sat_pure]
  exact ⟨fun _ => trivial,fun _ => trivial⟩

/-- Five polls, of which the second one ends the first future. -/
theorem late_then_returns : ∃ polls, (history (Then.poll late late 2) [id,id,id,id,id] (0,then_ false (counting false))).1 = polls ∧
    ∀ r ∈ polls, ∃ a, r = .ok a :=
  ⟨_,rfl,then_returns late_returns late_returns (fun _ _ => trivial) (Nat.le_refl 2)⟩

/-- A poll that is ready once more has no closure left. -/
def expire : Except Stop (Poll A) → Except Stop (Poll O)
  | .ok (.ready _) => .error .panic
  | .ok .pending => .ok .pending
  | .error k => .error k

theorem expired (s : W × F) : (Map.poll p : Process W (Map F (FnOnce W A O)) O) (s.1,⟨s.2,none⟩) =
    (expire (p s).1,(p s).2.1,⟨(p s).2.2,none⟩) := by
  rcases ran : p s with ⟨k | a | _,t⟩
  · refine stop_eq ?_
    simp only [Map.poll,sat_bind,sat_onSnd,sat_get,sat_within]
    exact (sat_of_error ran).mpr ⟨rfl,rfl⟩
  · refine stop_eq ?_
    simp only [Map.poll,sat_bind,sat_onSnd,sat_get,sat_within]
    refine (sat_of_ok ran).mpr ?_
    simp only [sat_bind,sat_onSnd,sat_modify,sat_ofOption]
    exact ⟨fun _ bad => (by cases bad),fun _ => ⟨trivial,trivial⟩⟩
  · refine run_eq ?_
    simp only [Map.poll,sat_bind,sat_onSnd,sat_get,sat_within]
    exact (sat_of_ok ran).mpr ⟨rfl,rfl⟩

/-- A mapped future is ready once at most; after that it panics where its future is ready
    again. `then` goes on with the second future, whose polls are its own. -/
theorem polls_after {f2 : F2} {w : W} {f : F} {h : FnOnce W A B} {m : Option (FnOnce W A F2)} :
    (history (Map.poll p) es (w,map f h)).1.countP completed ≤ 1 ∧
    history (Map.poll p : Process W (Map F (FnOnce W A O)) O) es (w,⟨f,none⟩) =
      ((history p es (w,f)).1.map expire,(history p es (w,f)).2.1,⟨(history p es (w,f)).2.2,none⟩) ∧
    history (Then.poll p p2 (calls+1)) es (w,⟨.F2 f2,m⟩) =
      ((history p2 es (w,f2)).1,(history p2 es (w,f2)).2.1,⟨.F2 (history p2 es (w,f2)).2.2,m⟩) := by
  refine ⟨map_completes,?_,?_⟩
  · exact history_within (fun f => (⟨f,none⟩ : Map F (FnOnce W A O))) expire es expired (w,f)
  · have polls := history_within (p := p2) (q := Then.poll p p2 (calls+1)) (fun f => ⟨.F2 f,m⟩) id es (fun s => rfl) (w,f2)
    rw [List.map_id] at polls
    exact polls

/-! ### Either of two -/

variable {L R : Type} {pl : Process W L A} {pr : Process W R B} {l : L} {r : R}

theorem run_either_left {pl : Process W L O} {pr : Process W R O} : run (Either.poll pl pr) (.Left l) es = run pl l es := by
  refine run_within fun l => ?_
  rw [Either.poll,Either.call,lend_bind,lend_get,pure_bind]
  exact lend_within
theorem run_either_right {pl : Process W L O} {pr : Process W R O} : run (Either.poll pl pr) (.Right r) es = run pr r es := by
  refine run_within fun r => ?_
  rw [Either.poll,Either.call,lend_bind,lend_get,pure_bind]
  exact lend_within

theorem run_either_map_left : run (EitherMap.poll pl pr) (.Left l) es =
    run pl l es >>= followed fun a rest => pure (some (.Left a,rest)) := by
  refine run_passed EitherMap.Left (fun a l => pure (.ready (.Left a),.Left l)) (fun l => ?_) (fun _ _ _ => rfl)
  rw [EitherMap.poll,EitherMap.call,lend_bind,lend_get,pure_bind]
  simp only
  rw [lend_map,lend_within,← comp_map,map_eq_pure_bind]
  congr 1
  funext t
  rcases t with ⟨a | _,l'⟩ <;> rfl
theorem run_either_map_right : run (EitherMap.poll pl pr) (.Right r) es =
    run pr r es >>= followed fun b rest => pure (some (.Right b,rest)) := by
  refine run_passed EitherMap.Right (fun b r => pure (.ready (.Right b),.Right r)) (fun r => ?_) (fun _ _ _ => rfl)
  rw [EitherMap.poll,EitherMap.call,lend_bind,lend_get,pure_bind]
  simp only
  rw [lend_map,lend_within,← comp_map,map_eq_pure_bind]
  congr 1
  funext t
  rcases t with ⟨b | _,r'⟩ <;> rfl

/-- The sides mapped to where they come from. -/
def tagged : EitherMap L R → Either (Map L (FnOnce W A (EitherMap A B))) (Map R (FnOnce W B (EitherMap A B)))
  | .Left l => .Left (map l fun a => pure (.Left a))
  | .Right r => .Right (map r fun b => pure (.Right b))
/-- The value, wherever it comes from. -/
def untagged : EitherMap A A → A
  | .Left a => a
  | .Right a => a

/-- `EitherMap` is `Either` of futures that are mapped to where they come from, and where the
    outputs are of one type, the `Either` made from it ends alike, with the value alone. The
    conversions are inverse to each other. -/
theorem either_alike {s : EitherMap L R} {p' : Process W R A} :
    Alike (EitherMap.poll pl pr) s (Either.poll (Map.poll pl) (Map.poll pr)) (tagged s) ∧
    (∀ es, run (Either.poll pl p') (Either.from_either_map s) es =
      run (EitherMap.poll pl p') s es >>= followed fun c rest => pure (some (untagged c,rest))) ∧
    EitherMap.from_either (Either.from_either_map s) = s ∧
    ∀ e : Either L R, Either.from_either_map (EitherMap.from_either e) = e := by
  have back (e : Either L R) : Either.from_either_map (EitherMap.from_either e) = e := by cases e <;> rfl
  cases s with
  | Left l =>
    refine ⟨fun es => ?_,fun es => ?_,rfl,back⟩
    · rw [tagged,run_either_left,run_map,run_either_map_left]
      rfl
    · rw [Either.from_either_map,run_either_left,run_either_map_left,followed_bind]
      simp only [pure_bind,followed,untagged]
      exact (followed_pure).symm
  | Right r =>
    refine ⟨fun es => ?_,fun es => ?_,rfl,back⟩
    · rw [tagged,run_either_right,run_map,run_either_map_right]
      rfl
    · rw [Either.from_either_map,run_either_right,run_either_map_right,followed_bind]
      simp only [pure_bind,followed,untagged]
      exact (followed_pure).symm

/-- Items come from the side that is there, and are told apart by it. -/
theorem next_items {nl : Exec (W × L) (Option A)} {nr : Exec (W × R) (Option B)} {w : W} :
    history (EitherMap.next nl nr) es (w,.Left l) = ((history nl es (w,l)).1.map (Except.map (Option.map .Left)),
      (history nl es (w,l)).2.1,.Left (history nl es (w,l)).2.2) ∧
    history (EitherMap.next nl nr) es (w,.Right r) = ((history nr es (w,r)).1.map (Except.map (Option.map .Right)),
      (history nr es (w,r)).2.1,.Right (history nr es (w,r)).2.2) := by
  constructor
  · refine history_within EitherMap.Left _ es (fun s => ?_) (w,l)
    rcases ran : nl s with ⟨k | o,t⟩
    · refine stop_eq ?_
      simp only [EitherMap.next,EitherMap.call,sat_bind,sat_onSnd,sat_get,sat_map,sat_within]
      exact (sat_of_error ran).mpr ⟨rfl,rfl⟩
    · refine run_eq ?_
      simp only [EitherMap.next,EitherMap.call,sat_bind,sat_onSnd,sat_get,sat_map,sat_within]
      exact (sat_of_ok ran).mpr ⟨rfl,rfl⟩
  · refine history_within EitherMap.Right _ es (fun s => ?_) (w,r)
    rcases ran : nr s with ⟨k | o,t⟩
    · refine stop_eq ?_
      simp only [EitherMap.next,EitherMap.call,sat_bind,sat_onSnd,sat_get,sat_map,sat_within]
      exact (sat_of_error ran).mpr ⟨rfl,rfl⟩
    · refine run_eq ?_
      simp only [EitherMap.next,EitherMap.call,sat_bind,sat_onSnd,sat_get,sat_map,sat_within]
      exact (sat_of_ok ran).mpr ⟨rfl,rfl⟩

end Futures
end Tcio
