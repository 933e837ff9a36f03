import Mathlib.Data.List.Count
import Mathlib.Tactic.Common

/-!
Who owns what, when a resource is held either by one claim alone or by a counted
node that several claims share. A ledger is balanced when every node counts
exactly its claims and every live resource has exactly one owner. The rules say
how the ledger moves when a resource is gained or given up, when a sole owner
becomes a shared one, and when claims on a node come and go.
-/
namespace Tcio.Ledger
variable {B K : Type} [DecidableEq B] [DecidableEq K]

/-- What one holder has a claim on. -/
inductive Claim (B K : Type) where
  | idle
  | sole (b : B)
  | share (k : K)
  deriving DecidableEq

/-- The claim of a sole owner, who may own nothing at all. -/
def Claim.ofBlock : Option B → Claim B K
  | none => .idle
  | some b => .sole b

/-- `nodes k = some (n,o)` is a live node with count `n` that owns `o`. -/
structure Balanced (claims : List (Claim B K)) (nodes : K → Option (Nat × Option B)) (live : B → Prop) :
    Prop where
  /-- A node counts the claims on it, and there are some. -/
  counted : ∀ k n o, nodes k = some (n,o) → claims.count (.share k) = n ∧ 0 < n
  backed : ∀ k, .share k ∈ claims → ∃ n o, nodes k = some (n,o)
  soleLive : ∀ b, .sole b ∈ claims → live b
  nodeLive : ∀ k n b, nodes k = some (n,some b) → live b
  /-- Nothing is left without an owner. -/
  owned : ∀ b, live b → .sole b ∈ claims ∨ ∃ k n, nodes k = some (n,some b)
  soleOnce : ∀ b, claims.count (.sole b) ≤ 1
  nodeOnce : ∀ k k' n n' b, nodes k = some (n,some b) → nodes k' = some (n',some b) → k = k'
  exclusive : ∀ b k n, .sole b ∈ claims → nodes k ≠ some (n,some b)

variable {claims claims' : List (Claim B K)} {nodes nodes' : K → Option (Nat × Option B)}
variable {live live' : B → Prop} {b : B} {k : K} {n : Nat} {o : Option B}

theorem Balanced.perm (bal : Balanced claims nodes live) (same : claims.Perm claims') :
    Balanced claims' nodes live where
  counted k n o found := by
    rw [← same.count_eq]
    exact bal.counted k n o found
  backed k mem := bal.backed k (same.mem_iff.mpr mem)
  soleLive b mem := bal.soleLive b (same.mem_iff.mpr mem)
  nodeLive := bal.nodeLive
  owned b alive := (bal.owned b alive).imp same.mem_iff.mp id
  soleOnce b := by
    rw [← same.count_eq]
    exact bal.soleOnce b
  nodeOnce := bal.nodeOnce
  exclusive b k n mem := bal.exclusive b k n (same.mem_iff.mpr mem)

/-- A claim on nothing neither adds nor removes an owner. -/
theorem balanced_idle : Balanced (.idle :: claims) nodes live ↔ Balanced claims nodes live := by
  constructor
  · rintro ⟨counted,backed,soleLive,nodeLive,owned,soleOnce,nodeOnce,exclusive⟩
    simp only [List.mem_cons,List.count_cons,reduceCtorEq,false_or,beq_iff_eq,↓reduceIte,Nat.add_zero]
      at counted backed soleLive owned soleOnce exclusive
    exact ⟨counted,backed,soleLive,nodeLive,owned,soleOnce,nodeOnce,exclusive⟩
  · rintro ⟨counted,backed,soleLive,nodeLive,owned,soleOnce,nodeOnce,exclusive⟩
    refine ⟨?_,?_,?_,nodeLive,?_,?_,nodeOnce,?_⟩
    all_goals
      simp only [List.mem_cons,List.count_cons,reduceCtorEq,false_or,beq_iff_eq,↓reduceIte,Nat.add_zero]
      assumption

/-! ### What a balanced ledger rules out -/

/-- The only claim on a node whose count is one. -/
theorem Balanced.alone (bal : Balanced (.share k :: claims) nodes live) (one : nodes k = some (1,o)) :
    .share k ∉ claims := by
  have count := (bal.counted k 1 o one).1
  rw [List.count_cons_self] at count
  exact List.count_eq_zero.mp (by omega)

theorem Balanced.sole_not_mem (bal : Balanced (.sole b :: claims) nodes live) : .sole b ∉ claims := by
  have count := bal.soleOnce b
  rw [List.count_cons_self] at count
  exact List.count_eq_zero.mp (by omega)

/-! ### How the ledger moves -/

/-- A resource that was not live is gained by a sole owner. -/
theorem Balanced.gain (bal : Balanced claims nodes live) (fresh : ¬ live b)
    (now : ∀ b', live' b' ↔ live b' ∨ b' = b) : Balanced (.sole b :: claims) nodes live' where
  counted k n o found := by
    rw [List.count_cons_of_ne (by simp)]
    exact bal.counted k n o found
  backed k mem := bal.backed k (by simpa using mem)
  soleLive b' mem := by
    rcases List.mem_cons.mp mem with same | later
    · exact (now b').mpr (.inr (by simpa using same))
    · exact (now b').mpr (.inl (bal.soleLive b' later))
  nodeLive k n b' found := (now b').mpr (.inl (bal.nodeLive k n b' found))
  owned b' alive := by
    rcases (now b').mp alive with before | rfl
    · exact (bal.owned b' before).imp (List.mem_cons_of_mem _) id
    · exact .inl List.mem_cons_self
  soleOnce b' := by
    by_cases same : b = b'
    · subst same
      have : claims.count (.sole b) = 0 := List.count_eq_zero.mpr (fun mem => fresh (bal.soleLive b mem))
      rw [List.count_cons_self]
      omega
    · rw [List.count_cons_of_ne (by simpa using same)]
      exact bal.soleOnce b'
  nodeOnce := bal.nodeOnce
  exclusive b' k n mem := by
    rcases List.mem_cons.mp mem with same | later
    · intro found
      have same : b' = b := by simpa using same
      exact fresh (same ▸ bal.nodeLive k n b' found)
    · exact bal.exclusive b' k n later

/-- The sole owner gives its resource up. -/
theorem Balanced.lose (bal : Balanced (.sole b :: claims) nodes live)
    (now : ∀ b', live' b' ↔ live b' ∧ b' ≠ b) : Balanced claims nodes live' where
  counted k n o found := by
    have := bal.counted k n o found
    rwa [List.count_cons_of_ne (by simp)] at this
  backed k mem := bal.backed k (List.mem_cons_of_mem _ mem)
  soleLive b' mem := by
    refine (now b').mpr ⟨bal.soleLive b' (List.mem_cons_of_mem _ mem),?_⟩
    rintro rfl
    exact bal.sole_not_mem mem
  nodeLive k n b' found := by
    refine (now b').mpr ⟨bal.nodeLive k n b' found,?_⟩
    rintro rfl
    exact bal.exclusive b' k n List.mem_cons_self found
  owned b' alive := by
    obtain ⟨before,other⟩ := (now b').mp alive
    rcases bal.owned b' before with mem | node
    · refine .inl ((List.mem_cons.mp mem).resolve_left ?_)
      simpa using other
    · exact .inr node
  soleOnce b' := Nat.le_trans List.count_le_count_cons (bal.soleOnce b')
  nodeOnce := bal.nodeOnce
  exclusive b' k n mem := bal.exclusive b' k n (List.mem_cons_of_mem _ mem)

/-- A sole owner turns its resource over to a new node with `n` claims. -/
theorem Balanced.found (bal : Balanced (.ofBlock o :: claims) nodes live) (fresh : nodes k = none) (some' : 0 < n)
    (now : ∀ k', nodes' k' = if k' = k then some (n,o) else nodes k') :
    Balanced (List.replicate n (.share k) ++ claims) nodes' live := by
  have unclaimed : .share k ∉ claims := by
    intro mem
    obtain ⟨_,_,found⟩ := bal.backed k (List.mem_cons_of_mem _ mem)
    simp [fresh] at found
  have others : ∀ {k' n' o'}, k' ≠ k → nodes' k' = some (n',o') → nodes k' = some (n',o') := by
    intro k' n' o' other found
    rwa [now k',if_neg other] at found
  have newNode : ∀ {k' n' b'}, nodes' k' = some (n',some b') →
      (k' = k ∧ o = some b') ∨ (k' ≠ k ∧ nodes k' = some (n',some b')) := by
    intro k' n' b' found
    by_cases here : k' = k
    · rw [now k',if_pos here] at found
      simp only [Option.some.injEq,Prod.mk.injEq] at found
      exact .inl ⟨here,found.2⟩
    · exact .inr ⟨here,others here found⟩
  have soleIn : ∀ {b'}, .sole b' ∈ List.replicate n (.share k) ++ claims → .sole b' ∈ claims := by
    intro b' mem
    rcases List.mem_append.mp mem with first | rest
    · simp [List.mem_replicate] at first
    · exact rest
  refine ⟨?_,?_,?_,?_,?_,?_,?_,?_⟩
  · intro k' n' o' found
    rw [List.count_append,List.count_replicate]
    by_cases here : k' = k
    · subst here
      rw [now k',if_pos rfl] at found
      simp only [Option.some.injEq,Prod.mk.injEq] at found
      have : claims.count (.share k') = 0 := List.count_eq_zero.mpr unclaimed
      simp only [beq_self_eq_true,↓reduceIte]
      omega
    · have := bal.counted k' n' o' (others here found)
      have skip : List.count (Claim.share k') (Claim.ofBlock o :: claims) = claims.count (.share k') := by
        rw [List.count_cons_of_ne (by cases o <;> simp [Claim.ofBlock])]
      rw [skip] at this
      simpa [Ne.symm here] using this
  · intro k' mem
    by_cases here : k' = k
    · exact ⟨n,o,by rw [now k',if_pos here]⟩
    · rw [now k',if_neg here]
      refine bal.backed k' (List.mem_cons_of_mem _ ?_)
      rcases List.mem_append.mp mem with first | rest
      · simp [List.mem_replicate,here] at first
      · exact rest
  · intro b' mem
    exact bal.soleLive b' (List.mem_cons_of_mem _ (soleIn mem))
  · intro k' n' b' found
    rcases newNode found with ⟨_,rfl⟩ | ⟨_,before⟩
    · exact bal.soleLive b' List.mem_cons_self
    · exact bal.nodeLive k' n' b' before
  · intro b' alive
    rcases bal.owned b' alive with mem | ⟨k',n',before⟩
    · rcases List.mem_cons.mp mem with first | rest
      · refine .inr ⟨k,n,?_⟩
        rw [now k,if_pos rfl]
        cases o with
        | none => simp [Claim.ofBlock] at first
        | some b => simpa [Claim.ofBlock,eq_comm] using first
      · exact .inl (List.mem_append_right _ rest)
    · refine .inr ⟨k',n',?_⟩
      have other : k' ≠ k := by
        rintro rfl
        simp [fresh] at before
      rw [now k',if_neg other]
      exact before
  · intro b'
    have := bal.soleOnce b'
    rw [List.count_append,List.count_replicate]
    simp only [beq_iff_eq,reduceCtorEq,↓reduceIte,Nat.zero_add]
    exact Nat.le_trans List.count_le_count_cons this
  · intro k₁ k₂ n₁ n₂ b' one two
    rcases newNode one with ⟨here₁,own₁⟩ | ⟨_,before₁⟩
    · rcases newNode two with ⟨here₂,_⟩ | ⟨_,before₂⟩
      · rw [here₁,here₂]
      · subst own₁
        exact absurd before₂ (bal.exclusive b' k₂ n₂ List.mem_cons_self)
    · rcases newNode two with ⟨_,own₂⟩ | ⟨_,before₂⟩
      · subst own₂
        exact absurd before₁ (bal.exclusive b' k₁ n₁ List.mem_cons_self)
      · exact bal.nodeOnce k₁ k₂ n₁ n₂ b' before₁ before₂
  · intro b' k' n' mem found
    rcases newNode found with ⟨_,rfl⟩ | ⟨_,before⟩
    · exact bal.sole_not_mem (soleIn mem)
    · exact bal.exclusive b' k' n' (List.mem_cons_of_mem _ (soleIn mem)) before

omit [DecidableEq B] in
/-- A change of one node's count alone. -/
private theorem recount {n' : Nat} (before : nodes k = some (n,o))
    (now : ∀ k', nodes' k' = if k' = k then some (n',o) else nodes k') {k' : K} {m : Nat} {b' : B} :
    nodes' k' = some (m,some b') → ∃ m', nodes k' = some (m',some b') := by
  intro found
  by_cases here : k' = k
  · subst here
    rw [now k',if_pos rfl] at found
    simp only [Option.some.injEq,Prod.mk.injEq] at found
    exact ⟨n,by rw [before,found.2]⟩
  · rw [now k',if_neg here] at found
    exact ⟨m,found⟩

/-- One more claim on a node. -/
theorem Balanced.share (bal : Balanced claims nodes live) (before : nodes k = some (n,o))
    (now : ∀ k', nodes' k' = if k' = k then some (n+1,o) else nodes k') :
    Balanced (.share k :: claims) nodes' live where
  counted k' m o' found := by
    by_cases here : k' = k
    · subst here
      rw [now k',if_pos rfl] at found
      simp only [Option.some.injEq,Prod.mk.injEq] at found
      have := bal.counted k' n o before
      rw [List.count_cons_self]
      omega
    · rw [now k',if_neg here] at found
      rw [List.count_cons_of_ne (by simpa [eq_comm] using here)]
      exact bal.counted k' m o' found
  backed k' mem := by
    by_cases here : k' = k
    · exact ⟨n+1,o,by rw [now k',if_pos here]⟩
    · rw [now k',if_neg here]
      exact bal.backed k' ((List.mem_cons.mp mem).resolve_left (by simpa using here))
  soleLive b mem := bal.soleLive b (by simpa using mem)
  nodeLive k' m b found := by
    obtain ⟨m',found⟩ := recount before now found
    exact bal.nodeLive k' m' b found
  owned b alive := by
    rcases bal.owned b alive with mem | ⟨k',m,found⟩
    · exact .inl (List.mem_cons_of_mem _ mem)
    · by_cases here : k' = k
      · subst here
        have : o = some b := by simpa [before] using congrArg (Option.map Prod.snd) found
        exact .inr ⟨k',n+1,by rw [now k',if_pos rfl,this]⟩
      · exact .inr ⟨k',m,by rw [now k',if_neg here]; exact found⟩
  soleOnce b := by
    rw [List.count_cons_of_ne (by simp)]
    exact bal.soleOnce b
  nodeOnce k₁ k₂ n₁ n₂ b one two := by
    obtain ⟨m₁,one⟩ := recount before now one
    obtain ⟨m₂,two⟩ := recount before now two
    exact bal.nodeOnce k₁ k₂ m₁ m₂ b one two
  exclusive b k' m mem found := by
    obtain ⟨m',found⟩ := recount before now found
    exact bal.exclusive b k' m' (by simpa using mem) found

/-- A claim on a node with other claims is given up. -/
theorem Balanced.release (bal : Balanced (.share k :: claims) nodes live) (before : nodes k = some (n,o))
    (more : n ≠ 1) (now : ∀ k', nodes' k' = if k' = k then some (n-1,o) else nodes k') :
    Balanced claims nodes' live where
  counted k' m o' found := by
    by_cases here : k' = k
    · subst here
      rw [now k',if_pos rfl] at found
      simp only [Option.some.injEq,Prod.mk.injEq] at found
      have := bal.counted k' n o before
      rw [List.count_cons_self] at this
      omega
    · rw [now k',if_neg here] at found
      have := bal.counted k' m o' found
      rwa [List.count_cons_of_ne (by simpa [eq_comm] using here)] at this
  backed k' mem := by
    by_cases here : k' = k
    · exact ⟨n-1,o,by rw [now k',if_pos here]⟩
    · rw [now k',if_neg here]
      exact bal.backed k' (List.mem_cons_of_mem _ mem)
  soleLive b mem := bal.soleLive b (List.mem_cons_of_mem _ mem)
  nodeLive k' m b found := by
    obtain ⟨m',found⟩ := recount before now found
    exact bal.nodeLive k' m' b found
  owned b alive := by
    rcases bal.owned b alive with mem | ⟨k',m,found⟩
    · exact .inl (by simpa using mem)
    · by_cases here : k' = k
      · subst here
        have : o = some b := by simpa [before] using congrArg (Option.map Prod.snd) found
        exact .inr ⟨k',n-1,by rw [now k',if_pos rfl,this]⟩
      · exact .inr ⟨k',m,by rw [now k',if_neg here]; exact found⟩
  soleOnce b := Nat.le_trans List.count_le_count_cons (bal.soleOnce b)
  nodeOnce k₁ k₂ n₁ n₂ b one two := by
    obtain ⟨m₁,one⟩ := recount before now one
    obtain ⟨m₂,two⟩ := recount before now two
    exact bal.nodeOnce k₁ k₂ m₁ m₂ b one two
  exclusive b k' m mem found := by
    obtain ⟨m',found⟩ := recount before now found
    exact bal.exclusive b k' m' (List.mem_cons_of_mem _ mem) found

/-- The last claim on a node takes the node's resource over. -/
theorem Balanced.last (bal : Balanced (.share k :: claims) nodes live) (one : nodes k = some (1,o))
    (now : ∀ k', nodes' k' = if k' = k then none else nodes k') :
    Balanced (.ofBlock o :: claims) nodes' live := by
  have others : ∀ {k' n' o'}, nodes' k' = some (n',o') → k' ≠ k ∧ nodes k' = some (n',o') := by
    intro k' n' o' found
    by_cases here : k' = k
    · rw [now k',if_pos here] at found
      cases found
    · rw [now k',if_neg here] at found
      exact ⟨here,found⟩
  have own : ∀ {b'}, .sole b' ∈ Claim.ofBlock o :: claims → o = some b' ∨ .sole b' ∈ claims := by
    intro b' mem
    rcases List.mem_cons.mp mem with first | rest
    · cases o with
      | none => simp [Claim.ofBlock] at first
      | some b => exact .inl (by simpa [Claim.ofBlock,eq_comm] using first)
    · exact .inr rest
  refine ⟨?_,?_,?_,?_,?_,?_,?_,?_⟩
  · intro k' n' o' found
    obtain ⟨other,before⟩ := others found
    have := bal.counted k' n' o' before
    rw [List.count_cons_of_ne (by simpa [eq_comm] using other)] at this
    rwa [List.count_cons_of_ne (by cases o <;> simp [Claim.ofBlock])]
  · intro k' mem
    have later : .share k' ∈ claims := by
      rcases List.mem_cons.mp mem with first | rest
      · cases o <;> simp [Claim.ofBlock] at first
      · exact rest
    have other : k' ≠ k := by
      rintro rfl
      exact bal.alone one later
    rw [now k',if_neg other]
    exact bal.backed k' (List.mem_cons_of_mem _ later)
  · intro b' mem
    rcases own mem with rfl | rest
    · exact bal.nodeLive k 1 b' one
    · exact bal.soleLive b' (List.mem_cons_of_mem _ rest)
  · intro k' n' b' found
    exact bal.nodeLive k' n' b' (others found).2
  · intro b' alive
    rcases bal.owned b' alive with mem | ⟨k',n',found⟩
    · exact .inl (List.mem_cons_of_mem _ (by simpa using mem))
    · by_cases here : k' = k
      · subst here
        have : o = some b' := by simpa [one] using congrArg (Option.map Prod.snd) found
        subst this
        exact .inl List.mem_cons_self
      · exact .inr ⟨k',n',by rw [now k',if_neg here]; exact found⟩
  · intro b'
    have rest : claims.count (.sole b') ≤ 1 := Nat.le_trans List.count_le_count_cons (bal.soleOnce b')
    cases o with
    | none => simpa [Claim.ofBlock,List.count_cons] using rest
    | some b =>
      by_cases same : b = b'
      · subst same
        have : claims.count (.sole b) = 0 := List.count_eq_zero.mpr (fun mem =>
          bal.exclusive b k 1 (List.mem_cons_of_mem _ mem) one)
        simp only [Claim.ofBlock,List.count_cons_self]
        omega
      · simpa [Claim.ofBlock,List.count_cons,same] using rest
  · intro k₁ k₂ n₁ n₂ b' first second
    exact bal.nodeOnce k₁ k₂ n₁ n₂ b' (others first).2 (others second).2
  · intro b' k' n' mem found
    obtain ⟨other,before⟩ := others found
    rcases own mem with rfl | rest
    · exact other (bal.nodeOnce k' k n' 1 b' before one)
    · exact bal.exclusive b' k' n' (List.mem_cons_of_mem _ rest) before

end Tcio.Ledger
