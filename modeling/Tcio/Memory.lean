import Tcio.Arena
import Mathlib.Tactic.Common

/-!
Byte-addressed memory. A block is an allocation at an address; a pointer is an
address together with the block it was derived from, and an access is allowed only
inside that block. A cell that was never written holds nothing, so a load that
succeeds reads written cells only.
-/
namespace Tcio

/-- An address and the allocation it was derived from. -/
@[ext] structure Ptr where
  addr : Nat
  prov : Nat
  deriving DecidableEq, Repr

namespace Ptr
def add (p : Ptr) (n : Nat) : Ptr := { p with addr := p.addr+n }
def sub (p : Ptr) (n : Nat) : Ptr := { p with addr := p.addr-n }
@[simp] theorem add_addr (p : Ptr) (n : Nat) : (p.add n).addr = p.addr+n := rfl
@[simp] theorem add_prov (p : Ptr) (n : Nat) : (p.add n).prov = p.prov := rfl
@[simp] theorem sub_addr (p : Ptr) (n : Nat) : (p.sub n).addr = p.addr-n := rfl
@[simp] theorem sub_prov (p : Ptr) (n : Nat) : (p.sub n).prov = p.prov := rfl
@[simp] theorem add_zero (p : Ptr) : p.add 0 = p := rfl
end Ptr

/-- The addresses from `lo` up to `hi` of one allocation. -/
structure Region where
  prov : Nat
  lo : Nat
  hi : Nat

namespace Region
/-- No address lies in both regions. -/
def Apart (r s : Region) : Prop := r.prov = s.prov → min r.hi s.hi ≤ max r.lo s.lo
/-- Every address of `r` is one of `s`. -/
def Within (r s : Region) : Prop := r.prov = s.prov ∧ s.lo ≤ r.lo ∧ r.hi ≤ s.hi

variable {r r' s : Region}

theorem apart_iff : r.Apart s ↔
    ∀ a, r.prov = s.prov → ¬ ((r.lo ≤ a ∧ a < r.hi) ∧ s.lo ≤ a ∧ a < s.hi) := by
  constructor
  · intro apart a same
    have := apart same
    omega
  · intro none same
    have := none (max r.lo s.lo) same
    omega
theorem Apart.symm (apart : r.Apart s) : s.Apart r := by
  intro same
  have := apart same.symm
  omega
theorem Apart.within (apart : r.Apart s) (inside : r'.Within r) : r'.Apart s := by
  intro same
  have := apart (inside.1.symm.trans same)
  have := inside.2
  omega
theorem apart_of_empty (none : r.hi ≤ r.lo) : r.Apart s := by
  intro _
  omega
theorem apart_of_prov (other : r.prov ≠ s.prov) : r.Apart s := fun same => absurd same other
end Region

/-- Where a block lies. Frozen memory is never written nor freed. -/
structure Extent where
  base : Nat
  size : Nat
  frozen : Bool
  deriving DecidableEq, Repr

/-- A block: where it lies and what was written at its addresses. -/
structure Block (β : Type) where
  extent : Extent
  cell : Nat → Option β

abbrev Memory (β : Type) := Arena (Block β)

namespace Memory
variable {β : Type}

/-- Where the block of an identity lies, if it is live. -/
def extent (m : Memory β) (i : Nat) : Option Extent := (m.get i).map Block.extent

/-- A new block that holds nothing yet. -/
def alloc (m : Memory β) (e : Extent) : Memory β := m.insert ⟨e,fun _ => none⟩

/-- The `n` cells from a pointer, if all are in bounds and written. -/
def load (m : Memory β) (p : Ptr) (n : Nat) : Option (List β) :=
  if n = 0 then some [] else
    match m.get p.prov with
    | none => none
    | some b =>
      if b.extent.base ≤ p.addr ∧ p.addr+n ≤ b.extent.base+b.extent.size then
        (List.range' p.addr n).mapM b.cell
      else none

/-- The cells of a block once `v` is written from address `a` on. -/
def overwrite (cell : Nat → Option β) (a : Nat) (v : List β) : Nat → Option β := fun x =>
  if a ≤ x ∧ x < a+v.length then v[x-a]? else cell x

/-- Write from a pointer on, if the block is live, writable and large enough. -/
def store (m : Memory β) (p : Ptr) (v : List β) : Option (Memory β) :=
  if v = [] then some m else
    match m.get p.prov with
    | none => none
    | some b =>
      if b.extent.frozen = false ∧ b.extent.base ≤ p.addr ∧ p.addr+v.length ≤ b.extent.base+b.extent.size then
        some (m.update p.prov (fun b => { b with cell := overwrite b.cell p.addr v }))
      else none

variable {m m' : Memory β} {p q : Ptr} {n k i : Nat} {v w : List β} {e : Extent}

theorem mapM_range' (c : Nat → Option β) (v : List β) : ∀ a,
    (List.range' a v.length).mapM c = some v ↔ ∀ i, i < v.length → c (a+i) = v[i]? := by
  induction v with
  | nil => simp
  | cons x v ih =>
    intro a
    have rest := ih (a+1)
    simp only [List.length_cons,List.range'_succ,List.mapM_cons]
    constructor
    · intro all i low
      cases first : c a with
      | none => simp [first] at all
      | some y =>
        cases later : (List.range' (a+1) v.length).mapM c with
        | none => simp [first,later] at all
        | some u =>
          simp only [first,later,Option.bind_eq_bind,Option.bind_some,Option.pure_def,Option.some.injEq,
            List.cons.injEq] at all
          obtain ⟨rfl,rfl⟩ := all
          cases i with
          | zero => simpa using first
          | succ i =>
            have := rest.mp later i (by omega)
            simpa [Nat.add_assoc,Nat.add_comm 1 i] using this
    · intro all
      have first : c a = some x := by simpa using all 0 (by omega)
      have later : (List.range' (a+1) v.length).mapM c = some v := rest.mpr (by
        intro i low
        have := all (i+1) (by omega)
        simpa [Nat.add_assoc,Nat.add_comm 1 i] using this)
      simp [first,later]

theorem mapM_range'_length {c : Nat → Option β} : ∀ {n a v}, (List.range' a n).mapM c = some v → v.length = n := by
  intro n
  induction n with
  | zero => intro a v all; simp at all; simp [← all]
  | succ n ih =>
    intro a v all
    simp only [List.range'_succ,List.mapM_cons] at all
    cases first : c a with
    | none => simp [first] at all
    | some y =>
      cases later : (List.range' (a+1) n).mapM c with
      | none => simp [first,later] at all
      | some u =>
        simp [first,later] at all
        subst all
        simp [ih later]

@[simp] theorem load_zero : m.load p 0 = some [] := by simp [load]

/-- What a load that succeeds says of the block it reads. -/
theorem load_eq_some : m.load p n = some v ↔ v.length = n ∧ (0 < n → ∃ b, m.get p.prov = some b ∧
    b.extent.base ≤ p.addr ∧ p.addr+n ≤ b.extent.base+b.extent.size ∧
    ∀ i, i < n → b.cell (p.addr+i) = v[i]?) := by
  unfold load
  by_cases none : n = 0
  · subst none
    simp [eq_comm]
  · simp only [none,↓reduceIte]
    have some' : 0 < n := by omega
    constructor
    · intro loaded
      cases live : m.get p.prov with
      | none => simp [live] at loaded
      | some b =>
        simp only [live] at loaded
        split_ifs at loaded with inside
        have len := mapM_range'_length loaded
        subst len
        exact ⟨rfl,fun _ => ⟨b,rfl,inside.1,inside.2,(mapM_range' _ _ _).mp loaded⟩⟩
    · rintro ⟨len,found⟩
      obtain ⟨b,live,low,high,cells⟩ := found some'
      subst len
      simp only [live,low,high,and_self,↓reduceIte]
      exact (mapM_range' _ _ _).mpr cells

theorem load_length (loaded : m.load p n = some v) : v.length = n := (Iff.mp load_eq_some loaded).1

/-- The cells behind the first `k`. -/
theorem load_drop (loaded : m.load p n = some v) (le : k ≤ n) : m.load (p.add k) (n-k) = some (v.drop k) := by
  obtain ⟨len,found⟩ := Iff.mp load_eq_some loaded
  refine Iff.mpr load_eq_some ⟨by simp [len],fun more => ?_⟩
  obtain ⟨b,live,low,high,cells⟩ := found (by omega)
  refine ⟨b,live,by simp; omega,by simp; omega,?_⟩
  intro i small
  have := cells (k+i) (by omega)
  simpa [Nat.add_assoc] using this

/-- The first `k` cells. -/
theorem load_take (loaded : m.load p n = some v) (le : k ≤ n) : m.load p k = some (v.take k) := by
  obtain ⟨len,found⟩ := Iff.mp load_eq_some loaded
  refine Iff.mpr load_eq_some ⟨by simp [len,le],fun more => ?_⟩
  obtain ⟨b,live,low,high,cells⟩ := found (by omega)
  refine ⟨b,live,low,by omega,?_⟩
  intro i small
  rw [List.getElem?_take_of_lt small]
  exact cells i (by omega)

/-- Two loads that follow each other. -/
theorem load_append (first : m.load p n = some v) (second : m.load (p.add n) k = some w) :
    m.load p (n+k) = some (v++w) := by
  obtain ⟨len,found⟩ := Iff.mp load_eq_some first
  obtain ⟨len',found'⟩ := Iff.mp load_eq_some second
  by_cases none : n = 0
  · subst none
    have : v = [] := List.length_eq_zero_iff.mp len
    subst this
    simpa using second
  by_cases none' : k = 0
  · subst none'
    have : w = [] := List.length_eq_zero_iff.mp len'
    subst this
    simpa using first
  obtain ⟨b,live,low,high,cells⟩ := found (by omega)
  obtain ⟨b',live',low',high',cells'⟩ := found' (by omega)
  have same : b' = b := by simpa [live] using live'.symm
  subst same
  refine Iff.mpr load_eq_some ⟨by simp [len,len'],fun _ => ⟨b',live,low,by simpa [Nat.add_assoc] using high',?_⟩⟩
  intro i small
  by_cases early : i < n
  · rw [List.getElem?_append_left (by omega)]
    exact cells i early
  · rw [List.getElem?_append_right (by omega),len]
    have := cells' (i-n) (by omega)
    simpa [show p.addr+n+(i-n) = p.addr+i by omega] using this

/-! ### What changes to memory leave alone -/

/-- A load reads one block at its own addresses. -/
theorem load_congr (same : 0 < n → ∃ b b', m.get p.prov = some b ∧ m'.get p.prov = some b' ∧
    b'.extent = b.extent ∧ ∀ a, p.addr ≤ a → a < p.addr+n → b'.cell a = b.cell a)
    (loaded : m.load p n = some v) : m'.load p n = some v := by
  obtain ⟨len,found⟩ := Iff.mp load_eq_some loaded
  refine Iff.mpr load_eq_some ⟨len,fun more => ?_⟩
  obtain ⟨b,live,low,high,cells⟩ := found more
  obtain ⟨b₁,b',live₁,live',extent,agree⟩ := same more
  have : b₁ = b := by simpa [live] using live₁.symm
  subst this
  refine ⟨b',live',by rw [extent]; exact low,by rw [extent]; exact high,?_⟩
  intro i small
  rw [agree _ (by omega) (by omega)]
  exact cells i small

theorem load_alloc (loaded : m.load p n = some v) : (m.alloc e).load p n = some v := by
  refine load_congr ?_ loaded
  intro more
  obtain ⟨b,live,_⟩ := (Iff.mp load_eq_some loaded).2 more
  exact ⟨b,b,live,Arena.get_insert_of_live live,rfl,fun _ _ _ => rfl⟩

theorem load_free (other : 0 < n → p.prov ≠ i) (loaded : m.load p n = some v) :
    Memory.load (m.free i) p n = some v := by
  refine load_congr ?_ loaded
  intro more
  obtain ⟨b,live,_⟩ := (Iff.mp load_eq_some loaded).2 more
  exact ⟨b,b,live,by rw [Arena.get_free_ne (other more)]; exact live,rfl,fun _ _ _ => rfl⟩

theorem extent_eq_some : m.extent i = some e ↔ ∃ b, m.get i = some b ∧ b.extent = e := Option.map_eq_some_iff
@[simp] theorem extent_eq_none : m.extent i = none ↔ m.get i = none := Option.map_eq_none_iff
@[simp] theorem extent_alloc_bound : (m.alloc e).extent m.bound = some e := by simp [extent,alloc]
theorem extent_alloc (live : m.extent i = some e) {e' : Extent} : (m.alloc e').extent i = some e := by
  obtain ⟨b,found,rfl⟩ := Iff.mp extent_eq_some live
  exact Iff.mpr extent_eq_some ⟨b,Arena.get_insert_of_live found,rfl⟩
theorem extent_free (other : k ≠ i) : Memory.extent (m.free i) k = m.extent k := by
  simp [extent,Arena.get_free_ne other]

/-! ### Stores -/

theorem store_eq_some (some' : v ≠ []) : m.store p v = some m' ↔ ∃ b, m.get p.prov = some b ∧
    b.extent.frozen = false ∧ b.extent.base ≤ p.addr ∧ p.addr+v.length ≤ b.extent.base+b.extent.size ∧
    m' = m.update p.prov (fun b => { b with cell := overwrite b.cell p.addr v }) := by
  unfold store
  simp only [some',↓reduceIte]
  cases live : m.get p.prov with
  | none => simp
  | some b =>
    by_cases inside : b.extent.frozen = false ∧ b.extent.base ≤ p.addr ∧
        p.addr+v.length ≤ b.extent.base+b.extent.size
    · simp only [inside,and_self,↓reduceIte,Option.some.injEq,exists_eq_left',true_and]
      exact eq_comm
    · simp only [inside,↓reduceIte,reduceCtorEq,false_iff]
      rintro ⟨b',same,rest⟩
      cases same
      exact inside ⟨rest.1,rest.2.1,rest.2.2.1⟩

/-- A store inside a live, writable block succeeds. -/
theorem store_succeeds (live : m.extent p.prov = some e) (writable : e.frozen = false) (low : e.base ≤ p.addr)
    (high : p.addr+v.length ≤ e.base+e.size) : ∃ m', m.store p v = some m' := by
  by_cases none : v = []
  · exact ⟨m,by simp [store,none]⟩
  obtain ⟨b,found,rfl⟩ := Iff.mp extent_eq_some live
  exact ⟨_,(store_eq_some none).mpr ⟨b,found,writable,low,high,rfl⟩⟩

/-- What a store leaves as it was: every block stays where it lies, and cells
    outside the written addresses keep what they hold. -/
structure Stored (m m' : Memory β) (p : Ptr) (n : Nat) : Prop where
  bound : m'.bound = m.bound
  freed : m'.freed = m.freed
  extent : ∀ i, m'.extent i = m.extent i
  cells : ∀ i b, m.get i = some b → ∃ b', m'.get i = some b' ∧ b'.extent = b.extent ∧
    ∀ a, (i = p.prov → ¬ (p.addr ≤ a ∧ a < p.addr+n)) → b'.cell a = b.cell a

theorem store_stored (stored : m.store p v = some m') : Stored m m' p v.length := by
  by_cases none : v = []
  · have same : m' = m := by simpa [store,none] using stored.symm
    subst same
    exact ⟨rfl,rfl,fun _ => rfl,fun i b live => ⟨b,live,rfl,fun _ _ => rfl⟩⟩
  obtain ⟨b,live,_,_,_,rfl⟩ := (store_eq_some none).mp stored
  refine ⟨rfl,rfl,?_,?_⟩
  · intro i
    unfold extent
    rw [Arena.get_update]
    split <;> simp [Function.comp_def]
  · intro i c live'
    by_cases here : i = p.prov
    · subst here
      refine ⟨{ c with cell := overwrite c.cell p.addr v },by rw [Arena.get_update_self,live']; rfl,rfl,?_⟩
      intro a outside
      simp only [overwrite,outside rfl,↓reduceIte]
    · exact ⟨c,by rw [Arena.get_update_ne here]; exact live',rfl,fun _ _ => rfl⟩

/-- A load elsewhere reads what it read before. -/
theorem Stored.load (stored : Stored m m' p k) (loaded : m.load q n = some v)
    (apart : Region.Apart ⟨q.prov,q.addr,q.addr+n⟩ ⟨p.prov,p.addr,p.addr+k⟩) : m'.load q n = some v := by
  refine load_congr ?_ loaded
  intro more
  obtain ⟨b,live,_⟩ := (Iff.mp load_eq_some loaded).2 more
  obtain ⟨b',live',extent,cells⟩ := stored.cells _ b live
  refine ⟨b,b',live,live',extent,fun a low high => cells a ?_⟩
  rintro same ⟨low',high'⟩
  have := apart same
  simp only at this
  omega

/-- What was stored is read back. -/
theorem load_store (stored : m.store p v = some m') : m'.load p v.length = some v := by
  refine Iff.mpr load_eq_some ⟨rfl,fun more => ?_⟩
  have some' : v ≠ [] := List.ne_nil_of_length_pos more
  obtain ⟨b,live,_,low,high,rfl⟩ := (store_eq_some some').mp stored
  refine ⟨{ b with cell := overwrite b.cell p.addr v },by rw [Arena.get_update_self,live]; rfl,low,high,?_⟩
  intro i small
  have inside : p.addr ≤ p.addr+i ∧ p.addr+i < p.addr+v.length := by omega
  simp only [overwrite,inside,and_self,↓reduceIte,Nat.add_sub_cancel_left]

/-- A store inside the cells that are read replaces the ones it writes. -/
theorem Stored.load_overwritten (stored : Stored m m' (p.add k) w.length) (seen : m'.load (p.add k) w.length = some w)
    (loaded : m.load p n = some v) (inside : k+w.length ≤ n) :
    m'.load p n = some (v.take k++w++v.drop (k+w.length)) := by
  have before := stored.load (load_take loaded (k := k) (by omega)) (by intro _; simp only [Ptr.add_addr]; omega)
  have after := stored.load (load_drop loaded inside) (by intro _; simp only [Ptr.add_addr]; omega)
  have whole := load_append (load_append before seen) after
  rwa [show k+w.length+(n-(k+w.length)) = n by omega] at whole

end Memory
end Tcio
