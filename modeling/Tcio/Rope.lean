import Mathlib.Data.List.Infix
import Mathlib.Tactic.Common

/-!
Sequences in pieces. A rope is a tree of pieces, of concatenations and of limits that cut
what lies below them, and it is listed by writing its pieces into a number of entries.
A limit collects the pieces below it in a fixed number of entries of its own; where these
run out before the entries that were asked for, what follows in a concatenation is
listed too early. Without that, the pieces listed are the first elements of the rope.
-/
namespace Tcio

inductive Rope (β : Type) where
  | leaf (v : List β)
  | chain (a b : Rope β)
  | take (t : Rope β) (limit : Nat)

namespace Rope
variable {β : Type}

/-- The elements that the rope stands for. -/
def content : Rope β → List β
  | leaf v => v
  | chain a b => a.content++b.content
  | take t limit => t.content.take limit

/-- The pieces up to the first `l` elements; the last of them is cut. -/
def cut : Nat → List (List β) → List (List β)
  | _,[] => []
  | l,s :: ss => if l = 0 then [] else if l ≤ s.length then [s.take l] else s :: cut (l-s.length) ss

variable (scratch : Nat)

/-- The pieces that are written into `k` entries, where a limit has `scratch` of its own. -/
def slices : Rope β → Nat → List (List β)
  | leaf v,k => if k = 0 ∨ v = [] then [] else [v]
  | chain a b,k => a.slices k++b.slices (k-(a.slices k).length)
  | take t limit,k => cut limit (t.slices (min k scratch))

/-- The first piece that is not empty, as far as the limits let it be seen. -/
def front : Rope β → List β
  | leaf v => v
  | chain a b => if a.content.isEmpty then b.front else a.front
  | take t limit => t.front.take limit

/-- How many entries the first `l` elements take. -/
def needs : Rope β → Nat → Nat
  | leaf v,l => if min l v.length = 0 then 0 else 1
  | chain a b,l => a.needs l+b.needs (l-a.content.length)
  | take t limit,l => t.needs (min l limit)

/-- Among the first `l` elements a limit runs out of entries while some of the `k` are left. -/
def Stops : Rope β → Nat → Nat → Prop
  | leaf _,_,_ => False
  | chain a b,k,l => a.Stops k l ∨ b.Stops (k-a.needs l) (l-a.content.length)
  | take t limit,k,l => t.Stops (min k scratch) (min l limit) ∨ scratch < k ∧ scratch < t.needs (min l limit)

/-- Among the first `l` elements nothing follows where a limit ran out of entries. -/
def InStep : Rope β → Nat → Nat → Prop
  | leaf _,_,_ => True
  | chain a b,k,l => a.InStep k l ∧ (a.Stops scratch k l → b.content = []) ∧ b.InStep (k-a.needs l) (l-a.content.length)
  | take t limit,k,l => t.InStep (min k scratch) (min l limit)

/-- The elements of all pieces, also of those behind a limit. -/
def elements : Rope β → List β
  | leaf v => v
  | chain a b => a.elements++b.elements
  | take t _ => t.elements
/-- No element lies in both halves of a concatenation. -/
def Distinct : Rope β → Prop
  | leaf _ => True
  | chain a b => a.Distinct ∧ b.Distinct ∧ ∀ x ∈ a.elements, x ∉ b.elements
  | take t _ => t.Distinct

variable {scratch} {r a b t : Rope β} {k l n : Nat} {ss ss' : List (List β)} {v w : List β}

/-! ### Cutting -/

attribute [local simp] content slices front needs

@[simp] theorem cut_zero : cut 0 ss = [] := by cases ss <;> simp [cut]

theorem cut_cons {s : List β} : cut l (s :: ss) = if l = 0 then [] else if l ≤ s.length then [s.take l] else s :: cut (l-s.length) ss := rfl

theorem flatten_cut : (cut l ss).flatten = ss.flatten.take l := by
  induction ss generalizing l with
  | nil => simp [cut]
  | cons s ss ih =>
    rw [cut_cons,List.flatten_cons,List.take_append]
    split_ifs with none inside
    · simp [none]
    · simp [Nat.sub_eq_zero_of_le inside]
    · have whole : s.take l = s := List.take_of_length_le (by omega)
      rw [List.flatten_cons,ih,whole]

theorem mem_cut {s : List β} (mem : s ∈ cut l ss) (some' : ∀ s ∈ ss, s ≠ []) : s ≠ [] := by
  induction ss generalizing l with
  | nil => simp [cut] at mem
  | cons u ss ih =>
    rw [cut_cons] at mem
    split_ifs at mem with none inside
    · simp at mem
    · rw [List.mem_singleton] at mem
      rw [mem,ne_eq,List.take_eq_nil_iff,not_or]
      exact ⟨none,some' u List.mem_cons_self⟩
    · rcases List.mem_cons.mp mem with rfl | later
      · exact some' s List.mem_cons_self
      · exact ih later fun s mem => some' s (List.mem_cons_of_mem _ mem)

theorem length_cut_le : (cut l ss).length ≤ ss.length := by
  induction ss generalizing l with
  | nil => simp [cut]
  | cons s ss ih =>
    rw [cut_cons]
    split_ifs
    · simp
    · simp
    · simpa using ih

/-- Pieces that are not more than the limit are not cut. -/
theorem cut_of_le (some' : ∀ s ∈ ss, s ≠ []) (le : ss.flatten.length ≤ l) : cut l ss = ss := by
  induction ss generalizing l with
  | nil => rfl
  | cons s ss ih =>
    have first := List.length_pos_iff.mpr (some' s List.mem_cons_self)
    rw [List.flatten_cons,List.length_append] at le
    rw [cut_cons,if_neg (by omega)]
    split_ifs with inside
    · cases ss with
      | nil => rw [List.take_of_length_le (by omega)]
      | cons u ss =>
        have second := List.length_pos_iff.mpr (some' u (List.mem_cons_of_mem _ List.mem_cons_self))
        rw [List.flatten_cons,List.length_append] at le
        omega
    · rw [ih (fun s mem => some' s (List.mem_cons_of_mem _ mem)) (by omega)]

theorem cut_append (le : l ≤ ss.flatten.length) : cut l (ss++ss') = cut l ss := by
  induction ss generalizing l with
  | nil =>
    rw [List.flatten_nil,List.length_nil,Nat.le_zero] at le
    rw [le,cut_zero,cut_zero]
  | cons s ss ih =>
    rw [List.flatten_cons,List.length_append] at le
    rw [List.cons_append,cut_cons,cut_cons]
    split_ifs
    · rfl
    · rfl
    · rw [ih (by omega)]

theorem cut_append_of_lt (some' : ∀ s ∈ ss, s ≠ []) (less : ss.flatten.length < l) :
    cut l (ss++ss') = ss++cut (l-ss.flatten.length) ss' := by
  induction ss generalizing l with
  | nil => rfl
  | cons s ss ih =>
    rw [List.flatten_cons,List.length_append] at less
    rw [List.cons_append,cut_cons,if_neg (by omega),if_neg (by omega),ih (fun s mem => some' s (List.mem_cons_of_mem _ mem)) (by omega),
      List.flatten_cons,List.length_append,Nat.sub_sub]
    rfl

theorem cut_cut : cut l (cut n ss) = cut (min l n) ss := by
  induction ss generalizing l n with
  | nil => rfl
  | cons s ss ih =>
    by_cases none : min l n = 0
    · rw [none,cut_zero]
      rcases Nat.min_eq_zero_iff.mp none with rfl | rfl
      · exact cut_zero
      · rw [cut_zero]
        rfl
    · have first : n ≠ 0 := by omega
      have second : l ≠ 0 := by omega
      rw [cut_cons (l := n),if_neg first,cut_cons (l := min l n),if_neg none]
      by_cases inside : n ≤ s.length
      · rw [if_pos inside,if_pos (by omega),cut_cons,if_neg second,List.length_take]
        split_ifs with less
        · rw [List.take_take]
        · rw [show min l n = n by omega]
          rfl
      · rw [if_neg inside,cut_cons,if_neg second]
        by_cases less : l ≤ s.length
        · rw [if_pos less,if_pos (by omega),show min l n = l by omega]
        · rw [if_neg less,if_neg (by omega),ih]
          congr 2
          omega

/-! ### What is listed -/

theorem slices_zero : r.slices scratch 0 = [] := by
  induction r with
  | leaf v => simp [slices]
  | chain a b left right => rw [slices,left,List.length_nil,right,List.append_nil]
  | take t limit ih =>
    rw [slices,Nat.zero_min,ih]
    rfl

theorem length_slices : (r.slices scratch k).length ≤ k := by
  induction r generalizing k with
  | leaf v =>
    rw [slices]
    split_ifs with none
    · exact Nat.zero_le _
    · rw [List.length_singleton]
      omega
  | chain a b left right =>
    rw [slices,List.length_append]
    have one := @left k
    have two := @right (k-(a.slices scratch k).length)
    omega
  | take t limit ih =>
    rw [slices]
    exact length_cut_le.trans (ih.trans (Nat.min_le_left _ _))

theorem slices_some {s : List β} (mem : s ∈ r.slices scratch k) : s ≠ [] := by
  induction r generalizing k s with
  | leaf v =>
    rw [slices] at mem
    split_ifs at mem with none
    · simp at mem
    · rw [List.mem_singleton] at mem
      rw [mem]
      exact fun empty => none (.inr empty)
  | chain a b left right => exact (List.mem_append.mp mem).elim left right
  | take t limit ih => exact mem_cut mem fun _ mem => ih mem

/-- No more is listed than there is. -/
theorem slices_size : (r.slices scratch k).flatten.length ≤ r.content.length := by
  induction r generalizing k with
  | leaf v =>
    rw [slices,content]
    split_ifs <;> simp
  | chain a b left right =>
    rw [slices,content,List.flatten_append,List.length_append,List.length_append]
    exact Nat.add_le_add left right
  | take t limit ih =>
    rw [slices,content,flatten_cut,List.length_take,List.length_take]
    have := @ih (min k scratch)
    omega

theorem slices_of_empty (none : r.content = []) : r.slices scratch k = [] := by
  have empty : (r.slices scratch k).flatten = [] := by
    have size := @slices_size β scratch r k
    rw [none,List.length_nil,Nat.le_zero] at size
    exact List.length_eq_zero_iff.mp size
  rw [List.flatten_eq_nil_iff] at empty
  exact List.eq_nil_iff_forall_not_mem.mpr fun s mem => slices_some mem (empty s mem)

theorem content_sub {x : β} (mem : x ∈ r.content) : x ∈ r.elements := by
  induction r with
  | leaf v => exact mem
  | chain a b left right => exact List.mem_append.mpr ((List.mem_append.mp mem).imp left right)
  | take t limit ih => exact ih (List.mem_of_mem_take mem)

theorem slices_sub {x : β} (mem : x ∈ (r.slices scratch k).flatten) : x ∈ r.elements := by
  induction r generalizing k with
  | leaf v =>
    rw [slices] at mem
    split_ifs at mem
    · simp at mem
    · simpa [elements] using mem
  | chain a b left right =>
    rw [slices,List.flatten_append,List.mem_append] at mem
    exact List.mem_append.mpr (mem.imp left right)
  | take t limit ih =>
    rw [slices,flatten_cut] at mem
    exact ih (List.mem_of_mem_take mem)

/-- Something is listed where there is something to list. -/
theorem slices_ne_nil (pos : 0 < scratch) (room : 0 < k) (some' : r.content ≠ []) : r.slices scratch k ≠ [] := by
  induction r generalizing k with
  | leaf v =>
    have more : v ≠ [] := some'
    rw [slices,if_neg (not_or.mpr ⟨Nat.ne_of_gt room,more⟩)]
    exact List.cons_ne_nil _ _
  | chain a b left right =>
    rw [slices,ne_eq,List.append_eq_nil_iff]
    rintro ⟨none,none'⟩
    rw [none,List.length_nil,Nat.sub_zero] at none'
    have empty : a.content = [] := by
      by_contra more
      exact left room more none
    have empty' : b.content = [] := by
      by_contra more
      exact right room more none'
    exact some' (by rw [content,empty,empty',List.append_nil])
  | take t limit ih =>
    rw [content,ne_eq,List.take_eq_nil_iff,not_or] at some'
    have inner := ih (k := min k scratch) (by omega) some'.2
    obtain ⟨s,ss,listed⟩ := List.exists_cons_of_ne_nil inner
    rw [slices,listed,cut_cons,if_neg some'.1]
    split_ifs <;> exact List.cons_ne_nil _ _

/-- The first entry is the first piece, whatever is left out behind it. -/
theorem head_slices (pos : 0 < scratch) (room : 0 < k) (some' : r.content ≠ []) : (r.slices scratch k).head? = some r.front := by
  induction r generalizing k with
  | leaf v =>
    have more : v ≠ [] := some'
    rw [slices,if_neg (not_or.mpr ⟨Nat.ne_of_gt room,more⟩)]
    rfl
  | chain a b left right =>
    rw [slices,front,List.head?_append]
    by_cases none : a.content = []
    · have rest : b.content ≠ [] := by
        rw [content,none] at some'
        exact some'
      rw [slices_of_empty none,none]
      exact right room rest
    · rw [left room none,if_neg (by simpa using none)]
      rfl
  | take t limit ih =>
    rw [content,ne_eq,List.take_eq_nil_iff,not_or] at some'
    have inner := ih (k := min k scratch) (by omega) some'.2
    obtain ⟨s,ss,listed⟩ := List.exists_cons_of_ne_nil (slices_ne_nil pos (show 0 < min k scratch by omega) some'.2)
    rw [listed,List.head?_cons,Option.some.injEq] at inner
    rw [slices,front,listed,cut_cons,if_neg some'.1,← inner]
    split_ifs with inside
    · rfl
    · rw [List.take_of_length_le (by omega)]
      rfl
theorem front_of_empty (none : r.content = []) : r.front = [] := by
  induction r with
  | leaf v => exact none
  | chain a b left right =>
    rw [content,List.append_eq_nil_iff] at none
    rw [front,none.1]
    exact right none.2
  | take t limit ih =>
    rw [content,List.take_eq_nil_iff] at none
    rw [front,List.take_eq_nil_iff]
    exact none.imp id ih
/-- The first entry that is not empty, or nothing at all, is the first piece. -/
theorem find_slices (pos : 0 < scratch) (room : 0 < k) : ((r.slices scratch k).find? fun s => !s.isEmpty).getD [] = r.front := by
  by_cases none : r.content = []
  · rw [slices_of_empty none,front_of_empty none]
    rfl
  · have first := head_slices pos room none
    obtain ⟨s,ss,listed⟩ := List.exists_cons_of_ne_nil (slices_ne_nil pos room none)
    have mem : s ∈ r.slices scratch k := by
      rw [listed]
      exact List.mem_cons_self
    have some' := slices_some mem
    rw [listed,List.head?_cons,Option.some.injEq] at first
    rw [listed,List.find?_cons_of_pos (by simpa using some'),first]
    rfl

/-! ### What is listed in step -/

@[simp] theorem needs_zero : r.needs 0 = 0 := by
  induction r with
  | leaf v => simp [needs]
  | chain a b left right => rw [needs,left,Nat.zero_sub,right]
  | take t limit ih => rw [needs,Nat.zero_min,ih]

/-- What is known of the entries when the first `l` elements are in step. -/
structure Lists (scratch : Nat) (r : Rope β) (k l : Nat) : Prop where
  first : (r.slices scratch k).flatten.take l <+: r.content
  /-- the entries suffice -/
  all : ¬ r.Stops scratch k l → r.needs l ≤ k →
    r.content.take l <+: (r.slices scratch k).flatten ∧ (cut l (r.slices scratch k)).length = r.needs l
  /-- the entries are used up -/
  full : ¬ r.Stops scratch k l → k < r.needs l →
    (r.slices scratch k).length = k ∧ (r.slices scratch k).flatten.length < min l r.content.length
  /-- the entries are not used up -/
  short : r.Stops scratch k l →
    (r.slices scratch k).length < k ∧ (r.slices scratch k).flatten.length < min l r.content.length

namespace Lists

theorem leaf : Lists scratch (leaf v) k l := by
  by_cases none : k = 0 ∨ v = []
  · have nothing : (Rope.leaf v).slices scratch k = [] := by rw [slices,if_pos none]
    have few : (Rope.leaf v).needs l ≤ k → min l v.length = 0 := by
      rcases none with rfl | rfl
      · intro le
        by_contra more
        rw [needs,if_neg more] at le
        omega
      · exact fun _ => Nat.min_zero l
    refine ⟨?_,fun _ enough => ?_,fun _ more => ?_,False.elim⟩
    · rw [nothing,List.flatten_nil,List.take_nil]
      exact List.nil_prefix
    · have zero := few enough
      have empty : v.take l = [] := by
        rw [← List.length_eq_zero_iff,List.length_take]
        exact zero
      rw [nothing,needs,if_pos zero,content,empty]
      exact ⟨List.nil_prefix,rfl⟩
    · rw [needs] at more
      split_ifs at more with zero
      · omega
      · rw [nothing,content]
        simp only [List.length_nil,List.flatten_nil]
        omega
  · obtain ⟨room,some'⟩ := not_or.mp none
    have one : (Rope.leaf v).slices scratch k = [v] := by rw [slices,if_neg none]
    have more := List.length_pos_iff.mpr some'
    refine ⟨?_,fun _ _ => ?_,fun _ many => ?_,False.elim⟩
    · rw [one,List.flatten_singleton]
      exact List.take_prefix l v
    · rw [one,List.flatten_singleton,cut_cons,needs,content]
      refine ⟨List.take_prefix l v,?_⟩
      split_ifs <;> first | omega | rfl
    · rw [needs] at many
      split_ifs at many <;> omega

theorem take (inner : Lists scratch t (min k scratch) (min l n)) : Lists scratch (take t n) k l := by
  have size := @slices_size β scratch t (min k scratch)
  have some' : ∀ s ∈ t.slices scratch (min k scratch), s ≠ [] := fun s mem => slices_some mem
  have listed : ((Rope.take t n).slices scratch k).flatten = (t.slices scratch (min k scratch)).flatten.take n := by
    rw [slices,flatten_cut]
  have length : (Rope.take t n).content.length = min n t.content.length := by rw [content,List.length_take]
  -- entries that were not cut
  have whole : (t.slices scratch (min k scratch)).flatten.length < min (min l n) t.content.length →
      (Rope.take t n).slices scratch k = t.slices scratch (min k scratch) ∧
      (t.slices scratch (min k scratch)).flatten.length < min l (Rope.take t n).content.length := by
    intro less
    rw [length]
    exact ⟨cut_of_le some' (by omega),by omega⟩
  refine ⟨?_,fun steps enough => ?_,fun steps many => ?_,fun stops => ?_⟩
  · rw [listed,content,List.take_take]
    refine List.prefix_take_iff.mpr ⟨inner.first,?_⟩
    rw [List.length_take]
    omega
  · rw [Stops,not_or] at steps
    rw [needs] at enough
    obtain ⟨first,count⟩ := inner.all steps.1 (by omega)
    rw [listed,content,needs,slices,cut_cut,List.take_take]
    refine ⟨List.prefix_take_iff.mpr ⟨first,?_⟩,count⟩
    rw [List.length_take]
    omega
  · rw [Stops,not_or] at steps
    rw [needs] at many
    obtain ⟨count,less⟩ := inner.full steps.1 (by omega)
    obtain ⟨same,less'⟩ := whole less
    rw [same]
    exact ⟨by omega,less'⟩
  · rcases stops with inside | ⟨more,many⟩
    · obtain ⟨count,less⟩ := inner.short inside
      obtain ⟨same,less'⟩ := whole less
      rw [same]
      exact ⟨by omega,less'⟩
    · by_cases inside : t.Stops scratch (min k scratch) (min l n)
      · obtain ⟨count,less⟩ := inner.short inside
        obtain ⟨same,less'⟩ := whole less
        rw [same]
        exact ⟨by omega,less'⟩
      · obtain ⟨count,less⟩ := inner.full inside (by omega)
        obtain ⟨same,less'⟩ := whole less
        rw [same]
        exact ⟨by omega,less'⟩

/-- A rope that ends among these elements is listed as a whole. -/
theorem whole (lists : Lists scratch r k l) (steps : ¬ r.Stops scratch k l) (enough : r.needs l ≤ k) (ends : r.content.length < l) :
    (r.slices scratch k).flatten = r.content ∧ (r.slices scratch k).length = r.needs l := by
  obtain ⟨first,count⟩ := lists.all steps enough
  rw [List.take_of_length_le ends.le] at first
  have same : (r.slices scratch k).flatten = r.content := (first.eq_of_length_le slices_size).symm
  have uncut : cut l (r.slices scratch k) = r.slices scratch k :=
    cut_of_le (fun s mem => slices_some mem) (by rw [same]; exact ends.le)
  rw [uncut] at count
  exact ⟨same,count⟩

/-- The second half follows the first where all of that is listed. -/
theorem chain (left : Lists scratch a k l) (right : Lists scratch b (k-a.needs l) (l-a.content.length))
    (ends : a.Stops scratch k l → b.content = []) : Lists scratch (chain a b) k l := by
  have some' : ∀ s ∈ a.slices scratch k, s ≠ [] := fun s mem => slices_some mem
  have size := @slices_size β scratch a k
  have listed : (Rope.chain a b).slices scratch k = a.slices scratch k++b.slices scratch (k-(a.slices scratch k).length) := rfl
  have length : (Rope.chain a b).content.length = a.content.length+b.content.length := List.length_append
  by_cases stops : a.Stops scratch k l
  · -- nothing follows
    have empty := ends stops
    have same : (Rope.chain a b).slices scratch k = a.slices scratch k := by
      rw [listed,slices_of_empty empty,List.append_nil]
    have same' : (Rope.chain a b).content = a.content := by rw [content,empty,List.append_nil]
    refine ⟨by rw [same,same']; exact left.first,fun steps => absurd (.inl stops) steps,fun steps => absurd (.inl stops) steps,fun _ => ?_⟩
    rw [same,same']
    exact left.short stops
  · by_cases full : k < a.needs l
    · -- no entries are left
      obtain ⟨count,less⟩ := left.full stops full
      have same : (Rope.chain a b).slices scratch k = a.slices scratch k := by
        rw [listed,count,Nat.sub_self,slices_zero,List.append_nil]
      refine ⟨?_,fun _ enough => ?_,fun _ _ => ?_,fun stopped => ?_⟩
      · rw [same]
        exact left.first.trans (List.prefix_append _ _)
      · rw [needs] at enough
        omega
      · rw [same,length]
        exact ⟨count,by omega⟩
      · have bad := (right.short (stopped.resolve_left stops)).1
        omega
    · obtain ⟨first,count⟩ := left.all stops (by omega)
      by_cases inside : l ≤ a.content.length
      · -- the first half has them all
        have covers : l ≤ (a.slices scratch k).flatten.length := by
          have := first.length_le
          rw [List.length_take] at this
          omega
        have none : l-a.content.length = 0 := Nat.sub_eq_zero_of_le inside
        rw [none] at right
        refine ⟨?_,fun _ _ => ?_,fun _ many => ?_,fun stopped => ?_⟩
        · rw [listed,List.flatten_append,List.take_append_of_le_length covers]
          exact left.first.trans (List.prefix_append _ _)
        · rw [listed,List.flatten_append,cut_append covers,content,List.take_append_of_le_length inside,needs,none,needs_zero]
          exact ⟨first.trans (List.prefix_append _ _),count⟩
        · rw [needs,none,needs_zero] at many
          omega
        · have stopped := stopped.resolve_left stops
          rw [none] at stopped
          have bad := (right.short stopped).2
          omega
      · -- the second half follows right behind the first
        obtain ⟨whole,room⟩ := left.whole stops (by omega) (by omega)
        rw [room] at listed
        refine ⟨?_,fun steps enough => ?_,fun steps many => ?_,fun stopped => ?_⟩
        · rw [listed,List.flatten_append,whole,List.take_append,List.take_of_length_le (l := a.content) (by omega)]
          exact (List.prefix_append_right_inj _).mpr right.first
        · rw [needs] at enough
          obtain ⟨first',count'⟩ := right.all (fun bad => steps (.inr bad)) (by omega)
          rw [listed,List.flatten_append,whole,cut_append_of_lt some' (by rw [whole]; omega),whole,List.length_append,room,count',
            content,List.take_append,List.take_of_length_le (l := a.content) (by omega)]
          exact ⟨(List.prefix_append_right_inj _).mpr first',rfl⟩
        · rw [needs] at many
          obtain ⟨count',less⟩ := right.full (fun bad => steps (.inr bad)) (by omega)
          rw [listed,List.length_append,List.flatten_append,List.length_append,whole,room,count',length]
          omega
        · obtain ⟨count',less⟩ := right.short (stopped.resolve_left stops)
          rw [listed,List.length_append,List.flatten_append,List.length_append,whole,room,length]
          omega

end Lists

/-- What is in step is listed from the front. -/
theorem InStep.lists (step : r.InStep scratch k l) : Lists scratch r k l := by
  induction r generalizing k l with
  | leaf v => exact .leaf
  | chain a b left right => exact .chain (left step.1) (right step.2.2) step.2.1
  | take t limit ih => exact .take (ih step)

theorem InStep.prefix_content (step : r.InStep scratch k r.content.length) : (r.slices scratch k).flatten <+: r.content := by
  have first := step.lists.first
  rwa [List.take_of_length_le slices_size] at first

/-- Where the elements can be told apart, only what is in step is listed from the front. -/
theorem in_step_of_prefix (pos : 0 < scratch) (distinct : r.Distinct) (first : (r.slices scratch k).flatten.take l <+: r.content) :
    r.InStep scratch k l := by
  induction r generalizing k l with
  | leaf v => trivial
  | take t limit ih =>
    rw [slices,flatten_cut,List.take_take] at first
    exact ih distinct (first.trans (List.take_prefix limit _))
  | chain a b left right =>
    obtain ⟨one,two,apart⟩ := distinct
    have size := @slices_size β scratch a k
    rw [slices,List.flatten_append,content] at first
    -- what is listed of the first half
    have front : (a.slices scratch k).flatten.take l <+: a.content := by
      have both : (a.slices scratch k).flatten.take l <+: a.content++b.content :=
        ((List.prefix_append _ _).take l).trans first
      refine List.prefix_of_prefix_length_le both (List.prefix_append _ _) ?_
      rw [List.length_take]
      omega
    have step := left one front
    have lists := step.lists
    have ends : a.Stops scratch k l → b.content = [] := by
      intro stops
      obtain ⟨count,less⟩ := lists.short stops
      by_contra some'
      have behind : b.slices scratch (k-(a.slices scratch k).length) ≠ [] := slices_ne_nil pos (by omega) some'
      obtain ⟨s,ss,listed⟩ := List.exists_cons_of_ne_nil behind
      obtain ⟨x,s',more⟩ := List.exists_cons_of_ne_nil (slices_some (listed ▸ List.mem_cons_self : s ∈ b.slices scratch _))
      rw [more] at listed
      have within : x ∈ (b.slices scratch (k-(a.slices scratch k).length)).flatten := by
        rw [listed]
        simp
      have mem : x ∈ b.elements := slices_sub within
      -- the element behind the first half stands where an element of that half belongs
      have there : (a.content++b.content)[(a.slices scratch k).flatten.length]? = some x := by
        obtain ⟨rest,whole⟩ := first
        rw [← whole,listed,List.getElem?_append_left,List.getElem?_take_of_lt (by omega),List.getElem?_append_right (Nat.le_refl _),
          Nat.sub_self]
        · rfl
        · simp only [List.length_take,List.length_append,List.flatten_cons,List.length_cons]
          omega
      rw [List.getElem?_append_left (by omega)] at there
      exact apart x (content_sub (List.mem_of_getElem? there)) mem
    refine ⟨step,ends,right two ?_⟩
    by_cases stops : a.Stops scratch k l
    · rw [slices_of_empty (ends stops),List.flatten_nil,List.take_nil]
      exact List.nil_prefix
    · by_cases full : k < a.needs l
      · rw [Nat.sub_eq_zero_of_le full.le,slices_zero,List.flatten_nil,List.take_nil]
        exact List.nil_prefix
      · by_cases inside : l ≤ a.content.length
        · rw [Nat.sub_eq_zero_of_le inside,List.take_zero]
          exact List.nil_prefix
        · obtain ⟨whole,room⟩ := lists.whole stops (by omega) (by omega)
          rw [room,whole,List.take_append,List.take_of_length_le (l := a.content) (by omega)] at first
          exact (List.prefix_append_right_inj _).mp first

end Rope
end Tcio
