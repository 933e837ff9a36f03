import Tcio.CopyBytesSpec
import Tcio.Puts

/-!
Sequences of calls that draw bytes from a tree of cursors. Each call gives the next bytes
and leaves the rest, in the version of each type as in the default of the trait; whatever
is taken apart afterwards has lost exactly the bytes that were drawn.
-/
namespace Tcio
open Exec

/-- A call that takes bytes from the front. -/
inductive Draw where
  | advance (n : Nat)
  | copy_to_slice (dst : List UInt8)
  | copy_to_bytes (n : Nat)

/-- What it gives back. -/
inductive Drawn where
  | nothing
  | slice (filled : List UInt8)
  | bytes (b : Bytes)

namespace Drawn
def handles : Drawn → List Handle
  | nothing => []
  | slice _ => []
  | bytes b => [.bytes b]
def Holds (H : Heap) (w : List UInt8) : Drawn → Prop
  | nothing => True
  | slice filled => filled = w
  | bytes b => (Handle.bytes b).view H = some w
end Drawn

namespace Draw
def count : Draw → Nat
  | advance n => n
  | copy_to_slice dst => dst.length
  | copy_to_bytes n => n
def total (ds : List Draw) : Nat := (ds.map count).sum
/-- More is asked for than is left, or a `Bytes` of more than an object may have. -/
def Exceeds (rem : Nat) : Draw → Prop
  | advance n => rem < n
  | copy_to_slice dst => rem < dst.length
  | copy_to_bytes n => rem < n ∨ isizeMax < n
/-- Behind the first `j` bytes, a chain that has to join its parts for the call has more left than
    a word counts. -/
def Wraps (H : Heap) (buf : Buf) (j : Nat) : Draw → Prop
  | copy_to_bytes n => buf.Wraps H j n
  | _ => False
/-- For none of the calls, from the first `j` bytes on. -/
def Counts (H : Heap) (buf : Buf) : Nat → List Draw → Prop
  | _,[] => True
  | j,d :: ds => ¬ d.Wraps H buf j ∧ Counts H buf (j+d.count) ds
/-- One of the calls asks for too much. -/
def AnyExceeds : Nat → List Draw → Prop
  | _,[] => False
  | rem,d :: ds => d.Exceeds rem ∨ AnyExceeds (rem-d.count) ds
/-- The calls give what they ask for one behind the other. -/
def InOrder (H : Heap) : List Draw → List Drawn → List UInt8 → Prop
  | [],[],_ => True
  | d :: ds,o :: os,w => o.Holds H (w.take d.count) ∧ InOrder H ds os (w.drop d.count)
  | _,_,_ => False
end Draw

namespace Buf
open Draw

/-- The call, in the version of each type. -/
def draw (A : Allocator) (self : Buf) : Draw → Exec Heap (Drawn × Buf)
  | .advance n => return (.nothing,← self.advance n)
  | .copy_to_slice dst => do
    let (filled,self) ← self.copy_to_slice dst
    return (.slice filled,self)
  | .copy_to_bytes n => do
    let (ret,self) ← self.copy_to_bytes A n
    return (.bytes ret,self)
/-- The call, in the version of the trait. -/
def draw_default (A : Allocator) (self : Buf) : Draw → Exec Heap (Drawn × Buf)
  | .advance n => return (.nothing,← self.advance n)
  | .copy_to_slice dst => do
    let (filled,self) ← self.copy_to_slice_default dst
    return (.slice filled,self)
  | .copy_to_bytes n => do
    let (ret,self) ← self.copy_to_bytes_default A n
    return (.bytes ret,self)
def draw_all (call : Buf → Draw → Exec Heap (Drawn × Buf)) : List Draw → Buf → Exec Heap (List Drawn × Buf)
  | [],self => return ([],self)
  | d :: ds,self => do
    let (out,self) ← call self d
    let (outs,self) ← draw_all call ds self
    return (out :: outs,self)

/-- `Take::into_inner` -/
def take_into_inner : Buf → Option Buf
  | take t _ => some t
  | _ => none
/-- `Chain::into_inner` -/
def chain_into_inner : Buf → Option (Buf × Buf)
  | chain a b => some (a,b)
  | _ => none

variable {A : Allocator} {H H₁ H' : Heap} {R : List Handle} {n : Nat} {buf buf' : Buf} {d : Draw} {ds : List Draw}
variable {call : Buf → Draw → Exec Heap (Drawn × Buf)} {joins : Prop} {j : Nat}

/-- What was drawn from a `Take` or a `Chain` is gone from what is in it, and nothing else. -/
def Inside (H H' : Heap) (n : Nat) : Buf → Buf → Prop
  | take t _,buf' => ∃ t', buf'.take_into_inner = some t' ∧ Consumed H H' n t t' ∧ t'.content H' = (t.content H).drop n
  | chain a b,buf' => ∃ a' b', buf'.chain_into_inner = some (a',b') ∧
    Consumed H H' (min n (a.content H).length) a a' ∧ a'.content H' = (a.content H).drop n ∧
    Consumed H H' (n-(a.content H).length) b b' ∧ b'.content H' = (b.content H).drop (n-(a.content H).length)
  | _,_ => True

theorem Consumed.inside (consumed : Consumed H H' n buf buf') : Inside H H' n buf buf' := by
  cases consumed with
  | slice _ => trivial
  | bytes _ _ _ => trivial
  | bytesMut _ _ _ => trivial
  | @chain a a' b b' i k left right order =>
    have first := left.content.1
    have front : min (i+k) (a.content H).length = i := by omega
    have back : i+k-(a.content H).length = k := by omega
    rw [Inside,front,back]
    refine ⟨a',b',rfl,left,?_,right,right.content.2⟩
    rw [left.content.2]
    rcases order with rfl | all
    · rfl
    · rw [List.drop_eq_nil_of_le (by omega),List.drop_eq_nil_of_le (by omega)]
  | take _ inner => exact ⟨_,rfl,inner,inner.content.2⟩
  | refMut _ => trivial
  | boxed _ => trivial

theorem Consumed.counts (consumed : Consumed H H' n buf buf') : Counts H' buf' j ds ↔ Counts H buf (n+j) ds := by
  induction ds generalizing j with
  | nil => exact Iff.rfl
  | cons d ds ih =>
    rw [Counts,Counts,ih,Nat.add_assoc]
    refine and_congr_left' (not_congr ?_)
    cases d with
    | copy_to_bytes k => exact consumed.wraps
    | _ => exact Iff.rfl

/-! ### A call -/

/-- The first `n` bytes were given and consumed. -/
structure Drew (A : Allocator) (H : Heap) (R : List Handle) (n : Nat) (buf : Buf) (out : Drawn) (H' : Heap) (buf' : Buf) : Prop where
  sound : Tcio.Sound H' [] (out.handles++(buf'.handles++R))
  given : out.Holds H' ((buf.content H).take n)
  consumed : Consumed H H' n buf buf'
  frame : ∀ r ∈ R, r.view H' = r.view H
  later : H.Later A H'

/-- A call gives what it promises: it panics exactly where too much is asked for, and, in a version
    that `joins` the halves of a chain, where their lengths wrap. -/
def DrawsWell (A : Allocator) (call : Buf → Draw → Exec Heap (Drawn × Buf)) (joins : Prop) (H : Heap) (R : List Handle) (buf : Buf)
    (d : Draw) : Prop :=
  Sat (call buf d) H
    (fun r H' => (¬ d.Exceeds (buf.content H).length ∧ (joins → ¬ d.Wraps H buf 0)) ∧ Drew A H R d.count buf r.1 H' r.2)
    (fun k _ => k = .panic ∧ (d.Exceeds (buf.content H).length ∨ joins ∧ d.Wraps H buf 0) ∨
      k = .abort ∧ ¬ d.Exceeds (buf.content H).length ∧ Crowded H)

theorem Drew.of_moves (moves : Moves A H R n buf H' buf') : Drew A H R n buf .nothing H' buf' :=
  ⟨moves.sound,trivial,moves.consumed,moves.frame,moves.later⟩
theorem Drew.of_filled {filled : List UInt8} (moves : Moves A H R n buf H' buf') (same : filled = (buf.content H).take n) :
    Drew A H R n buf (.slice filled) H' buf' :=
  ⟨moves.sound,same,moves.consumed,moves.frame,moves.later⟩
theorem Drew.of_appended {b : Bytes} (appended : Appended A H R [] buf n H' (.bytes b) buf') : Drew A H R n buf (.bytes b) H' buf' :=
  ⟨appended.sound,appended.view,appended.consumed,appended.frame,appended.later⟩
/-- A `Bytes` is no longer than an object may be. -/
theorem Appended.small {b : Bytes} (appended : Appended A H R [] buf n H' (.bytes b) buf') (inside : n ≤ (buf.content H).length) : n ≤ isizeMax := by
  have length := length_of_view appended.view
  rw [List.nil_append,List.length_take,Nat.min_eq_left inside] at length
  rw [length]
  exact Bytes.len_small appended.sound

/-- Both versions advance alike. -/
theorem draw_advance (sound : buf.Sound H R) (word : n ≤ usizeMax)
    (same : call buf (.advance n) = do return (.nothing,← buf.advance n)) : DrawsWell A call joins H R buf (.advance n) := by
  rw [DrawsWell,same]
  simp only [sat_bind,sat_pure]
  refine (advance_spec A sound word).mono ?_ (fun _ _ stops => .inl ⟨stops.1,.inl stops.2.2⟩)
  rintro buf' _ ⟨rfl,moves⟩
  exact ⟨⟨Nat.not_lt_of_le moves.consumed.content.1,fun _ => id⟩,.of_moves moves⟩

theorem draw_spec (sound : buf.Sound H R) (word : d.count ≤ usizeMax) : DrawsWell A (Buf.draw A) True H R buf d := by
  cases d with
  | advance n => exact draw_advance sound word rfl
  | copy_to_slice dst =>
    simp only [DrawsWell,Buf.draw,sat_bind,sat_pure]
    refine (copy_to_slice_spec A sound word).mono ?_ (fun _ _ stops => .inl ⟨stops.1,.inl stops.2.2⟩)
    rintro r _ ⟨rfl,inside,same,moves⟩
    exact ⟨⟨Nat.not_lt_of_le inside,fun _ => id⟩,.of_filled moves same⟩
  | copy_to_bytes n =>
    simp only [DrawsWell,Buf.draw,sat_bind,sat_pure]
    refine (copy_to_bytes_spec sound word).mono ?_ ?_
    · rintro r H' ⟨inside,counts,appended⟩
      have small := appended.small inside
      exact ⟨⟨not_or.mpr ⟨Nat.not_lt_of_le inside,Nat.not_lt_of_le small⟩,fun _ => counts⟩,.of_appended appended⟩
    · rintro k _ (⟨inside,⟨rfl,small,crowded⟩ | ⟨rfl,large⟩⟩ | ⟨rfl,_,short | wraps⟩)
      · exact .inr ⟨rfl,not_or.mpr ⟨Nat.not_lt_of_le inside,Nat.not_lt_of_le small⟩,crowded⟩
      · exact .inl ⟨rfl,.inl (.inr large)⟩
      · exact .inl ⟨rfl,.inl (.inl short)⟩
      · exact .inl ⟨rfl,.inr ⟨trivial,wraps⟩⟩

theorem draw_default_spec (sound : buf.Sound H R) (word : d.count ≤ usizeMax) : DrawsWell A (draw_default A) False H R buf d := by
  cases d with
  | advance n => exact draw_advance sound word rfl
  | copy_to_slice dst =>
    simp only [DrawsWell,draw_default,sat_bind,sat_pure]
    refine (copy_to_slice_default_spec A sound word).mono ?_ (fun _ _ stops => .inl ⟨stops.1,.inl stops.2.2⟩)
    rintro r _ ⟨rfl,inside,same,moves⟩
    exact ⟨⟨Nat.not_lt_of_le inside,False.elim⟩,.of_filled moves same⟩
  | copy_to_bytes n =>
    simp only [DrawsWell,draw_default,sat_bind,sat_pure]
    refine (copy_to_bytes_default_spec sound word).mono ?_ ?_
    · rintro r H' ⟨inside,appended⟩
      have small := appended.small inside
      exact ⟨⟨not_or.mpr ⟨Nat.not_lt_of_le inside,Nat.not_lt_of_le small⟩,False.elim⟩,.of_appended appended⟩
    · rintro k _ ⟨rfl,large | short⟩
      · exact .inl ⟨rfl,.inl (.inr large)⟩
      · exact .inl ⟨rfl,.inl (.inl short)⟩

/-! ### Sequences -/

/-- The calls gave the bytes in order, and all of them are consumed. -/
structure DrewAll (A : Allocator) (H : Heap) (R : List Handle) (ds : List Draw) (buf : Buf) (outs : List Drawn) (H' : Heap) (buf' : Buf) :
    Prop where
  sound : Tcio.Sound H' [] (outs.flatMap Drawn.handles++(buf'.handles++R))
  given : InOrder H' ds outs (buf.content H)
  consumed : Consumed H H' (total ds) buf buf'
  inside : Inside H H' (total ds) buf buf'
  frame : ∀ r ∈ R, r.view H' = r.view H
  later : H.Later A H'

theorem holds_frame {out : Drawn} {w : List UInt8} (holds : out.Holds H w) (kept : ∀ h ∈ out.handles, h.view H' = h.view H) : out.Holds H' w := by
  cases out with
  | nothing => trivial
  | slice filled => exact holds
  | bytes b => exact (kept _ (List.mem_singleton_self _)).trans holds

theorem DrewAll.cons {out : Drawn} {outs : List Drawn} {buf₁ : Buf} (first : Drew A H R d.count buf out H₁ buf₁)
    (rest : DrewAll A H₁ (out.handles++R) ds buf₁ outs H' buf') : DrewAll A H R (d :: ds) buf (out :: outs) H' buf' := by
  have consumed : Consumed H H' (total (d :: ds)) buf buf' := first.consumed.trans rest.consumed
  refine ⟨rest.sound.perm ?_,⟨?_,?_⟩,consumed,consumed.inside,fun r mem => ?_,first.later.trans rest.later⟩
  · rw [List.flatMap_cons,List.append_assoc]
    refine List.Perm.trans (List.Perm.append_left _ (List.perm_append_comm_assoc _ _ _)) (List.perm_append_comm_assoc _ _ _)
  · exact holds_frame first.given fun h mem => rest.frame h (List.mem_append_left _ mem)
  · rw [← first.consumed.content.2]
    exact rest.given
  · exact (rest.frame r (List.mem_append_right _ mem)).trans (first.frame r mem)

/-- There were too many handles when some of the calls had given their bytes. -/
def CrowdedAt (A : Allocator) (H : Heap) (R : List Handle) (ds : List Draw) (buf : Buf) : Prop :=
  ∃ before after outs H₁ buf₁, before++after = ds ∧ DrewAll A H R before buf outs H₁ buf₁ ∧ Crowded H₁

theorem DrewAll.nil (sound : buf.Sound H R) : DrewAll A H R [] buf [] H buf := by
  have idle : Consumed H H 0 buf buf := .idle sound fun _ _ => rfl
  exact ⟨sound,trivial,idle,idle.inside,fun _ _ => rfl,.refl A H⟩

/-- A sequence of calls gives what it promises. -/
def DrawsAllWell (A : Allocator) (call : Buf → Draw → Exec Heap (Drawn × Buf)) (joins : Prop) (H : Heap) (R : List Handle) (buf : Buf)
    (ds : List Draw) : Prop :=
  Sat (draw_all call ds buf) H
    (fun r H' => (¬ AnyExceeds (buf.content H).length ds ∧ (joins → Counts H buf 0 ds)) ∧ DrewAll A H R ds buf r.1 H' r.2)
    (fun k _ => k = .panic ∧ (AnyExceeds (buf.content H).length ds ∨ joins ∧ ¬ Counts H buf 0 ds) ∨ k = .abort ∧ CrowdedAt A H R ds buf)

/-- Calls that do well one by one do well in any sequence. -/
theorem draw_all_spec (well : ∀ H R buf d, buf.Sound H R → d.count ≤ usizeMax → DrawsWell A call joins H R buf d)
    (sound : buf.Sound H R) (word : ∀ d ∈ ds, d.count ≤ usizeMax) : DrawsAllWell A call joins H R buf ds := by
  induction ds generalizing H R buf with
  | nil => exact ⟨⟨id,fun _ => trivial⟩,.nil sound⟩
  | cons d ds ih =>
    simp only [DrawsAllWell,draw_all,sat_bind,sat_pure]
    refine (well H R buf d sound (word d List.mem_cons_self)).mono ?_ ?_
    · rintro ⟨out,buf₁⟩ H₁ ⟨⟨fits,counts⟩,first⟩
      have length : (buf₁.content H₁).length = (buf.content H).length-d.count := by
        rw [first.consumed.content.2,List.length_drop]
      have later : Counts H₁ buf₁ 0 ds ↔ Counts H buf (0+d.count) ds := by rw [first.consumed.counts,Nat.add_comm]
      have sound₁ : buf₁.Sound H₁ (out.handles++R) := first.sound.perm (List.perm_append_comm_assoc _ _ _)
      refine (ih sound₁ fun d mem => word d (List.mem_cons_of_mem _ mem)).mono ?_ ?_
      · rintro ⟨outs,buf'⟩ H' ⟨⟨rest,more⟩,all⟩
        rw [length] at rest
        exact ⟨⟨not_or.mpr ⟨fits,rest⟩,fun join => ⟨counts join,later.mp (more join)⟩⟩,all.cons first⟩
      · rintro k _ (⟨rfl,some' | ⟨join,wraps⟩⟩ | ⟨rfl,before,after,outs,H₂,buf₂,rfl,all,crowded⟩)
        · rw [length] at some'
          exact .inl ⟨rfl,.inl (.inr some')⟩
        · exact .inl ⟨rfl,.inr ⟨join,fun all => wraps (later.mpr all.2)⟩⟩
        · exact .inr ⟨rfl,d :: before,after,out :: outs,H₂,buf₂,rfl,all.cons first,crowded⟩
    · rintro k _ (⟨rfl,large | ⟨join,wraps⟩⟩ | ⟨rfl,_,crowded⟩)
      · exact .inl ⟨rfl,.inl (.inl large)⟩
      · exact .inl ⟨rfl,.inr ⟨join,fun all => all.1 wraps⟩⟩
      · exact .inr ⟨rfl,[],d :: ds,[],H,buf,rfl,.nil sound,crowded⟩

/-- What a cursor promises of the bytes it stands for, in the version of each type and in that of
    the trait. -/
structure Behaves (A : Allocator) (H : Heap) (R : List Handle) (buf : Buf) : Prop where
  remaining : (buf.content H).length ≤ usizeMax → buf.remaining = (buf.content H).length
  chunk : ∃ c, buf.chunk H = (.ok c,H) ∧ c <+: buf.content H ∧ (c = [] ↔ buf.remaining = 0)
  draws : ∀ d, d.count ≤ usizeMax → DrawsWell A (Buf.draw A) True H R buf d ∧ DrawsWell A (draw_default A) False H R buf d
  draws_all : ∀ ds, (∀ d ∈ ds, d.count ≤ usizeMax) →
    DrawsAllWell A (Buf.draw A) True H R buf ds ∧ DrawsAllWell A (draw_default A) False H R buf ds

/-- Every tree of cursors behaves. -/
theorem behaves (sound : buf.Sound H R) : buf.Behaves A H R where
  remaining := remaining_of_le sound
  chunk := by
    obtain ⟨c,ran,_,first,more⟩ := chunk_ok sound
    have some' := has_remaining_iff sound
    refine ⟨c,ran,first,fun none => ?_,fun none => ?_⟩
    · by_contra rest
      refine more (some'.mp ?_) none
      rw [has_remaining,decide_eq_true_iff]
      omega
    · have empty : buf.content H = [] := by
        by_contra rest
        have := some'.mpr rest
        rw [has_remaining,decide_eq_true_iff] at this
        omega
      rw [empty] at first
      exact List.prefix_nil.mp first
  draws _ word := ⟨draw_spec sound word,draw_default_spec sound word⟩
  draws_all _ word := ⟨draw_all_spec (fun _ _ _ _ => draw_spec) sound word,draw_all_spec (fun _ _ _ _ => draw_default_spec) sound word⟩

theorem behaves_joined : ∃ w, World.JoinableRun (bump 0) (World.start []) w ∧ joined.Behaves (bump 0) w.heap [] := by
  obtain ⟨w,run,_,sound,_⟩ := joined_sound
  exact ⟨w,run,behaves sound⟩

/-- More bytes than an object may have cannot be copied into one, nor can a part of a chain that is
    longer than a word counts. -/
theorem copy_overflows :
    (¬ ∀ (A : Allocator) (H : Heap) (R : List Handle) (buf : Buf) (n : Nat), buf.Sound H R → (buf.content H).length ≤ usizeMax →
      ¬ Crowded H → n ≤ buf.remaining → ¬ buf.Wraps H 0 n → Sat (buf.copy_to_bytes A n) H
        (fun r H' => (Handle.bytes r.1).view H' = some ((buf.content H).take n)) (fun _ _ => False)) ∧
    ¬ ∀ (A : Allocator) (H : Heap) (R : List Handle) (buf : Buf) (n : Nat), buf.Sound H R → (buf.content H).length ≤ usizeMax →
      ¬ Crowded H → n ≤ buf.remaining → n ≤ isizeMax → Sat (buf.copy_to_bytes A n) H
        (fun r H' => (Handle.bytes r.1).view H' = some ((buf.content H).take n)) (fun _ _ => False) := by
  have initial := World.start_initial []
  have none : ¬ Crowded (World.start []).heap := by
    rintro ⟨k,boxed,live,_⟩
    cases (initial.nodes k).symm.trans live
  constructor
  · intro claim
    obtain ⟨s,length⟩ := Slice.of_len (Nat.le_refl isizeMax)
    have sound : (chain (slice s) (slice s)).Sound (World.start []).heap [] := initial.sound
    have both : ((chain (slice s) (slice s)).content (World.start []).heap).length = isizeMax+isizeMax := by
      rw [content,List.length_append]
      exact congrArg₂ (·+·) length length
    have fits : ((chain (slice s) (slice s)).content (World.start []).heap).length ≤ usizeMax := by
      rw [both]
      decide
    have enough : isizeMax+1 ≤ (chain (slice s) (slice s)).remaining := by
      rw [remaining_of_le sound fits,both]
      decide
    have counts : ¬ (chain (slice s) (slice s)).Wraps (World.start []).heap 0 (isizeMax+1) := by
      have length : ((slice s).content (World.start []).heap).length = isizeMax := length
      rw [Wraps,length,if_neg (by decide),if_neg (by decide)]
      decide
    have returns := claim (bump 0) _ [] _ (isizeMax+1) sound fits none enough counts
    obtain ⟨r,H',_,_,inside,_,appended⟩ | ⟨_,_,_,no,_⟩ := (returns.and (copy_to_bytes_spec sound (by decide))).cases
    · exact absurd (appended.small inside) (Nat.not_succ_le_self _)
    · exact no
  · intro claim
    obtain ⟨buf,own,rem,wraps⟩ := wraps_two
    have sound : buf.Sound (World.start []).heap [] := by
      rw [Sound,own]
      exact initial.sound
    have saturated := remaining_eq sound
    have top : 2 < usizeMax := by decide
    have returns := claim (bump 0) _ [] _ 2 sound (by omega) none (Nat.le_of_eq rem.symm) (by decide)
    obtain ⟨_,_,_,_,_,counts,_⟩ | ⟨_,_,_,no,_⟩ := (returns.and (copy_to_bytes_spec sound (by decide))).cases
    · exact counts (wraps _)
    · exact no

end Buf
end Tcio
