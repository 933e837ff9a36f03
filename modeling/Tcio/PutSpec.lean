import Tcio.Space
import Tcio.Put
import Tcio.BufMutSpec
import Tcio.Absorb

/-!
What is written into a tree of buffers. The tree is space that is written from the front;
`put`, `put_slice` and `put_u8` write into it alike, whatever pieces the bytes come in and
whatever pieces the space is made of.
-/
namespace Tcio
open Exec

variable {A : Allocator} {H H₁ H' : Heap} {R : List Handle} {h : Handle} {v w u : List UInt8} {n k j : Nat}

theorem MutSlice.skip_zero {β : Type} {s : MutSlice β} : s.skip 0 = s := by
  cases s
  simp [MutSlice.skip]

namespace BufMut
variable {dst dst' dst'' dst₁ a a' b b' : BufMut}

/-- The handles that the buffer is made of. -/
def handles : BufMut → List Handle
  | slice _ => []
  | uninit _ => []
  | uninitSlice _ => []
  | vec v => [.vec v]
  | bytesMut m => [.bytesMut m]
  | chain a b => a.handles++b.handles
/-- What is written so far, and how much room is left. -/
def space (H : Heap) : BufMut → Space UInt8
  | slice s => .fixed (s.behind.map some) (s.rest.map some)
  | uninit s => .fixed s.behind s.rest
  | uninitSlice s => .fixed s.behind s.rest
  | vec v => .grows isizeMax (((Handle.vec v).view H).getD [])
  | bytesMut m => .grows isizeMax (((Handle.bytesMut m).view H).getD [])
  | chain a b => .chain (a.space H) (b.space H)
/-- The handles of the buffer are sound beside others. -/
def Sound (dst : BufMut) (H : Heap) (R : List Handle) : Prop := Tcio.Sound H [] (dst.handles++R)

theorem Sound.left (sound : (chain a b).Sound H R) : a.Sound H (b.handles++R) := by
  rw [Sound,← List.append_assoc]
  exact sound
theorem Sound.right (sound : (chain a b).Sound H R) : b.Sound H (a.handles++R) :=
  Tcio.Sound.perm sound.left (List.perm_append_comm_assoc _ _ _)

theorem Grows.handles (grows : Grows dst h) : dst.handles = [h] := by cases grows <;> rfl
theorem Grows.space (grows : Grows dst h) (view : h.view H = some v) : dst.space H = .grows isizeMax v := by
  cases grows <;> rw [BufMut.space,view,Option.getD_some]
theorem Grows.remaining (grows : Grows dst h) : dst.remaining_mut = isizeMax-h.len := by cases grows <;> rfl

/-- Where the handles keep their views, nothing is written. -/
theorem space_frame (kept : ∀ h ∈ dst.handles, h.view H' = h.view H) : dst.space H' = dst.space H := by
  induction dst with
  | slice s => rfl
  | uninit s => rfl
  | uninitSlice s => rfl
  | vec x => rw [space,space,kept _ (List.mem_singleton_self _)]
  | bytesMut m => rw [space,space,kept _ (List.mem_singleton_self _)]
  | chain a b left right =>
    rw [space,space,left fun h mem => kept h (List.mem_append_left _ mem),right fun h mem => kept h (List.mem_append_right _ mem)]

theorem remaining_grows (grows : Grows dst h) (sound : dst.Sound H R) : dst.remaining_mut = (dst.space H).room := by
  rw [Sound,grows.handles] at sound
  obtain ⟨v,view⟩ := Option.ne_none_iff_exists'.mp (sound.placed h List.mem_cons_self).viewed
  rw [grows.remaining,grows.space view,Space.room,length_of_view view]

theorem remaining_mut_eq (sound : dst.Sound H R) : dst.remaining_mut = min (dst.space H).room usizeMax := by
  have word : isizeMax ≤ usizeMax := by decide
  induction dst generalizing R with
  | slice s =>
    have small := s.small
    rw [remaining_mut,space,Space.room,List.length_map,MutSlice.len]
    omega
  | uninit s =>
    have small := s.small
    rw [remaining_mut,space,Space.room,MutSlice.len]
    omega
  | uninitSlice s =>
    have small := s.small
    rw [remaining_mut,space,Space.room,MutSlice.len]
    omega
  | vec x =>
    have same := remaining_grows (.vec x) sound
    rw [← same,remaining_mut]
    omega
  | bytesMut m =>
    have same := remaining_grows (.bytesMut m) sound
    rw [← same,remaining_mut]
    omega
  | chain a b left right =>
    rw [remaining_mut,left sound.left,right sound.right,space,Space.room]
    omega

/-- There is room for what remains, and for something where something remains. -/
theorem fits_room (sound : dst.Sound H R) (fits : n ≤ dst.remaining_mut) : n ≤ (dst.space H).room := by
  rw [remaining_mut_eq sound] at fits
  exact fits.trans (Nat.min_le_left _ _)
theorem remaining_pos (sound : dst.Sound H R) : dst.has_remaining_mut = true ↔ 0 < (dst.space H).room := by
  have : 0 < usizeMax := by decide
  rw [has_remaining_mut,decide_eq_true_iff,remaining_mut_eq sound]
  omega

/-- No part of the buffer has less capacity than it had. -/
inductive Widens : BufMut → BufMut → Prop
  | slice {s s' : MutSlice UInt8} : Widens (slice s) (slice s')
  | uninit {s s' : MutSlice (Option UInt8)} : Widens (uninit s) (uninit s')
  | uninitSlice {s s' : MutSlice (Option UInt8)} : Widens (uninitSlice s) (uninitSlice s')
  | grows {dst dst' : BufMut} {h h' : Handle} (before : Grows dst h) (after : Grows dst' h') (more : h.room ≤ h'.room) : Widens dst dst'
  | chain {a a' b b' : BufMut} (left : Widens a a') (right : Widens b b') : Widens (chain a b) (chain a' b')

theorem Widens.refl (dst : BufMut) : Widens dst dst := by
  induction dst with
  | slice s => exact .slice
  | uninit s => exact .uninit
  | uninitSlice s => exact .uninitSlice
  | vec x => exact .grows (.vec x) (.vec x) (Nat.le_refl _)
  | bytesMut m => exact .grows (.bytesMut m) (.bytesMut m) (Nat.le_refl _)
  | chain a b left right => exact .chain left right

theorem Grows.unique {h' : Handle} (grows : Grows dst h) (other : Grows dst h') : h = h' := by
  cases grows <;> cases other <;> rfl

theorem Widens.trans (one : Widens dst dst') (two : Widens dst' dst'') : Widens dst dst'' := by
  induction one generalizing dst'' with
  | slice =>
    cases two with
    | slice => exact .slice
    | grows before _ _ => cases before
  | uninit =>
    cases two with
    | uninit => exact .uninit
    | grows before _ _ => cases before
  | uninitSlice =>
    cases two with
    | uninitSlice => exact .uninitSlice
    | grows before _ _ => cases before
  | grows before after more =>
    cases two with
    | grows before' after' more' =>
      cases after.unique before'
      exact .grows before after' (more.trans more')
    | _ => cases after
  | chain _ _ left right =>
    cases two with
    | chain left' right' => exact .chain (left left') (right right')
    | grows before _ _ => cases before

/-! ### Writing -/

/-- `w` was written into the buffer, and no other handle sees a change. -/
structure Wrote (A : Allocator) (H : Heap) (R : List Handle) (dst : BufMut) (w : List UInt8) (H' : Heap) (dst' : BufMut) : Prop where
  sound : dst'.Sound H' R
  space : dst'.space H' = (dst.space H).write w
  wide : Widens dst dst'
  frame : ∀ r ∈ R, r.view H' = r.view H
  later : H.Later A H'

namespace Wrote

theorem refl (sound : dst.Sound H R) : Wrote A H R dst [] H dst :=
  ⟨sound,Space.write_nil.symm,.refl dst,fun _ _ => rfl,.refl A H⟩
theorem trans (one : Wrote A H R dst w H₁ dst') (two : Wrote A H₁ R dst' u H' dst'') (le : w.length ≤ (dst.space H).room) :
    Wrote A H R dst (w++u) H' dst'' where
  sound := two.sound
  space := by rw [two.space,one.space,Space.write_write le]
  wide := one.wide.trans two.wide
  frame r mem := (two.frame r mem).trans (one.frame r mem)
  later := one.later.trans two.later

theorem slice {s s' : MutSlice UInt8} (sound : (BufMut.slice s).Sound H R) (behind : s'.behind = s.behind++w)
    (rest : s'.rest = s.rest.drop w.length) : Wrote A H R (.slice s) w H (.slice s') := by
  refine ⟨sound,?_,.slice,fun _ _ => rfl,.refl A H⟩
  rw [BufMut.space,BufMut.space,Space.write,behind,rest,List.map_append,List.map_drop]
theorem uninit {s s' : MutSlice (Option UInt8)} (sound : (BufMut.uninit s).Sound H R) (behind : s'.behind = s.behind++w.map some)
    (rest : s'.rest = s.rest.drop w.length) : Wrote A H R (.uninit s) w H (.uninit s') :=
  ⟨sound,by rw [BufMut.space,BufMut.space,Space.write,behind,rest],.uninit,fun _ _ => rfl,.refl A H⟩
theorem uninitSlice {s s' : MutSlice (Option UInt8)} (sound : (BufMut.uninitSlice s).Sound H R) (behind : s'.behind = s.behind++w.map some)
    (rest : s'.rest = s.rest.drop w.length) : Wrote A H R (.uninitSlice s) w H (.uninitSlice s') :=
  ⟨sound,by rw [BufMut.space,BufMut.space,Space.write,behind,rest],.uninitSlice,fun _ _ => rfl,.refl A H⟩

theorem of_holds {p : Heap × BufMut} (grows : Grows dst h) (view : h.view H = some v) (holds : Holds A H R h.room (v++w) p) :
    Wrote A H R dst w p.1 p.2 := by
  obtain ⟨h',grows',wide,turns⟩ := holds
  refine ⟨?_,?_,.grows grows grows' wide,turns.frame,turns.later⟩
  · rw [Sound,grows'.handles]
    exact turns.sound
  · rw [grows'.space turns.view,grows.space view]
    rfl

/-- What fits is written into the first part of a chain. -/
theorem left (wrote : Wrote A H (b.handles++R) a w H' a') (le : w.length ≤ (a.space H).room) : Wrote A H R (chain a b) w H' (chain a' b) where
  sound := by
    rw [Sound,handles,List.append_assoc]
    exact wrote.sound
  space := by
    have same : b.space H' = b.space H := space_frame fun h mem => wrote.frame h (List.mem_append_left _ mem)
    rw [BufMut.space,BufMut.space,Space.write_front le,wrote.space,same]
  wide := .chain wrote.wide (.refl b)
  frame r mem := wrote.frame r (List.mem_append_right _ mem)
  later := wrote.later
/-- The second part is written where the first is full. -/
theorem right (wrote : Wrote A H (a.handles++R) b w H' b') (none : (a.space H).room = 0) : Wrote A H R (chain a b) w H' (chain a b') where
  sound := by
    rw [Sound,handles,List.append_assoc]
    exact Tcio.Sound.perm wrote.sound (List.perm_append_comm_assoc _ _ _)
  space := by
    have same : a.space H' = a.space H := space_frame fun h mem => wrote.frame h (List.mem_append_left _ mem)
    rw [BufMut.space,BufMut.space,Space.write_back none,wrote.space,same]
  wide := .chain (.refl a) wrote.wide
  frame r mem := wrote.frame r (List.mem_append_right _ mem)
  later := wrote.later

end Wrote

/-! ### Chunks -/

/-- The chunk of the buffer has room for `n` bytes. -/
def Ready (n : Nat) : BufMut → Prop
  | slice s => n ≤ s.len
  | uninit s => n ≤ s.len
  | uninitSlice s => n ≤ s.len
  | vec v => n ≤ v.cap-v.len
  | bytesMut m => n ≤ m.cap-m.len
  | chain a b => if a.has_remaining_mut then a.Ready n else b.Ready n

theorem Ready.mono (ready : dst.Ready n) (le : k ≤ n) : dst.Ready k := by
  induction dst with
  | chain a b left right =>
    rw [Ready] at ready ⊢
    split_ifs at ready ⊢ with some'
    · exact left ready
    · exact right ready
  | _ => exact Nat.le_trans le ready

theorem ready_grows (grows : Grows dst h) : dst.Ready n ↔ n ≤ h.room-h.len := by cases grows <;> rfl

theorem Ready.remains (ready : dst.Ready n) (sound : dst.Sound H R) : n ≤ dst.remaining_mut := by
  induction dst generalizing R with
  | vec x =>
    have small := (Sound.spans_vec sound).small
    rw [Ready] at ready
    rw [remaining_mut]
    omega
  | bytesMut m =>
    have small := BytesMut.cap_small sound
    rw [Ready] at ready
    rw [remaining_mut]
    omega
  | chain a b left right =>
    have word_a := remaining_mut_eq sound.left
    have word_b := remaining_mut_eq sound.right
    rw [remaining_mut]
    rw [Ready] at ready
    split_ifs at ready
    · have := left ready sound.left
      omega
    · have := right ready sound.right
      omega
  | _ => exact ready
theorem Ready.le (ready : dst.Ready n) (sound : dst.Sound H R) : n ≤ (dst.space H).room := by
  have rem := remaining_mut_eq sound
  have := ready.remains sound
  omega

/-- Of `n` bytes, more come to a part that grows than it has room for, and what becomes of it lies
    in an allocation that cannot be doubled. -/
inductive Tight (H H' : Heap) : Nat → BufMut → BufMut → Prop
  | grows {n : Nat} {dst dst' : BufMut} {h h' : Handle} (before : Grows dst h) (after : Grows dst' h') (less : h.room-h.len < n)
      (vast : H'.Vast h'.ptr) : Tight H H' n dst dst'
  | left {n : Nat} {a a' b b' : BufMut} (tight : Tight H H' (min n (a.space H).room) a a') : Tight H H' n (chain a b) (chain a' b')
  | right {n : Nat} {a a' b b' : BufMut} (tight : Tight H H' (n-(a.space H).room) b b') : Tight H H' n (chain a b) (chain a' b')

theorem Tight.mono (tight : Tight H H' k dst dst') (le : k ≤ n) : Tight H H' n dst dst' := by
  induction tight generalizing n with
  | grows before after less vast => exact .grows before after (Nat.lt_of_lt_of_le less le) vast
  | left _ ih => exact .left (ih (by omega))
  | right _ ih => exact .right (ih (by omega))

/-- What was written before came to the same parts, which have no less capacity since. -/
theorem Tight.after {R₁ : List Handle} (tight : Tight H₁ H' k dst₁ dst') (sound : dst.Sound H R) (sound₁ : dst₁.Sound H₁ R₁)
    (wide : Widens dst dst₁) (space : dst₁.space H₁ = (dst.space H).write w) (le : w.length ≤ (dst.space H).room) :
    Tight H H' (w.length+k) dst dst' := by
  induction tight generalizing dst w R R₁ with
  | grows before after less vast =>
    cases wide with
    | grows first second more =>
      cases second.unique before
      have held := sound
      have held₁ := sound₁
      rw [Sound,first.handles] at held
      rw [Sound,before.handles] at held₁
      obtain ⟨v,view⟩ := Option.ne_none_iff_exists'.mp (held.placed _ List.mem_cons_self).viewed
      obtain ⟨v₁,view₁⟩ := Option.ne_none_iff_exists'.mp (held₁.placed _ List.mem_cons_self).viewed
      rw [before.space view₁,first.space view,Space.write,Space.grows.injEq] at space
      have grown := congrArg List.length space.2
      rw [List.length_append,length_of_view view,length_of_view view₁] at grown
      exact .grows first after (by omega) vast
    | _ => cases before
  | @left k a₁ a' b₁ b' _ ih =>
    cases wide with
    | grows _ second _ => cases second
    | @chain a _ b _ wide_a wide_b =>
      rw [BufMut.space,BufMut.space,Space.write,Space.chain.injEq] at space
      have part := List.length_take_le (a.space H).room w
      have room := Space.room_write part
      rw [← space.1,List.length_take] at room
      refine .left ((ih sound.left sound₁.left wide_a space.1 part).mono ?_)
      rw [List.length_take]
      omega
  | @right k a₁ a' b₁ b' _ ih =>
    cases wide with
    | grows _ second _ => cases second
    | @chain a _ b _ wide_a wide_b =>
      rw [BufMut.space,BufMut.space,Space.write,Space.chain.injEq] at space
      have part := List.length_take_le (a.space H).room w
      have room := Space.room_write part
      rw [← space.1,List.length_take] at room
      have rest : (w.drop (a.space H).room).length ≤ (b.space H).room := by
        rw [BufMut.space,Space.room] at le
        rw [List.length_drop]
        omega
      refine .right ((ih sound.right sound₁.right wide_b space.2 rest).mono ?_)
      rw [List.length_drop]
      omega

/-- A handle with capacity lies in an allocation that is no smaller. -/
theorem Grows.extent (grows : Grows dst h) (sound : dst.Sound H R) (some' : 0 < h.room) :
    ∃ e, H.mem.extent h.ptr.prov = some e ∧ h.room ≤ e.size := by
  cases grows with
  | vec x => exact ⟨_,(Sound.spans_vec sound).live some',Nat.le_refl _⟩
  | bytesMut m =>
    obtain ⟨p,cap,spans,prov,low,high⟩ := BytesMut.ground sound
    have covers : m.cap ≤ cap := by omega
    refine ⟨⟨p.addr,cap,false⟩,?_,covers⟩
    rw [Handle.ptr,prov]
    exact spans.live (Nat.lt_of_lt_of_le some' covers)
/-- A request that is small beside the capacity fails only where the allocation cannot be doubled. -/
theorem Grows.vast (grows : Grows dst h) (sound : dst.Sound H R) (large : h.Overflows H n k)
    (fits : k+h.room ≤ isizeMax ∨ isizeMax < 2*h.room) : H.Vast h.ptr := by
  rcases fits with fits | double
  · exact large.2.resolve_left (Nat.not_lt_of_le fits)
  · obtain ⟨e,extent,covers⟩ := grows.extent sound (by omega)
    exact ⟨e,extent,by omega⟩
/-- A buffer that could not grow has written nothing and is too large to be doubled. -/
theorem Stays.tight {p : Heap × BufMut} (stays : Stays A H R v h n k p) (grows : Grows dst h) (sound : dst.Sound H R)
    (view : h.view H = some v) (fits : k+h.room ≤ isizeMax ∨ isizeMax < 2*h.room) : Wrote A H R dst [] p.1 p.2 ∧ Tight H p.1 n dst p.2 := by
  refine ⟨.of_holds grows view (by rw [List.append_nil]; exact stays.holds),?_⟩
  obtain ⟨h',grows',_,_,prov⟩ := stays.held
  refine .grows grows grows' stays.large.1 ?_
  rw [stays.same,Heap.Vast,prov]
  exact grows.vast sound stays.large fits

/-- A chunk is empty exactly where nothing remains. -/
theorem chunk_mut_spec (sound : dst.Sound H R) : Sat (dst.chunk_mut A) (H,dst)
    (fun n p => Wrote A H R dst [] p.1 p.2 ∧ p.2.Ready n ∧ (n = 0 ↔ dst.remaining_mut = 0))
    (fun k p => k = .panic ∧ Wrote A H R dst [] p.1 p.2 ∧ Tight H p.1 1 dst p.2) := by
  have leaf (h : Handle) (dst : BufMut) (grows : Grows dst h) (R : List Handle) (sound : dst.Sound H R) : Sat (dst.chunk_mut A) (H,dst)
      (fun n p => Wrote A H R dst [] p.1 p.2 ∧ p.2.Ready n ∧ (n = 0 ↔ dst.remaining_mut = 0))
      (fun k p => k = .panic ∧ Wrote A H R dst [] p.1 p.2 ∧ Tight H p.1 1 dst p.2) := by
    have held := sound
    rw [Sound,grows.handles] at held
    obtain ⟨v,view⟩ := Option.ne_none_iff_exists'.mp (held.placed h List.mem_cons_self).viewed
    refine (chunk_mut_grows grows held view).mono ?_ ?_
    · rintro n p ⟨h',grows',wide,turns,rfl,some'⟩
      have wrote : Wrote A H R dst [] p.1 p.2 := .of_holds grows view (by rw [List.append_nil]; exact ⟨h',grows',wide,turns⟩)
      have ready : p.2.Ready (h'.room-h'.len) := (ready_grows grows').mpr (Nat.le_refl _)
      have le := ready.le wrote.sound
      rw [wrote.space,Space.write_nil,← remaining_grows grows sound] at le
      exact ⟨wrote,ready,by omega⟩
    · rintro k p ⟨panic,stays⟩
      have small : 64+h.room ≤ isizeMax ∨ isizeMax < 2*h.room := by
        rw [isizeMax]
        omega
      exact ⟨panic,stays.tight grows sound view small⟩
  induction dst generalizing R with
  | slice s => exact ⟨.refl sound,Nat.le_refl _,Iff.rfl⟩
  | uninit s => exact ⟨.refl sound,Nat.le_refl _,Iff.rfl⟩
  | uninitSlice s => exact ⟨.refl sound,Nat.le_refl _,Iff.rfl⟩
  | vec x => exact leaf _ _ (.vec x) R sound
  | bytesMut m => exact leaf _ _ (.bytesMut m) R sound
  | chain a b left right =>
    have rem_a := remaining_mut_eq sound.left
    have word : 0 < usizeMax := by decide
    rw [chunk_mut]
    split_ifs with some'
    · have more := (remaining_pos sound.left).mp some'
      rw [Method.sat_within]
      refine (left sound.left).mono ?_ ?_
      · rintro n ⟨H',a'⟩ ⟨wrote,ready,none⟩
        have still : a'.has_remaining_mut = true := by
          rw [remaining_pos wrote.sound,wrote.space,Space.write_nil]
          exact more
        refine ⟨wrote.left (Nat.zero_le _),?_,?_⟩
        · rw [Ready,if_pos still]
          exact ready
        · rw [none,remaining_mut]
          omega
      · rintro k p ⟨panic,wrote,tight⟩
        exact ⟨panic,wrote.left (Nat.zero_le _),.left (tight.mono (by omega))⟩
    · rw [Method.sat_within]
      have full : (a.space H).room = 0 := by
        rw [remaining_pos sound.left] at some'
        omega
      refine (right sound.right).mono ?_ ?_
      · rintro n ⟨H',b'⟩ ⟨wrote,ready,none⟩
        refine ⟨wrote.right full,?_,?_⟩
        · rw [Ready,if_neg some']
          exact ready
        · rw [none,remaining_mut]
          omega
      · rintro k p ⟨panic,wrote,tight⟩
        exact ⟨panic,wrote.right full,.right (tight.mono (by omega))⟩

theorem advance_zero : Sat (dst.advance_mut 0) H (fun dst' H' => dst' = dst ∧ H' = H) (fun _ _ => False) := by
  induction dst generalizing H with
  | chain a b left right =>
    simp only [advance_mut,Nat.min_zero,sat_bind,sat_ite,sat_pure,Nat.zero_sub]
    refine left.mono ?_ (fun _ _ => id)
    rintro _ _ ⟨rfl,rfl⟩
    refine ⟨fun _ => right.mono ?_ (fun _ _ => id),fun _ => ⟨rfl,rfl⟩⟩
    rintro _ _ ⟨rfl,rfl⟩
    exact ⟨rfl,rfl⟩
  | vec x => exact ⟨rfl,rfl⟩
  | bytesMut m => exact ⟨rfl,rfl⟩
  | _ => simp [advance_mut,MutSlice.skip_zero]

/-- What is written into the first cells of a slice, and then left behind. -/
theorem fill_skip {β σ : Type} {s : MutSlice β} {c : List β} {t : σ} (inside : c.length ≤ s.len) :
    ∃ s' : MutSlice β, s.fill c t = (.ok s',t) ∧ s'.len = s.len ∧ (s'.skip c.length).behind = s.behind++c ∧
      (s'.skip c.length).rest = s.rest.drop c.length := by
  obtain ⟨s',ran,behind,rest⟩ := MutSlice.fill_ok (t := t) inside
  refine ⟨s',ran,?_,?_,?_⟩
  · rw [MutSlice.len] at inside ⊢
    rw [rest,List.length_append,List.length_drop,MutSlice.len]
    omega
  · have front : (s'.skip c.length).behind = s'.behind++s'.rest.take c.length := rfl
    rw [front,behind,rest,List.take_left]
  · have back : (s'.skip c.length).rest = s'.rest.drop c.length := rfl
    rw [back,rest,List.drop_left]

/-- Bytes that there is a chunk for are written at the position. -/
theorem fill_chunk (sound : dst.Sound H R) (ready : dst.Ready w.length) : Sat (dst.write_chunk w) H
    (fun dst' H₁ => dst'.remaining_mut = dst.remaining_mut ∧
      Sat (dst'.advance_mut w.length) H₁ (fun dst'' H' => Wrote A H R dst w H' dst'') (fun _ _ => False))
    (fun _ _ => False) := by
  have leaf (h : Handle) (dst : BufMut) (grows : Grows dst h) (R : List Handle) (sound : dst.Sound H R) (ready : dst.Ready w.length)
      (same : Sat (dst.write_chunk w) H (fun dst' _ => dst'.remaining_mut = dst.remaining_mut) (fun _ _ => True)) :
      Sat (dst.write_chunk w) H (fun dst' H₁ => dst'.remaining_mut = dst.remaining_mut ∧
        Sat (dst'.advance_mut w.length) H₁ (fun dst'' H' => Wrote A H R dst w H' dst'') (fun _ _ => False)) (fun _ _ => False) := by
    have held := sound
    rw [Sound,grows.handles] at held
    obtain ⟨v,view⟩ := Option.ne_none_iff_exists'.mp (held.placed h List.mem_cons_self).viewed
    refine (same.and (fill_chunk_grows A grows held view ((ready_grows grows).mp ready))).mono ?_ (fun _ _ => And.right)
    rintro dst' H₁ ⟨rem,advance⟩
    exact ⟨rem,advance.mono (fun _ _ holds => .of_holds grows view holds) (fun _ _ => id)⟩
  induction dst generalizing R with
  | slice s =>
    obtain ⟨s',ran,len,behind,rest⟩ := fill_skip (t := H) (s := s) ready
    simp only [write_chunk,sat_bind,sat_pure]
    rw [sat_of_ok ran]
    simp only [advance_mut,sat_bind,sat_check,sat_pure,remaining_mut,len]
    exact ⟨trivial,fun _ => .slice sound behind rest,fun bad => bad ready⟩
  | uninit s =>
    have inside : (w.map some).length ≤ s.len := by rwa [List.length_map]
    obtain ⟨s',ran,len,behind,rest⟩ := fill_skip (t := H) inside
    rw [List.length_map] at behind rest
    simp only [write_chunk,sat_bind,sat_pure]
    rw [sat_of_ok ran]
    simp only [advance_mut,sat_bind,sat_check,sat_pure,remaining_mut,len]
    exact ⟨trivial,fun _ => .uninit sound behind rest,fun bad => bad ready⟩
  | uninitSlice s =>
    have inside : (w.map some).length ≤ s.len := by rwa [List.length_map]
    obtain ⟨s',ran,len,behind,rest⟩ := fill_skip (t := H) inside
    rw [List.length_map] at behind rest
    simp only [write_chunk,sat_bind,sat_pure]
    rw [sat_of_ok ran]
    simp only [advance_mut,sat_bind,sat_check,sat_pure,remaining_mut,len]
    exact ⟨trivial,fun _ => .uninitSlice sound behind rest,fun bad => bad ready⟩
  | vec x =>
    refine leaf _ _ (.vec x) R sound ready ?_
    simp only [write_chunk,sat_bind,sat_pure]
    exact sat_of_run (fun _ _ _ => trivial) (fun _ _ _ => trivial)
  | bytesMut m =>
    refine leaf _ _ (.bytesMut m) R sound ready ?_
    simp only [write_chunk,sat_bind,sat_pure]
    exact sat_of_run (fun _ _ _ => trivial) (fun _ _ _ => trivial)
  | chain a b left right =>
    have rem_a := remaining_mut_eq sound.left
    rw [Ready] at ready
    simp only [write_chunk,sat_bind,sat_ite,sat_pure]
    refine ⟨fun some' => ?_,fun none => ?_⟩
    · rw [if_pos some'] at ready
      have le := ready.le sound.left
      have less := ready.remains sound.left
      refine (left sound.left ready).mono ?_ (fun _ _ => id)
      rintro a' H₁ ⟨same,advance⟩
      refine ⟨by rw [remaining_mut,remaining_mut,same],?_⟩
      simp only [advance_mut,sat_bind,sat_ite,sat_pure,same,Nat.min_eq_right less]
      refine advance.mono ?_ (fun _ _ => id)
      intro a'' H' wrote
      refine ⟨fun all => ?_,fun _ => wrote.left le⟩
      have zero : w.length-a.remaining_mut = 0 := by omega
      rw [zero]
      refine advance_zero.mono ?_ (fun _ _ => id)
      rintro _ _ ⟨rfl,rfl⟩
      exact wrote.left le
    · rw [if_neg none] at ready
      have full : (a.space H).room = 0 := by
        rw [remaining_pos sound.left] at none
        omega
      have zero : a.remaining_mut = 0 := by omega
      refine (right sound.right ready).mono ?_ (fun _ _ => id)
      rintro b' H₁ ⟨same,advance⟩
      refine ⟨by rw [remaining_mut,remaining_mut,same],?_⟩
      simp only [advance_mut,sat_bind,sat_ite,sat_pure,zero,Nat.zero_min,Nat.zero_le,forall_const,not_true_eq_false,false_implies,
        and_true,Nat.sub_zero]
      refine advance_zero.mono ?_ (fun _ _ => id)
      rintro _ _ ⟨rfl,rfl⟩
      exact advance.mono (fun _ _ wrote => wrote.right full) (fun _ _ => id)

/-! ### Bytes one at a time -/

/-- A buffer that had to grow and cannot stopped what was being written: some of it is written, the
    rest is not, and no other handle sees a change. -/
structure Strained (H : Heap) (R : List Handle) (dst : BufMut) (w : List UInt8) (p : Heap × BufMut) : Prop where
  written : ∃ j, p.2.space p.1 = (dst.space H).write (w.take j)
  tight : Tight H p.1 w.length dst p.2
  frame : ∀ r ∈ R, r.view p.1 = r.view H

theorem Strained.of_wrote {p : Heap × BufMut} (sound : dst.Sound H R) (one : Wrote A H R dst (w.take j) H₁ dst₁)
    (le : w.length ≤ (dst.space H).room) (stays : Wrote A H₁ R dst₁ [] p.1 p.2) (tight : Tight H₁ p.1 k dst₁ p.2)
    (rest : k ≤ w.length-j) (some' : 0 < k) : Strained H R dst w p := by
  have part := (List.length_take_le' j w).trans le
  have both := one.trans stays part
  rw [List.append_nil] at both
  refine ⟨⟨j,both.space⟩,(tight.after sound one.sound one.wide one.space part).mono ?_,both.frame⟩
  rw [List.length_take]
  omega
/-- What was written before is written. -/
theorem Strained.after {p : Heap × BufMut} (sound : dst.Sound H R) (one : Wrote A H R dst u H₁ dst₁) (le : u.length ≤ (dst.space H).room)
    (strained : Strained H₁ R dst₁ w p) : Strained H R dst (u++w) p := by
  obtain ⟨j,space⟩ := strained.written
  refine ⟨⟨u.length+j,?_⟩,?_,fun r mem => (strained.frame r mem).trans (one.frame r mem)⟩
  · rw [space,one.space,Space.write_write le,List.take_length_add_append]
  · rw [List.length_append]
    exact strained.tight.after sound one.sound one.wide one.space le

/-- A round of the default loop writes a chunk of what is left. -/
theorem put_slice_round_spec {p : (Heap × BufMut) × List UInt8} (sound : dst.Sound H R) (fits : w.length ≤ (dst.space H).room)
    (inv : ∃ j, p.2 = w.drop j ∧ Wrote A H R dst (w.take j) p.1.1 p.1.2) : Sat (put_slice_round A) p
      (fun o q => (∀ a, o = some a → Wrote A H R dst w q.1.1 q.1.2) ∧ (o = none →
        (∃ j, q.2 = w.drop j ∧ Wrote A H R dst (w.take j) q.1.1 q.1.2) ∧ q.2.length < p.2.length))
      (fun k q => k = .panic ∧ Strained H R dst w q.1) := by
  obtain ⟨⟨H₁,dst₁⟩,src⟩ := p
  obtain ⟨j,rfl,wrote⟩ := inv
  simp only at wrote
  simp only [put_slice_round,sat_bind,sat_get,sat_ite,sat_pure,sat_onFst,sat_modify,Method.sat_self,Method.sat_replace,
    List.isEmpty_iff,List.drop_eq_nil_iff]
  refine ⟨fun none => ⟨fun _ _ => ?_,fun bad => by cases bad⟩,fun more => ?_⟩
  · rw [List.take_of_length_le none] at wrote
    exact wrote
  · have part : (w.take j).length ≤ (dst.space H).room := (List.length_take_le' _ _).trans fits
    have room : (dst₁.space H₁).room = (dst.space H).room-j := by
      rw [wrote.space,Space.room_write part,List.length_take]
      omega
    have remains := remaining_mut_eq wrote.sound
    have word : 0 < usizeMax := by decide
    refine (chunk_mut_spec wrote.sound).mono ?_ ?_
    · rintro n ⟨H₂,dst₂⟩ ⟨grown,ready,none⟩
      have chunk : ((w.drop j).take (min (w.drop j).length n)).length = min (w.drop j).length n := by
        rw [List.length_take]
        omega
      have ready : dst₂.Ready ((w.drop j).take (min (w.drop j).length n)).length := ready.mono (by omega)
      refine (fill_chunk (A := A) grown.sound ready).mono ?_ (fun _ _ => False.elim)
      rintro dst₃ H₃ ⟨_,advance⟩
      rw [chunk] at advance
      refine advance.mono ?_ (fun _ _ => False.elim)
      intro dst₄ H₄ filled
      refine ⟨fun _ bad => (by cases bad),fun _ => ⟨⟨j+min (w.drop j).length n,List.drop_drop,?_⟩,?_⟩⟩
      · rw [List.take_add]
        exact wrote.trans (grown.trans filled (Nat.zero_le _)) part
      · have some' : 0 < min (w.drop j).length n := by
          rw [List.length_drop]
          omega
        rw [List.length_drop]
        omega
    · rintro k p ⟨panic,stays,tight⟩
      exact ⟨panic,.of_wrote sound wrote fits stays tight (by omega) Nat.one_pos⟩

theorem put_slice_default_spec (sound : dst.Sound H R) (fits : w.length ≤ dst.remaining_mut) : Sat (put_slice_default A w) (H,dst)
    (fun _ p => Wrote A H R dst w p.1 p.2) (fun k p => k = .panic ∧ Strained H R dst w p) := by
  have room := fits_room sound fits
  simp only [put_slice_default,sat_bind,Method.sat_self,sat_check,sat_lend,sat_pure,fits,forall_const,not_true_eq_false,false_implies,and_true]
  refine Sat.loop (fun p => ∃ j, p.2 = w.drop j ∧ Wrote A H R dst (w.take j) p.1.1 p.1.2) (fun p => p.2.length)
    (fun p inv => put_slice_round_spec sound room inv) _ _ ⟨0,rfl,.refl sound⟩ (Nat.lt_succ_self _)

/-- A slice is written, in the version of each type. -/
theorem put_slice_spec (sound : dst.Sound H R) (small : w.length ≤ isizeMax) (fits : w.length ≤ dst.remaining_mut)
    (free : ∀ h ∈ dst.handles, w.length+h.room ≤ isizeMax) : Sat (put_slice A w) (H,dst)
      (fun _ p => Wrote A H R dst w p.1 p.2) (fun k p => k = .panic ∧ Strained H R dst w p) := by
  have room := fits_room sound fits
  have leaf (h : Handle) (grows : Grows dst h) : Sat (put_slice A w) (H,dst)
      (fun _ p => Wrote A H R dst w p.1 p.2) (fun k p => k = .panic ∧ Strained H R dst w p) := by
    have held := sound
    rw [Sound,grows.handles] at held
    obtain ⟨v,view⟩ := Option.ne_none_iff_exists'.mp (held.placed h List.mem_cons_self).viewed
    refine (put_slice_grows grows held view small).mono (fun _ _ holds => .of_holds grows view holds) ?_
    rintro k p ⟨panic,stays⟩
    have small := free h (by rw [grows.handles]; exact List.mem_singleton_self h)
    obtain ⟨still,tight⟩ := stays.tight grows sound view (.inl small)
    exact ⟨panic,⟨0,still.space⟩,tight,still.frame⟩
  cases dst with
  | slice s =>
    obtain ⟨s',ran,_,behind,rest⟩ := fill_skip (t := (H,slice s)) (s := s) fits
    have inside : w.length ≤ s.len := fits
    simp only [put_slice,sat_bind,Method.sat_self,sat_check,inside,forall_const,not_true_eq_false,false_implies,and_true]
    rw [sat_of_ok ran,Method.sat_put]
    exact .slice sound behind rest
  | uninit s =>
    have inside : w.length ≤ s.len := fits
    obtain ⟨s',ran,_,behind,rest⟩ := fill_skip (t := (H,uninit s)) (s := s) (c := w.map some) (by rwa [List.length_map])
    rw [List.length_map] at behind rest
    simp only [put_slice,sat_bind,Method.sat_self,sat_check,inside,forall_const,not_true_eq_false,false_implies,and_true]
    rw [sat_of_ok ran,Method.sat_put]
    exact .uninit sound behind rest
  | uninitSlice s =>
    have inside : w.length ≤ s.len := fits
    obtain ⟨s',ran,_,behind,rest⟩ := fill_skip (t := (H,uninitSlice (s.skip s.len))) (s := s) (c := w.map some) (by rwa [List.length_map])
    rw [List.length_map] at behind rest
    simp only [put_slice,sat_bind,Method.sat_self,Method.sat_put,sat_check,inside,forall_const,not_true_eq_false,false_implies,and_true]
    rw [sat_of_ok ran]
    exact .uninitSlice sound behind rest
  | vec x => exact leaf _ (.vec x)
  | bytesMut m => exact leaf _ (.bytesMut m)
  | chain a b =>
    simp only [put_slice,sat_bind,Method.sat_self]
    exact put_slice_default_spec sound fits

/-! ### Sources that are too large -/

end BufMut
end Tcio
