import Tcio.Primitives

/-!
Runs that work on a few handles while all others are left alone: the handles become
others, whose views are given, and no handle left alone sees a change (`Turns`).
A handle is replaced by a part of itself, cut into two parts that share its node, put
down or taken up.
-/
namespace Tcio
open Exec Ledger

/-- The heap goes on, with `C` left in hand, and the handles worked on become `L`,
    each with its view. -/
structure Turns (A : Allocator) (H : Heap) (R : List Handle) (H' : Heap) (C : List Own) (L : List (Handle × List UInt8)) :
    Prop where
  sound : Sound H' C (L.map Prod.fst ++ R)
  views : ∀ x ∈ L, x.1.view H' = some x.2
  frame : ∀ r ∈ R, r.view H' = r.view H
  later : H.Later A H'

variable {A : Allocator} {H H' H'' : Heap} {C C' : List Own} {R : List Handle} {h h' r h₁ h₂ : Handle}
variable {L : List (Handle × List UInt8)} {v v' w : List UInt8} {k offset : Nat}

namespace Turns

theorem start (sound : Sound H C (h :: R)) (view : h.view H = some v) : Turns A H R H C [(h,v)] :=
  ⟨sound,by simpa using view,fun _ _ => rfl,.refl A H⟩

theorem of_goes (goes : Goes A H R H' C) : Turns A H R H' C [] :=
  ⟨goes.sound,by simp,goes.view,goes.later⟩
theorem goes (turns : Turns A H R H' C []) : Goes A H R H' C :=
  ⟨turns.sound,turns.frame,turns.later⟩

/-- A step that every handle outlives. -/
theorem step (turns : Turns A H R H' C L) (goes : Goes A H' (L.map Prod.fst ++ R) H'' C') : Turns A H R H'' C' L where
  sound := goes.sound
  views x mem := by
    rw [goes.view x.1 (List.mem_append_left _ (List.mem_map_of_mem mem))]
    exact turns.views x mem
  frame r mem := by
    rw [goes.view r (List.mem_append_right _ mem)]
    exact turns.frame r mem
  later := turns.later.trans goes.later

/-- A handle is put down: its claim is in hand. -/
theorem take (turns : Turns A H R H' C ((h,v) :: L)) : Turns A H R H' (h.claim :: C) L where
  sound := (sound_cons.mp turns.sound).1
  views x mem := turns.views x (List.mem_cons_of_mem _ mem)
  frame := turns.frame
  later := turns.later

theorem placed (turns : Turns A H R H' C ((h,v) :: L)) : Placed H' h := (sound_cons.mp turns.sound).2.1
theorem view (turns : Turns A H R H' C ((h,v) :: L)) : h.view H' = some v := turns.views (h,v) List.mem_cons_self
theorem apart (turns : Turns A H R H' C ((h,v) :: L)) : ∀ r ∈ L.map Prod.fst ++ R, h.Apart r :=
  (sound_cons.mp turns.sound).2.2

/-- A claim in hand becomes a handle. -/
theorem put (turns : Turns A H R H' (h.claim :: C) L) (placed : Placed H' h) (view : h.view H' = some v)
    (apart : ∀ r ∈ L.map Prod.fst ++ R, h.Apart r) : Turns A H R H' C ((h,v) :: L) where
  sound := sound_cons.mpr ⟨turns.sound,placed,apart⟩
  views x mem := by
    rcases List.mem_cons.mp mem with rfl | later
    · exact view
    · exact turns.views x later
  frame := turns.frame
  later := turns.later

theorem perm {L' : List (Handle × List UInt8)} (turns : Turns A H R H' C L) (same : L.Perm L') : Turns A H R H' C L' where
  sound := turns.sound.perm ((same.map Prod.fst).append_right R)
  views x mem := turns.views x (same.mem_iff.mpr mem)
  frame := turns.frame
  later := turns.later

theorem swap (turns : Turns A H R H' C [(h₁,v),(h₂,w)]) : Turns A H R H' C [(h₂,w),(h₁,v)] :=
  turns.perm (List.Perm.swap ..)

/-- The handles worked on are worked on again. -/
theorem trans {L' : List (Handle × List UInt8)} (one : Turns A H R H' C L) (two : Turns A H' R H'' C' L') :
    Turns A H R H'' C' L' where
  sound := two.sound
  views := two.views
  frame r mem := (two.frame r mem).trans (one.frame r mem)
  later := one.later.trans two.later

/-- Some of the handles worked on are left alone while others are worked on again. -/
theorem seq {X L' : List (Handle × List UInt8)} (one : Turns A H R H' C (X ++ L))
    (two : Turns A H' (L.map Prod.fst ++ R) H'' C' L') : Turns A H R H'' C' (L' ++ L) where
  sound := by
    rw [List.map_append,List.append_assoc]
    exact two.sound
  views x mem := by
    rcases List.mem_append.mp mem with new | left
    · exact two.views x new
    · rw [two.frame x.1 (List.mem_append_left _ (List.mem_map_of_mem left))]
      exact one.views x (List.mem_append_right _ left)
  frame r mem := (two.frame r (List.mem_append_right _ mem)).trans (one.frame r mem)
  later := one.later.trans two.later

/-- A handle left alone is worked on from here. -/
theorem adopt {R' : List Handle} (turns : Turns A H R' H' C L) (same : R'.Perm (r :: R)) (view : r.view H = some w) :
    Turns A H R H' C ((r,w) :: L) where
  sound := turns.sound.perm ((same.append_left _).trans List.perm_middle)
  views x mem := by
    rcases List.mem_cons.mp mem with rfl | old
    · exact (turns.frame r (same.mem_iff.mpr List.mem_cons_self)).trans view
    · exact turns.views x old
  frame s mem := turns.frame s (same.mem_iff.mpr (List.mem_cons_of_mem _ mem))
  later := turns.later

theorem idle : Turns A H R H' (.idle :: C) L ↔ Turns A H R H' C L :=
  ⟨fun turns => ⟨sound_idle.mp turns.sound,turns.views,turns.frame,turns.later⟩,
    fun turns => ⟨sound_idle.mpr turns.sound,turns.views,turns.frame,turns.later⟩⟩

end Turns

/-! ### Owners -/

/-- The owner of a buffer lies apart from everything put down. -/
theorem Sound.own_apart {P : List Handle} (sound : Sound H (h.claim :: C) P) (word : hold h.data = .unpromoted offset)
    (mem : r ∈ P) : h.Apart r := by
  rintro -
  by_cases none : h.room = 0
  · refine Region.apart_of_empty ?_
    simp only [Handle.region]
    omega
  · rw [claim_own word,own_pos (by omega)] at sound
    exact (sound.sole_apart mem).symm

/-- An unpromoted handle has the buffer to itself. -/
theorem Turns.put_own (turns : Turns A H R H' (h.claim :: C) L) (word : hold h.data = .unpromoted offset)
    (spans : offset ≤ h.ptr.addr ∧ Spans H' (h.ptr.sub offset) (offset+h.room)) (fits : h.len ≤ h.room)
    (view : h.view H' = some v) : Turns A H R H' C ((h,v) :: L) := by
  refine turns.put ⟨by simp [view],fits,?_⟩ view fun r mem => turns.sound.own_apart word mem
  rw [word]
  exact spans

/-- A vector, whose claim is in hand, in the form of any handle that owns it. -/
theorem Turns.put_vec {p : Ptr} {cap : Nat} (turns : Turns A H R H' (own p cap :: C) L) (spans : Spans H' p cap)
    (word : hold h.data = .unpromoted offset) (ptr : h.ptr = p.add offset) (room : offset+h.room = cap)
    (fits : h.len ≤ h.room) (view : h.view H' = some v) : Turns A H R H' C ((h,v) :: L) := by
  have same : h.claim = own p cap := by
    rw [claim_own word,room]
    exact own_congr (by rw [ptr]; rfl)
  have back : h.ptr.sub offset = p := by
    rw [ptr]
    simp [Ptr.add,Ptr.sub]
  refine Turns.put_own (same ▸ turns) word ⟨?_,?_⟩ fits view
  · rw [ptr]
    simp
  · rw [back,room]
    exact spans

/-- Only the handle with the last claim on a node lies in its buffer. -/
theorem Sound.node_apart {P : List Handle} {boxed : Boxed} {lo hi : Nat} (sound : Sound H (.share k :: C) P)
    (live : H.nodes.get k = some boxed) (one : boxed.shared.ref_count = 1) (mem : r ∈ P)
    (inside : lo < hi → 0 < boxed.shared.cap) : r.region.Apart ⟨boxed.shared.ptr.prov,lo,hi⟩ := by
  by_cases none : lo < hi
  · have only : entry H k = some (1,blockOf boxed.shared.ptr boxed.shared.cap) := by
      rw [Shared.entry_of_get live,one]
    have freed := sound.freeNode only
    rw [show Claim.ofBlock _ = own boxed.shared.ptr boxed.shared.cap from rfl,own_pos (inside none)] at freed
    exact freed.sole_apart mem
  · exact (Region.apart_of_empty (by simp only; omega)).symm

/-- A handle alone on its node may take any part of the buffer. -/
theorem Turns.put_alone {boxed : Boxed} (turns : Turns A H R H' [.share h.data.prov] []) (word : hold h.data = .promoted)
    (live : H'.nodes.get h.data.prov = some boxed) (addr : boxed.addr = h.data.addr) (one : boxed.shared.ref_count = 1)
    (inside : h.region.Within ⟨boxed.shared.ptr.prov,boxed.shared.ptr.addr,boxed.shared.ptr.addr+boxed.shared.cap⟩)
    (fits : h.len ≤ h.room) (view : h.view H' = some v) : Turns A H R H' [] [(h,v)] := by
  refine Turns.put (by rw [claim_promoted word]; exact turns) ⟨by simp [view],fits,?_⟩ view fun r mem _ => ?_
  · rw [word]
    exact ⟨boxed,live,addr,inside⟩
  · have apart : r.region.Apart ⟨boxed.shared.ptr.prov,h.ptr.addr,h.ptr.addr+h.room⟩ := by
      refine turns.sound.node_apart live one mem fun some' => ?_
      have := inside.2
      simp only [Handle.region] at this
      omega
    rw [← show h.ptr.prov = boxed.shared.ptr.prov from inside.1] at apart
    exact apart.symm

/-! ### Parts -/

namespace Shared
theorem payload_self {data : Ptr} (word : hold data = .unpromoted offset) : payload data offset = data := by
  rw [hold_unpromoted] at word
  rw [payload,← word]
end Shared

/-- `h'` is what of `h` begins at `k`. It keeps the word, but an unpromoted word, whose
    handle always reaches to the end of its buffer, moves the offset along. -/
structure Part (h' h : Handle) (k : Nat) : Prop where
  ptr : h'.ptr = h.ptr.add k
  room : k+h'.room ≤ h.room
  fits : h'.len ≤ h'.room
  writes : h'.writes → h.writes
  word : (h'.data = h.data ∧ ∀ offset, hold h.data ≠ .unpromoted offset) ∨
    ∃ offset, hold h.data = .unpromoted offset ∧ h'.data = Shared.payload h.data (offset+k) ∧ k+h'.room = h.room

namespace Part

theorem within (part : Part h' h k) : h'.region.Within h.region := by
  have room := part.room
  refine ⟨?_,?_,?_⟩ <;> simp only [Handle.region,part.ptr,Ptr.add_prov,Ptr.add_addr] <;> omega

theorem claim (part : Part h' h k) : h'.claim = h.claim := by
  rcases part.word with ⟨same,kept⟩ | ⟨offset,word,moved,all⟩
  · cases word : hold h.data with
    | null => rw [claim_null word,claim_null (same ▸ word)]
    | promoted => rw [claim_promoted word,claim_promoted (same ▸ word),same]
    | unpromoted offset => exact absurd word (kept offset)
  · have word' : hold h'.data = .unpromoted (offset+k) := by rw [moved,Shared.hold_payload]
    rw [claim_own word,claim_own word',Nat.add_assoc,all]
    exact own_congr (by rw [part.ptr]; rfl)

theorem apart (part : Part h' h k) (apart : h.Apart r) : h'.Apart r :=
  fun w => (apart (w.imp part.writes id)).within part.within

/-- What is viewed of a part. -/
theorem view (part : Part h' h k) (view : h.view H = some v) (shown : h'.len = 0 ∨ k+h'.len ≤ h.len) :
    h'.view H = some ((v.drop k).take h'.len) := by
  rcases shown with none | inside
  · simp [Handle.view,none]
  · have dropped := Memory.load_drop view (k := k) (by omega)
    rw [← part.ptr] at dropped
    exact Memory.load_take dropped (by omega)

theorem placed (part : Part h' h k) (placed : Placed H h) (view : h'.view H = some v) (shown : h'.len ≤ h.len) :
    Placed H h' := by
  refine ⟨by simp [view],part.fits,?_⟩
  rcases part.word with ⟨same,kept⟩ | ⟨offset,word,moved,all⟩
  · rw [same]
    cases word : hold h.data with
    | null =>
      obtain ⟨reads,null,more⟩ := placed.of_null word
      refine ⟨fun w => reads (part.writes w),same.trans null,fun some' => ?_⟩
      obtain ⟨small,e,live,frozen⟩ := more (by omega)
      exact ⟨by omega,e,by rw [part.ptr]; exact live,frozen⟩
    | promoted =>
      obtain ⟨boxed,live,addr,inside⟩ := placed.of_promoted word
      have within := part.within
      exact ⟨boxed,live,addr,within.1.trans inside.1,Nat.le_trans inside.2.1 within.2.1,
        Nat.le_trans within.2.2 inside.2.2⟩
    | unpromoted offset => exact absurd word (kept offset)
  · obtain ⟨low,spans⟩ := placed.of_unpromoted word
    have back : h'.ptr.sub (offset+k) = h.ptr.sub offset := by
      rw [part.ptr,Ptr.add,Ptr.sub,Ptr.sub,Nat.add_sub_add_right]
    rw [moved,Shared.hold_payload]
    refine ⟨?_,?_⟩
    · rw [part.ptr,Ptr.add_addr]
      omega
    · rw [back,Nat.add_assoc,all]
      exact spans

end Part

/-- A handle is replaced by a part of it. -/
theorem Turns.part (turns : Turns A H R H' C ((h,v) :: L)) (part : Part h' h k) (shown : h'.len = 0 ∨ k+h'.len ≤ h.len)
    (view : v' = (v.drop k).take h'.len) : Turns A H R H' C ((h',v') :: L) := by
  have seen := part.view turns.view shown
  refine Turns.put (part.claim ▸ turns.take) (part.placed turns.placed seen (by omega)) (view ▸ seen) ?_
  intro r mem
  exact part.apart (turns.apart r mem)

/-- A handle is cut into two parts that both have a claim on its node. -/
theorem Turns.fork (turns : Turns A H R H' (h.claim :: C) ((h,v) :: L)) {k₁ k₂ : Nat} (one : Part h₁ h k₁) (two : Part h₂ h k₂)
    (shown₁ : h₁.len = 0 ∨ k₁+h₁.len ≤ h.len) (shown₂ : h₂.len = 0 ∨ k₂+h₂.len ≤ h.len) (apart : h₁.Apart h₂)
    (view₁ : v' = (v.drop k₁).take h₁.len) (view₂ : w = (v.drop k₂).take h₂.len) :
    Turns A H R H' C ((h₁,v') :: (h₂,w) :: L) := by
  have seen₁ := one.view turns.view shown₁
  have seen₂ := two.view turns.view shown₂
  have first : Turns A H R H' (h₁.claim :: C) ((h₂,w) :: L) := by
    refine Turns.put ?_ (two.placed turns.placed seen₂ (by omega)) (view₂ ▸ seen₂) ?_
    · rw [one.claim,two.claim]
      exact turns.take
    · intro r mem
      exact two.apart (turns.apart r mem)
  refine first.put (one.placed turns.placed seen₁ (by omega)) (view₁ ▸ seen₁) ?_
  rw [List.map_cons,List.cons_append,List.forall_mem_cons]
  exact ⟨apart,fun r mem => one.apart (turns.apart r mem)⟩

/-- An empty view that holds nothing. -/
theorem Turns.put_empty (turns : Turns A H R H' C L) (p : Ptr) :
    Turns A H R H' C ((.bytes (Bytes.new_empty_with_ptr p),[]) :: L) := by
  have word : hold (Handle.bytes (Bytes.new_empty_with_ptr p)).data = .null := Shared.hold_nullWord
  have seen : (Handle.bytes (Bytes.new_empty_with_ptr p)).view H' = some [] := Memory.load_zero
  refine Turns.put ?_ ⟨by simp [seen],Nat.le_refl _,?_⟩ seen ?_
  · rw [claim_null word]
    exact Turns.idle.mpr turns
  · rw [word]
    exact ⟨fun w => w,rfl,fun some' => absurd some' (Nat.lt_irrefl 0)⟩
  · exact fun r _ _ => Region.apart_of_empty (Nat.le_refl _)

end Tcio
