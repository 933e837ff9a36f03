import Tcio.Invariant

/-!
How the invariant moves when a buffer is allocated, written or freed and when a
node is made, counted or freed, and that every handle put down stays where it is
and keeps its view (`Kept`). On these rest the specifications of the vector and
node operations.
-/
namespace Tcio
open Exec Ledger

variable {A : Allocator} {H H' : Heap} {C : List Own} {L : List Handle} {h r : Handle}
variable {p : Ptr} {cap b k n : Nat} {e : Extent} {v : List UInt8} {o : Option Nat}

namespace Placed

theorem of_null (placed : Placed H h) (word : hold h.data = .null) : h.Static H := by
  have := placed.situated
  rwa [word] at this
theorem of_unpromoted {offset : Nat} (placed : Placed H h) (word : hold h.data = .unpromoted offset) :
    offset ≤ h.ptr.addr ∧ Spans H (h.ptr.sub offset) (offset+h.room) := by
  have := placed.situated
  rwa [word] at this
theorem of_promoted (placed : Placed H h) (word : hold h.data = .promoted) : InNode H h.data h.region := by
  have := placed.situated
  rwa [word] at this

end Placed

theorem claim_null (word : hold h.data = .null) : h.claim = .idle := by simp [Handle.claim,word]
theorem claim_unpromoted {offset : Nat} (word : hold h.data = .unpromoted offset) :
    h.claim = .ofBlock (blockOf h.ptr (offset+h.room)) := by simp [Handle.claim,word]
theorem claim_promoted (word : hold h.data = .promoted) : h.claim = .share h.data.prov := by
  simp [Handle.claim,word]

theorem spans_keep (spans : Spans H p cap)
    (ext : 0 < cap → ∀ e, H.mem.extent p.prov = some e → H'.mem.extent p.prov = some e) : Spans H' p cap := by
  rcases spans with empty | ⟨more,small,live⟩
  · exact .inl empty
  · exact .inr ⟨more,small,ext more _ live⟩

/-- `h` is where it was and reads what it read. -/
structure Kept (H H' : Heap) (h : Handle) : Prop where
  placed : Placed H' h
  view : h.view H' = h.view H

/-- What a handle depends on: its view, the extent of the buffer it owns or of the
    static memory it reads, and where its node lies. -/
theorem Placed.keep (placed : Placed H h) (load : ∀ v, h.view H = some v → h.view H' = some v)
    (ext : ∀ e, H.mem.extent h.ptr.prov = some e → e.frozen = true ∨ h.claim = .sole h.ptr.prov →
      H'.mem.extent h.ptr.prov = some e)
    (node : ∀ boxed, hold h.data = .promoted → H.nodes.get h.data.prov = some boxed →
      ∃ boxed', H'.nodes.get h.data.prov = some boxed' ∧ boxed'.addr = boxed.addr ∧
        boxed'.shared.ptr = boxed.shared.ptr ∧ boxed'.shared.cap = boxed.shared.cap) : Kept H H' h := by
  obtain ⟨v,viewed⟩ := Option.ne_none_iff_exists'.mp placed.viewed
  have same := load v viewed
  refine ⟨⟨by rw [same]; simp,placed.fits,?_⟩,by rw [same,viewed]⟩
  cases word : hold h.data with
  | null =>
    obtain ⟨reads,null,more⟩ := placed.of_null word
    refine ⟨reads,null,fun some' => ?_⟩
    obtain ⟨small,e,live,frozen⟩ := more some'
    exact ⟨small,e,ext e live (.inl frozen),frozen⟩
  | unpromoted offset =>
    obtain ⟨low,spans⟩ := placed.of_unpromoted word
    refine ⟨low,spans_keep spans fun more e live => ext e live (.inr ?_)⟩
    rw [claim_unpromoted word,blockOf,if_neg (by omega)]
    rfl
  | promoted =>
    obtain ⟨boxed,live,addr,inside⟩ := placed.of_promoted word
    obtain ⟨boxed',live',addr',ptr',cap'⟩ := node boxed word live
    exact ⟨boxed',live',by rw [addr',addr],by rw [ptr',cap']; exact inside⟩

theorem entry_eq_some : entry H k = some (n,o) ↔ ∃ boxed, H.nodes.get k = some boxed ∧
    boxed.shared.ref_count = n ∧ blockOf boxed.shared.ptr boxed.shared.cap = o := by
  simp [entry]

/-! ### Buffers -/

section Alloc

/-- The heap with one more buffer. -/
def Heap.alloc (H : Heap) (e : Extent) : Heap := { H with mem := H.mem.alloc e }

theorem Placed.alloc (placed : Placed H h) (e : Extent) : Kept H (H.alloc e) h :=
  placed.keep (fun _ viewed => Memory.load_alloc viewed) (fun _ live _ => Memory.extent_alloc live)
    (fun boxed _ live => ⟨boxed,live,rfl,rfl,rfl⟩)

theorem Sound.alloc (sound : Sound H C L) (writable : e.frozen = false) :
    Sound (H.alloc e) (.sole H.mem.bound :: C) L where
  ledger := by
    refine sound.ledger.gain (b := H.mem.bound) ?_ ?_
    · rintro ⟨e,live,_⟩
      simp [Memory.extent] at live
    · intro b'
      by_cases new : b' = H.mem.bound
      · subst new
        simp [Buffer,Heap.alloc,writable]
      · simp [Buffer,Heap.alloc,Memory.extent,Memory.alloc,Arena.get_insert_ne new,new]
  nodes k boxed live := by
    obtain ⟨even,pos,spans⟩ := sound.nodes k boxed live
    exact ⟨even,pos,spans_keep spans fun _ _ live => Memory.extent_alloc live⟩
  placed r mem := ((sound.placed r mem).alloc e).placed
  apart := sound.apart

end Alloc

section Free

/-- A handle whose region is not empty has a claim on the buffer it lies in. -/
theorem Sound.prov_ne (sound : Sound H (.sole b :: C) L) (mem : r ∈ L) (some' : 0 < r.room) : r.ptr.prov ≠ b := by
  rintro rfl
  have placed := sound.placed r mem
  have claimed : r.claim ∈ C ++ L.map Handle.claim := List.mem_append_right _ (List.mem_map_of_mem mem)
  cases word : hold r.data with
  | null =>
    obtain ⟨reads,_,more⟩ := placed.of_null word
    obtain ⟨_,e,live,frozen⟩ := more (r.len_of_reads reads ▸ some')
    obtain ⟨e',live',writable⟩ := sound.ledger.soleLive _ List.mem_cons_self
    rw [live] at live'
    cases live'
    simp [frozen] at writable
  | unpromoted offset =>
    rw [claim_unpromoted word,blockOf,if_neg (by omega)] at claimed
    exact sound.ledger.sole_not_mem claimed
  | promoted =>
    obtain ⟨boxed,live,_,inside⟩ := placed.of_promoted word
    have room : boxed.shared.cap ≠ 0 := by
      have := inside.2
      simp only [Handle.region] at this
      omega
    refine sound.ledger.exclusive _ r.data.prov boxed.shared.ref_count List.mem_cons_self
      (entry_eq_some.mpr ⟨boxed,live,rfl,?_⟩)
    rw [blockOf,if_neg room]
    exact congrArg some inside.1.symm

theorem Sound.sole_apart (sound : Sound H (.sole b :: C) L) (mem : r ∈ L) {lo hi : Nat} :
    r.region.Apart ⟨b,lo,hi⟩ := by
  by_cases some' : 0 < r.room
  · exact Region.apart_of_prov (sound.prov_ne mem some')
  · exact Region.apart_of_empty (by simp only [Handle.region]; omega)

/-- The heap without a buffer. -/
def Heap.freeBuffer (H : Heap) (b : Nat) : Heap := { H with mem := H.mem.free b }

theorem Sound.kept_freeBuffer (sound : Sound H (.sole b :: C) L) (mem : r ∈ L) : Kept H (H.freeBuffer b) r := by
  refine (sound.placed r mem).keep ?_ ?_ (fun boxed _ live => ⟨boxed,live,rfl,rfl,rfl⟩)
  · intro v viewed
    have fits := (sound.placed r mem).fits
    exact Memory.load_free (fun some' => sound.prov_ne mem (by omega)) viewed
  · rintro e live owned
    have other : r.ptr.prov ≠ b := by
      rintro rfl
      rcases owned with frozen | sole
      · obtain ⟨e',live',writable⟩ := sound.ledger.soleLive _ List.mem_cons_self
        rw [live] at live'
        cases live'
        simp [frozen] at writable
      · refine sound.ledger.sole_not_mem (List.mem_append_right _ ?_)
        rw [← sole]
        exact List.mem_map_of_mem mem
    rw [Heap.freeBuffer,Memory.extent_free other]
    exact live

theorem Sound.freeBuffer (sound : Sound H (.sole b :: C) L) : Sound (H.freeBuffer b) C L where
  ledger := by
    refine sound.ledger.lose fun b' => ?_
    by_cases here : b' = b
    · subst here
      simp [Buffer,Heap.freeBuffer,Memory.extent]
    · simp [Buffer,Heap.freeBuffer,Memory.extent_free here,here]
  nodes k boxed live := by
    obtain ⟨even,pos,spans⟩ := sound.nodes k boxed live
    refine ⟨even,pos,spans_keep spans fun more e live' => ?_⟩
    have other : boxed.shared.ptr.prov ≠ b := by
      rintro rfl
      refine sound.ledger.exclusive _ k boxed.shared.ref_count List.mem_cons_self
        (entry_eq_some.mpr ⟨boxed,live,rfl,?_⟩)
      rw [blockOf,if_neg (by omega)]
    rw [Heap.freeBuffer,Memory.extent_free other]
    exact live'
  placed r mem := (sound.kept_freeBuffer mem).placed
  apart := sound.apart

end Free

section Store

theorem Placed.store {mem : Memory UInt8} (placed : Placed H h) (stored : Memory.Stored H.mem mem p n)
    (apart : h.region.Apart ⟨p.prov,p.addr,p.addr+n⟩) : Kept H { H with mem } h := by
  refine placed.keep ?_ ?_ (fun boxed _ live => ⟨boxed,live,rfl,rfl,rfl⟩)
  · intro v viewed
    have fits := placed.fits
    refine stored.load viewed (apart.within ⟨rfl,Nat.le_refl _,?_⟩)
    simp only [Handle.region]
    omega
  · intro e live _
    rw [stored.extent]
    exact live

/-- A handle whose own bytes are written stays where it is. -/
theorem Placed.rewritten (placed : Placed H h) (stored : Memory.Stored H.mem H'.mem p n) (same : H'.nodes = H.nodes)
    (viewed : h.view H' ≠ none) : Placed H' h := by
  refine ⟨viewed,placed.fits,?_⟩
  cases word : hold h.data with
  | null =>
    obtain ⟨reads,null,more⟩ := placed.of_null word
    refine ⟨reads,null,fun some' => ?_⟩
    rw [stored.extent]
    exact more some'
  | unpromoted offset =>
    obtain ⟨low,spans⟩ := placed.of_unpromoted word
    exact ⟨low,spans_keep spans fun _ e live => by rw [stored.extent]; exact live⟩
  | promoted =>
    obtain ⟨boxed,live,rest⟩ := placed.of_promoted word
    exact ⟨boxed,by rw [same]; exact live,rest⟩

/-- A write that no handle put down can see. -/
theorem Sound.store {mem : Memory UInt8} (sound : Sound H C L) (stored : Memory.Stored H.mem mem p n)
    (apart : ∀ r ∈ L, r.region.Apart ⟨p.prov,p.addr,p.addr+n⟩) : Sound { H with mem } C L where
  ledger := by
    have same : Buffer { H with mem } = Buffer H := by
      funext b
      simp [Buffer,stored.extent]
    rw [same]
    exact sound.ledger
  nodes k boxed live := by
    obtain ⟨even,pos,spans⟩ := sound.nodes k boxed live
    exact ⟨even,pos,spans_keep spans fun _ _ live => by rw [stored.extent]; exact live⟩
  placed r member := ((sound.placed r member).store stored (apart r member)).placed
  apart := sound.apart

end Store

/-! ### Nodes -/

/-- The heap with the nodes changed, where every node `h` needs stays where it lies. -/
theorem Placed.nodes {nodes : Arena Boxed} (placed : Placed H h)
    (node : ∀ boxed, hold h.data = .promoted → H.nodes.get h.data.prov = some boxed →
      ∃ boxed', nodes.get h.data.prov = some boxed' ∧ boxed'.addr = boxed.addr ∧
        boxed'.shared.ptr = boxed.shared.ptr ∧ boxed'.shared.cap = boxed.shared.cap) :
    Kept H { H with nodes } h :=
  placed.keep (fun _ viewed => viewed) (fun _ live _ => live) node

theorem Placed.insertNode (placed : Placed H h) (boxed : Boxed) :
    Kept H { H with nodes := H.nodes.insert boxed } h :=
  placed.nodes fun boxed' _ live => ⟨boxed',Arena.get_insert_of_live live,rfl,rfl,rfl⟩

/-- The box of a node with another count. -/
def Boxed.recount (f : Nat → Nat) (boxed : Boxed) : Boxed :=
  { boxed with shared := { boxed.shared with ref_count := f boxed.shared.ref_count } }

theorem Placed.recount (placed : Placed H h) (f : Nat → Nat) :
    Kept H { H with nodes := H.nodes.update k (Boxed.recount f) } h := by
  refine placed.nodes fun boxed _ live => ?_
  by_cases here : h.data.prov = k
  · exact ⟨boxed.recount f,by rw [Arena.get_update,if_pos here,live]; rfl,rfl,rfl,rfl⟩
  · exact ⟨boxed,by rw [Arena.get_update_ne here]; exact live,rfl,rfl,rfl⟩

theorem entry_recount {f : Nat → Nat} (before : entry H k = some (n,o)) (k' : Nat) :
    entry { H with nodes := H.nodes.update k (Boxed.recount f) } k' =
      if k' = k then some (f n,o) else entry H k' := by
  by_cases here : k' = k
  · subst here
    obtain ⟨boxed,live,rfl,rfl⟩ := entry_eq_some.mp before
    simp [entry,live,Boxed.recount]
  · simp [entry,Arena.get_update_ne here,here]

/-- A node's count changes as the claims on it do. -/
theorem Sound.recount {f : Nat → Nat} {C' : List Own} (sound : Sound H C L) (before : entry H k = some (n,o))
    (move : ∀ nodes', (∀ k', nodes' k' = if k' = k then some (f n,o) else entry H k') →
      Balanced (C' ++ L.map Handle.claim) nodes' (Buffer H)) :
    Sound { H with nodes := H.nodes.update k (Boxed.recount f) } C' L where
  ledger := move _ (entry_recount before)
  nodes k' boxed live := by
    by_cases here : k' = k
    · subst here
      simp only [Arena.get_update_self,Option.map_eq_some_iff] at live
      obtain ⟨boxed',live',rfl⟩ := live
      exact sound.nodes k' boxed' live'
    · rw [Arena.get_update_ne here] at live
      exact sound.nodes k' boxed live
  placed r mem := ((sound.placed r mem).recount f).placed
  apart := sound.apart

theorem Sound.share (sound : Sound H C L) (before : entry H k = some (n,o)) :
    Sound { H with nodes := H.nodes.update k (Boxed.recount (· + 1)) } (.share k :: C) L :=
  sound.recount before fun _ now => sound.ledger.share before now

theorem Sound.release (sound : Sound H (.share k :: C) L) (before : entry H k = some (n,o)) (more : n ≠ 1) :
    Sound { H with nodes := H.nodes.update k (Boxed.recount (· - 1)) } C L :=
  sound.recount before fun _ now => sound.ledger.release before more now

/-- A sole owner's buffer is turned over to a new node with `n` claims. -/
theorem Sound.insertNode {boxed : Boxed} (sound : Sound H (.ofBlock (blockOf boxed.shared.ptr boxed.shared.cap) :: C) L)
    (some' : 0 < boxed.shared.ref_count) (aligned : boxed.addr % 2 = 0 ∧ 0 < boxed.addr)
    (spans : Spans H boxed.shared.ptr boxed.shared.cap) :
    Sound { H with nodes := H.nodes.insert boxed }
      (List.replicate boxed.shared.ref_count (.share H.nodes.bound) ++ C) L where
  ledger := by
    rw [List.append_assoc]
    refine sound.ledger.found (k := H.nodes.bound) (by simp [entry]) some' fun k' => ?_
    by_cases here : k' = H.nodes.bound
    · simp [entry,here]
    · simp [entry,Arena.get_insert_ne here,here]
  nodes k boxed' live := by
    by_cases here : k = H.nodes.bound
    · subst here
      simp only [Arena.get_insert_bound,Option.some.injEq] at live
      subst live
      exact ⟨aligned.1,aligned.2,spans⟩
    · rw [Arena.get_insert_ne here] at live
      exact sound.nodes k boxed' live
  placed r mem := ((sound.placed r mem).insertNode boxed).placed
  apart := sound.apart

/-- No other handle needs a node with a single claim. -/
theorem Sound.kept_freeNode (sound : Sound H (.share k :: C) L) (one : entry H k = some (1,o)) (mem : r ∈ L) :
    Kept H { H with nodes := H.nodes.free k } r := by
  refine (sound.placed r mem).nodes fun boxed word live => ⟨boxed,?_,rfl,rfl,rfl⟩
  have other : r.data.prov ≠ k := by
    rintro rfl
    refine sound.ledger.alone one (List.mem_append_right _ ?_)
    rw [← claim_promoted word]
    exact List.mem_map_of_mem mem
  rw [Arena.get_free_ne other]
  exact live

/-- The last claim on a node takes its buffer over. -/
theorem Sound.freeNode (sound : Sound H (.share k :: C) L) (one : entry H k = some (1,o)) :
    Sound { H with nodes := H.nodes.free k } (.ofBlock o :: C) L where
  ledger := by
    refine sound.ledger.last one fun k' => ?_
    by_cases here : k' = k
    · simp [entry,here]
    · simp [entry,Arena.get_free_ne here,here]
  nodes k' boxed live := by
    by_cases here : k' = k
    · subst here
      simp at live
    · rw [Arena.get_free_ne here] at live
      exact sound.nodes k' boxed live
  placed r mem := (sound.kept_freeNode one mem).placed
  apart := sound.apart

end Tcio
