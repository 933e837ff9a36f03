import Tcio.Resources

/-!
What the operations on vectors and on nodes do to a sound heap: which claim they
take and which they leave, and that no handle put down sees a change.
-/
namespace Tcio
open Exec Ledger

/-- The claim of the owner of `cap` bytes from `p` on. -/
def own (p : Ptr) (cap : Nat) : Own := .ofBlock (blockOf p cap)

/-- Any two buffers leave `gap` bytes between them, where an empty buffer lies at the
    dangling address. -/
structure Heap.Spread (H : Heap) (gap : Nat) : Prop where
  low : ∀ i e, H.mem.extent i = some e → e.frozen = false → 1+gap ≤ e.base
  apart : ∀ i j e f, i ≠ j → H.mem.extent i = some e → e.frozen = false →
    H.mem.extent j = some f → f.frozen = false → e.base+e.size+gap ≤ f.base ∨ f.base+f.size+gap ≤ e.base

/-- The node is at the same address and owns the same buffer. -/
structure Boxed.Keeps (boxed' boxed : Boxed) : Prop where
  addr : boxed'.addr = boxed.addr
  ptr : boxed'.shared.ptr = boxed.shared.ptr
  cap : boxed'.shared.cap = boxed.shared.cap

/-- What became of a heap: buffers stay where they lie until they are freed, a node keeps
    its buffer, and identities are not given out again. -/
structure Heap.Later (A : Allocator) (H H' : Heap) : Prop where
  mem : H.mem.Later H'.mem
  nodes : H.nodes.Later H'.nodes
  kept : ∀ k boxed boxed', H.nodes.get k = some boxed → H'.nodes.get k = some boxed' → boxed'.Keeps boxed
  extent : ∀ i e, H.mem.extent i = some e → H'.mem.extent i = some e ∨ e.frozen = false ∧ H'.mem.extent i = none
  spread : ∀ gap, A.Spaced gap → H.Spread gap → H'.Spread gap

/-- The heap goes on to one that is sound for the claims `C`, while the handles `L`
    see no change. -/
structure Goes (A : Allocator) (H : Heap) (L : List Handle) (H' : Heap) (C : List Own) : Prop where
  sound : Sound H' C L
  view : ∀ r ∈ L, r.view H' = r.view H
  later : H.Later A H'

variable {A : Allocator} {H H' H'' : Heap} {C C' : List Own} {L : List Handle} {h r : Handle}
variable {p q data : Ptr} {cap k n : Nat} {e : Extent} {v : List UInt8} {boxed : Boxed}

theorem own_zero : own p 0 = .idle := rfl
theorem own_pos (some' : 0 < cap) : own p cap = .sole p.prov := by
  rw [own,blockOf,if_neg (by omega)]
  rfl
theorem own_congr (same : p.prov = q.prov) : own p cap = own q cap := by simp only [own,blockOf,same]

theorem claim_own {offset : Nat} (word : hold h.data = .unpromoted offset) : h.claim = own h.ptr (offset+h.room) :=
  claim_unpromoted word
theorem claim_vec (vec : Vec) : (Handle.vec vec).claim = own vec.ptr vec.cap := by
  have word : hold (Handle.vec vec).data = .unpromoted 0 := Shared.hold_new_unpromoted
  rw [claim_own word,Nat.zero_add]
  rfl

/-- A heap with no buffer that was not there stays spread. -/
theorem Heap.Spread.shrink {gap : Nat} (spread : H.Spread gap)
    (sub : ∀ i e, H'.mem.extent i = some e → H.mem.extent i = some e) : H'.Spread gap :=
  ⟨fun i e live writable => spread.low i e (sub i e live) writable,
    fun i j e f other one writable two writable' => spread.apart i j e f other (sub i e one) writable (sub j f two) writable'⟩

/-! ### What became of a heap -/

namespace Boxed.Keeps
variable {boxed' boxed'' : Boxed}

theorem refl (boxed : Boxed) : boxed.Keeps boxed := ⟨rfl,rfl,rfl⟩
theorem trans (one : boxed'.Keeps boxed) (two : boxed''.Keeps boxed') : boxed''.Keeps boxed :=
  ⟨two.addr.trans one.addr,two.ptr.trans one.ptr,two.cap.trans one.cap⟩
theorem of_eq (live : H.nodes.get k = some boxed) (live' : H.nodes.get k = some boxed') : boxed'.Keeps boxed := by
  cases live.symm.trans live'
  exact refl boxed

end Boxed.Keeps

namespace Heap.Later

theorem refl (A : Allocator) (H : Heap) : H.Later A H :=
  ⟨.refl _,.refl _,fun _ _ _ => .of_eq,fun _ _ live => .inl live,fun _ _ spread => spread⟩
theorem trans (one : H.Later A H') (two : H'.Later A H'') : H.Later A H'' where
  mem := one.mem.trans two.mem
  nodes := one.nodes.trans two.nodes
  kept k boxed boxed'' live live'' := by
    cases between : H'.nodes.get k with
    | none =>
      have low := Nat.lt_of_lt_of_le (Arena.lt_bound live) one.nodes.bound
      rw [two.nodes.gone k low between] at live''
      cases live''
    | some boxed' => exact (one.kept k boxed boxed' live between).trans (two.kept k boxed' boxed'' between live'')
  extent i e live := by
    rcases one.extent i e live with stays | ⟨writable,gone⟩
    · exact two.extent i e stays
    · refine .inr ⟨writable,?_⟩
      obtain ⟨_,found,_⟩ := Memory.extent_eq_some.mp live
      rw [Memory.extent_eq_none] at gone ⊢
      exact two.mem.gone i (Nat.lt_of_lt_of_le (Arena.lt_bound found) one.mem.bound) gone
  spread gap spaced spread := two.spread gap spaced (one.spread gap spaced spread)

theorem with_nodes {nodes : Arena Boxed} (later : H.nodes.Later nodes)
    (kept : ∀ k boxed boxed', H.nodes.get k = some boxed → nodes.get k = some boxed' → boxed'.Keeps boxed) :
    H.Later A { H with nodes } :=
  ⟨.refl _,later,kept,fun _ _ live => .inl live,fun _ _ spread => spread.shrink fun _ _ => id⟩

theorem insert (H : Heap) (boxed : Boxed) : H.Later A { H with nodes := H.nodes.insert boxed } := by
  refine with_nodes (.insert ..) fun k boxed boxed' live live' => ?_
  rw [Arena.get_insert_of_live live] at live'
  cases live'
  exact .refl boxed
theorem recount (H : Heap) (k : Nat) (f : Nat → Nat) : H.Later A { H with nodes := H.nodes.update k (Boxed.recount f) } := by
  refine with_nodes (.update ..) fun i boxed boxed' live live' => ?_
  rw [Arena.get_update,live] at live'
  split_ifs at live' <;> cases live' <;> exact ⟨rfl,rfl,rfl⟩
theorem freeNode (H : Heap) (k : Nat) : H.Later A { H with nodes := H.nodes.free k } := by
  refine with_nodes (.free ..) fun i boxed boxed' live live' => ?_
  rw [Arena.get_free,live] at live'
  split_ifs at live'
  cases live'
  exact .refl boxed

theorem store {mem : Memory UInt8} (stored : Memory.Stored H.mem mem p n) : H.Later A { H with mem } where
  mem := by
    refine ⟨Nat.le_of_eq stored.bound.symm,fun i _ none => ?_⟩
    rw [← Memory.extent_eq_none] at none ⊢
    rw [stored.extent,none]
  nodes := .refl _
  kept _ _ _ := .of_eq
  extent i e live := .inl (by rw [stored.extent,live])
  spread _ _ spread := spread.shrink fun i e live => by rwa [stored.extent] at live

theorem freeBuffer {b : Nat} (buffer : Buffer H b) : H.Later A (H.freeBuffer b) where
  mem := .free ..
  nodes := .refl _
  kept _ _ _ := .of_eq
  extent i e live := by
    by_cases here : i = b
    · subst here
      obtain ⟨e',live',writable⟩ := buffer
      cases live.symm.trans live'
      exact .inr ⟨writable,by simp [Heap.freeBuffer]⟩
    · exact .inl (by rw [Heap.freeBuffer,Memory.extent_free here,live])
  spread _ _ spread := spread.shrink fun i e live => by
    by_cases here : i = b
    · subst here
      simp [Heap.freeBuffer,Memory.extent] at live
    · rwa [Heap.freeBuffer,Memory.extent_free here] at live

/-- A buffer where the allocator places it. -/
theorem alloc (A : Allocator) (H : Heap) (n : Nat) : H.Later A (H.alloc ⟨(A.buffer H n).1,(A.buffer H n).2,false⟩) where
  mem := .insert ..
  nodes := .refl _
  kept _ _ _ := .of_eq
  extent _ _ live := .inl (Memory.extent_alloc live)
  spread gap spaced spread := by
    constructor
    · intro i e live writable
      simp only [Heap.alloc,Memory.extent,Memory.alloc,Arena.get_insert] at live
      split_ifs at live with new
      · cases live
        exact spaced.low H n
      · exact spread.low i e live writable
    · intro i j e f other one writable two writable'
      simp only [Heap.alloc,Memory.extent,Memory.alloc,Arena.get_insert] at one two
      split_ifs at one two with first second second
      · omega
      · cases one
        exact (spaced.apart H n j f two writable').symm
      · cases two
        exact spaced.apart H n i e one writable
      · exact spread.apart i j e f other one writable two writable'

end Heap.Later

theorem Goes.refl (sound : Sound H C L) : Goes A H L H C := ⟨sound,fun _ _ => rfl,.refl A H⟩
theorem Goes.trans (one : Goes A H L H' C) (two : Goes A H' L H'' C') : Goes A H L H'' C' where
  sound := two.sound
  view r mem := (two.view r mem).trans (one.view r mem)
  later := one.later.trans two.later

theorem Spans.live (spans : Spans H p cap) (some' : 0 < cap) : H.mem.extent p.prov = some ⟨p.addr,cap,false⟩ := by
  rcases spans with ⟨none,_⟩ | ⟨_,_,live⟩
  · omega
  · exact live
theorem Spans.small (spans : Spans H p cap) : cap ≤ isizeMax := by
  rcases spans with ⟨none,_⟩ | ⟨_,small,_⟩
  · simp [none]
  · exact small
theorem spans_new : Spans H Vec.new.ptr 0 := .inl ⟨rfl,rfl⟩

/-! ### Reading and writing -/

theorem read_ok (loaded : H.mem.load p n = some v) : Heap.read p n H = (.ok v,H) := by
  apply run_eq
  simp [Heap.read,loaded]

/-- A write into a live buffer, where no handle put down may look. -/
theorem write_spec (A : Allocator) (sound : Sound H C L) (live : H.mem.extent p.prov = some e) (writable : e.frozen = false)
    (low : e.base ≤ p.addr) (high : p.addr+v.length ≤ e.base+e.size)
    (apart : ∀ r ∈ L, r.region.Apart ⟨p.prov,p.addr,p.addr+v.length⟩) :
    Sat (Heap.write p v) H (fun _ H' => Goes A H L H' C ∧ Memory.Stored H.mem H'.mem p v.length ∧
      H'.nodes = H.nodes ∧ H'.mem.load p v.length = some v) (fun _ _ => False) := by
  obtain ⟨mem,stored⟩ := Memory.store_succeeds live writable low high
  have keeps := Memory.store_stored stored
  simp only [Heap.write,sat_bind,sat_get,sat_ofOption,stored,Option.some.injEq,reduceCtorEq,false_implies,
    and_true,sat_set]
  rintro _ rfl
  refine ⟨⟨sound.store keeps apart,fun r member => ?_,.store keeps⟩,keeps,trivial,Memory.load_store stored⟩
  exact ((sound.placed r member).store keeps (apart r member)).view

/-- A write of nothing needs no buffer. -/
theorem write_nil : Heap.write p [] H = (.ok (),H) := by
  apply run_eq
  simp [Heap.write,Memory.store]

/-- A write within a buffer, which need not be there if nothing is written. -/
theorem write_within (A : Allocator) (sound : Sound H C L) (spans : Spans H p cap) (same : q.prov = p.prov)
    (low : p.addr ≤ q.addr) (high : q.addr+v.length ≤ p.addr+cap)
    (apart : 0 < v.length → ∀ r ∈ L, r.region.Apart ⟨p.prov,q.addr,q.addr+v.length⟩) :
    Sat (Heap.write q v) H (fun _ H' => Goes A H L H' C ∧ Memory.Stored H.mem H'.mem q v.length ∧
      H'.nodes = H.nodes ∧ H'.mem.load q v.length = some v) (fun _ _ => False) := by
  by_cases none : v.length = 0
  · rw [List.length_eq_zero_iff] at none
    subst none
    rw [sat_of_ok write_nil]
    exact ⟨.refl sound,Memory.store_stored (by simp [Memory.store]),rfl,by simp⟩
  have live := spans.live (by omega)
  refine write_spec A sound (by rw [same]; exact live) rfl low high fun r mem => ?_
  rw [same]
  exact apart (by omega) r mem

/-- The owner of a buffer writes into it. -/
theorem write_own (A : Allocator) (sound : Sound H (own p cap :: C) L) (spans : Spans H p cap) (same : q.prov = p.prov)
    (low : p.addr ≤ q.addr) (high : q.addr+v.length ≤ p.addr+cap) :
    Sat (Heap.write q v) H (fun _ H' => Goes A H L H' (own p cap :: C) ∧ Memory.Stored H.mem H'.mem q v.length ∧
      H'.nodes = H.nodes ∧ H'.mem.load q v.length = some v) (fun _ _ => False) := by
  refine write_within A sound spans same low high fun some' r mem => ?_
  rw [own_pos (by omega)] at sound
  exact sound.sole_apart mem

theorem copy_eq (loaded : H.mem.load p n = some v) : Heap.copy p q n H = Heap.write q v H := by
  show (Heap.read p n >>= Heap.write q) H = _
  simp only [Bind.bind,read_ok loaded]

theorem copy_nonoverlapping_eq (apart : n = 0 ∨ p.prov ≠ q.prov ∨ p.addr+n ≤ q.addr ∨ q.addr+n ≤ p.addr)
    (loaded : H.mem.load p n = some v) : Heap.copy_nonoverlapping p q n H = Heap.write q v H := by
  show (check .fault _ >>= fun _ => Heap.copy p q n) H = _
  rw [check,if_pos apart]
  exact copy_eq loaded

/-! ### Vectors -/

theorem with_capacity_spec (sound : Sound H C L) : Sat (Vec.with_capacity A n) H
    (fun vec H' => Goes A H L H' (own vec.ptr vec.cap :: C) ∧ Spans H' vec.ptr vec.cap ∧ vec.len = 0 ∧ n ≤ vec.cap ∧
      ∀ p n v, H.mem.load p n = some v → H'.mem.load p n = some v ∧ (0 < n → p.prov ≠ vec.ptr.prov ∨ vec.cap = 0))
    (fun k H' => k = .panic ∧ isizeMax < n ∧ H' = H) := by
  simp only [Vec.with_capacity,sat_bind,sat_check,sat_ite,sat_pure,sat_get,sat_set]
  refine ⟨fun small => ⟨?_,?_⟩,fun large => ⟨trivial,by omega,trivial⟩⟩
  · rintro rfl
    exact ⟨.refl (sound_idle.mpr sound),spans_new,rfl,Nat.le_refl _,fun _ _ _ loaded => ⟨loaded,fun _ => .inr rfl⟩⟩
  · intro some'
    obtain ⟨room,fits⟩ := A.room H n small
    have more : 0 < (A.buffer H n).2 := by omega
    refine ⟨⟨?_,?_,.alloc A H n⟩,?_,trivial,room,?_⟩
    · rw [own_pos more]
      exact sound.alloc rfl
    · intro r mem
      exact ((sound.placed r mem).alloc _).view
    · exact .inr ⟨more,fits,Memory.extent_alloc_bound⟩
    · intro p n v loaded
      refine ⟨Memory.load_alloc loaded,fun some' => .inl ?_⟩
      obtain ⟨b,live,_⟩ := (Memory.load_eq_some.mp loaded).2 some'
      exact Nat.ne_of_lt (Arena.lt_bound live)

theorem from_raw_parts_ok (spans : Spans H p cap) (fits : n ≤ cap) :
    Vec.from_raw_parts p n cap H = (.ok ⟨p,n,cap⟩,H) := by
  apply run_eq
  simp only [Vec.from_raw_parts,sat_bind,sat_get,sat_check,sat_pure,implies_true,true_and]
  intro bad
  exact bad ⟨fits,fun some' => spans.live (by omega)⟩

theorem vec_drop_spec (A : Allocator) {vec : Vec} (sound : Sound H (own vec.ptr vec.cap :: C) L) (spans : Spans H vec.ptr vec.cap) :
    Sat (Vec.drop vec) H (fun _ H' => Goes A H L H' C ∧ H'.nodes = H.nodes) (fun _ _ => False) := by
  simp only [Vec.drop,sat_ite,sat_pure,sat_bind,sat_get,sat_check,sat_set]
  refine ⟨fun none => ?_,fun some' => ⟨fun _ => ?_,fun bad => bad (spans.live (by omega))⟩⟩
  · rw [none,own_zero,sound_idle] at sound
    exact ⟨.refl sound,trivial⟩
  · rw [own_pos (by omega)] at sound
    have buffer := sound.ledger.soleLive _ List.mem_cons_self
    exact ⟨⟨sound.freeBuffer,fun r mem => (sound.kept_freeBuffer mem).view,.freeBuffer buffer⟩,trivial⟩

/-- Dropping a vector does not look at the nodes. -/
theorem vec_drop_nodes {vec : Vec} {nodes : Arena Boxed} {Q : Unit → Heap → Prop} {E : Stop → Heap → Prop} :
    Sat (Vec.drop vec) { H with nodes } Q E ↔
      Sat (Vec.drop vec) H (fun a t => Q a { t with nodes }) (fun k t => E k { t with nodes }) := by
  simp only [Vec.drop,sat_ite,sat_pure,sat_bind,sat_get,sat_check,sat_set]

/-- A new vector holds the bytes of the slice. -/
theorem to_vec_spec (sound : Sound H C L) : Sat (Vec.to_vec A v) H
    (fun vec H' => Goes A H L H' (own vec.ptr vec.cap :: C) ∧ Spans H' vec.ptr vec.cap ∧ vec.len = v.length ∧
      vec.len ≤ vec.cap ∧ H'.mem.load vec.ptr vec.len = some v)
    (fun k H' => k = .panic ∧ isizeMax < v.length ∧ H' = H) := by
  simp only [Vec.to_vec,sat_bind,sat_pure]
  refine (with_capacity_spec sound).mono ?_ (fun _ _ stops => stops)
  rintro vec H₁ ⟨goes,spans,_,room,_⟩
  refine (write_own A goes.sound spans rfl (Nat.le_refl _) (by omega)).mono ?_ (fun _ _ => False.elim)
  rintro _ H₂ ⟨more,stored,_,loaded⟩
  exact ⟨goes.trans more,spans_keep spans (fun _ e live => by rw [stored.extent]; exact live),trivial,room,loaded⟩

/-! ### The data word -/

namespace Shared

theorem deref_ok (live : H.nodes.get data.prov = some boxed) (addr : boxed.addr = data.addr) :
    deref data H = (.ok boxed.shared,H) := by
  apply run_eq
  simp [deref,live,addr]

theorem as_unpromoted_offset {offset : Nat} (word : hold data = .unpromoted offset) :
    as_unpromoted data H = (.ok (.ok offset),H) := by
  rw [hold_unpromoted] at word
  have odd : is_unpromoted data = true := is_unpromoted_iff.mpr (by omega)
  apply run_eq
  simp only [as_unpromoted,odd,↓reduceIte,sat_pure,Except.ok.injEq,and_true,RESERVED_BIT_DATA,
    Nat.shiftRight_one]
  omega

theorem as_unpromoted_node (word : hold data = .promoted) (live : H.nodes.get data.prov = some boxed)
    (addr : boxed.addr = data.addr) : as_unpromoted data H = (.ok (.error data),H) := by
  rw [hold_promoted] at word
  have even : is_unpromoted data = false := by
    rw [Bool.eq_false_iff,ne_eq,is_unpromoted_iff]
    omega
  apply run_eq
  simp [as_unpromoted,even,sat_of_ok (deref_ok live addr)]

theorem to_unpromoted_eq : to_unpromoted data = match hold data with | .unpromoted offset => some offset | _ => none := by
  by_cases odd : data.addr % 2 = 1
  · have word : hold data = .unpromoted (data.addr/2) := by
      rw [hold_unpromoted]
      omega
    simp [to_unpromoted,is_unpromoted_iff.mpr odd,word,RESERVED_BIT_DATA,Nat.shiftRight_one]
  · have even : is_unpromoted data = false := by
      rw [Bool.eq_false_iff,ne_eq,is_unpromoted_iff]
      exact odd
    have word : ∀ offset, hold data ≠ .unpromoted offset := by
      intro offset
      rw [ne_eq,hold_unpromoted]
      omega
    cases found : hold data with
    | unpromoted offset => exact absurd found (word offset)
    | null => simp [to_unpromoted,even]
    | promoted => simp [to_unpromoted,even]

/-- The word of an unpromoted handle at `value`. -/
def payload (data : Ptr) (value : Nat) : Ptr := { data with addr := 2*value+1 }

@[simp] theorem hold_payload {value : Nat} : hold (payload data value) = .unpromoted value := hold_unpromoted.mpr rfl

theorem mask_payload_ok {σ : Type} {s : σ} {offset value : Nat} (word : hold data = .unpromoted offset)
    (low : value < 2^63) : mask_payload data value s = (.ok (payload data value),s) := by
  rw [hold_unpromoted] at word
  have odd : is_unpromoted data = true := is_unpromoted_iff.mpr (by omega)
  apply run_eq
  simp only [mask_payload,sat_bind,sat_check,sat_pure,odd,msb_clear low,mask_word low,payload]
  simp

/-! ### Nodes -/

theorem entry_of_get (live : H.nodes.get k = some boxed) :
    entry H k = some (boxed.shared.ref_count,blockOf boxed.shared.ptr boxed.shared.cap) := by
  simp [entry,live]

/-- A new node takes over the buffer of a vector, with `n` claims on it. -/
theorem promote_spec {vec : Vec} (sound : Sound H (own vec.ptr vec.cap :: C) L) (spans : Spans H vec.ptr vec.cap)
    (some' : 0 < n) : Sat (promote_with_vec A vec n) H
      (fun data H' => Goes A H L H' (List.replicate n (.share data.prov) ++ C) ∧ H'.mem = H.mem ∧
        hold data = .promoted ∧ H'.nodes.get data.prov = some ⟨data.addr,⟨n,vec.ptr,vec.cap⟩⟩)
      (fun _ _ => False) := by
  obtain ⟨pos,even⟩ := A.aligned H
  simp only [promote_with_vec,sat_bind,sat_get,sat_set,sat_pure]
  refine ⟨⟨?_,?_,.insert ..⟩,trivial,hold_promoted.mpr ⟨by simp only; omega,pos⟩,Arena.get_insert_bound⟩
  · exact Sound.insertNode sound some' ⟨by simp only; omega,pos⟩ spans
  · intro r mem
    exact ((sound.placed r mem).insertNode _).view

/-- The heap with the count of a node changed. -/
def recounted (H : Heap) (data : Ptr) (f : Nat → Nat) : Heap :=
  { H with nodes := H.nodes.update data.prov (Boxed.recount f) }

theorem fetch_ok (f : Nat → Nat) (live : H.nodes.get data.prov = some boxed) (addr : boxed.addr = data.addr) :
    (do let old := (← deref data).ref_count; recount data f; return old : Exec Heap Nat) H =
      (.ok boxed.shared.ref_count,recounted H data f) := by
  apply run_eq
  simp only [sat_bind,sat_of_ok (deref_ok live addr),recount,sat_modify,sat_pure]
  exact ⟨trivial,rfl⟩

theorem recounted_live (f : Nat → Nat) (live : H.nodes.get data.prov = some boxed) :
    (recounted H data f).nodes.get data.prov = some (boxed.recount f) := by
  simp [recounted,live]

theorem increment_spec (A : Allocator) (sound : Sound H C L) (live : H.nodes.get data.prov = some boxed)
    (addr : boxed.addr = data.addr) : Sat (increment data) H
      (fun _ H' => Goes A H L H' (.share data.prov :: C) ∧ H'.mem = H.mem ∧
        H'.nodes.get data.prov = some (boxed.recount (· + 1)))
      (fun k _ => k = .abort ∧ isizeMax < boxed.shared.ref_count) := by
  simp only [increment,sat_bind]
  rw [sat_of_ok (show fetch_add data H = _ from fetch_ok (· + 1) live addr)]
  simp only [sat_ite,sat_stop,sat_pure]
  refine ⟨fun many => ⟨trivial,many⟩,fun _ => ⟨⟨?_,?_,.recount ..⟩,rfl,recounted_live _ live⟩⟩
  · exact sound.share (entry_of_get live)
  · intro r mem
    exact ((sound.placed r mem).recount _).view

/-- What the last claim leaves is what it read in the node. -/
theorem last_spec (A : Allocator) (sound : Sound H (.share data.prov :: C) L) (live : H.nodes.get data.prov = some boxed)
    (one : boxed.shared.ref_count = 1) :
    Goes A H L { H with nodes := H.nodes.free data.prov } (own boxed.shared.ptr boxed.shared.cap :: C) := by
  have only : entry H data.prov = some (1,blockOf boxed.shared.ptr boxed.shared.cap) := by
    rw [entry_of_get live,one]
  exact ⟨sound.freeNode only,fun r mem => (sound.kept_freeNode only mem).view,.freeNode ..⟩

/-- Counting down does not matter to a node that is freed next. -/
theorem free_recounted (f : Nat → Nat) : Arena.free (recounted H data f).nodes data.prov = H.nodes.free data.prov := by
  have same : ∀ i, (Arena.free (recounted H data f).nodes data.prov).get i = (H.nodes.free data.prov).get i := by
    intro i
    simp only [recounted,Arena.get_free,Arena.get_update]
    split_ifs <;> rfl
  refine Arena.ext (funext same) rfl ?_
  cases live : H.nodes.get data.prov <;> simp [recounted,Arena.free,live] <;> rfl

theorem release_more (A : Allocator) (sound : Sound H (.share data.prov :: C) L)
    (live : H.nodes.get data.prov = some boxed) (more : boxed.shared.ref_count ≠ 1) :
    Goes A H L (recounted H data (· - 1)) C :=
  ⟨sound.release (entry_of_get live) more,fun r mem => ((sound.placed r mem).recount _).view,.recount ..⟩

theorem release_spec (A : Allocator) (sound : Sound H (.share data.prov :: C) L)
    (live : H.nodes.get data.prov = some boxed) (addr : boxed.addr = data.addr) :
    Sat (release data) H (fun _ H' => Goes A H L H' C) (fun _ _ => False) := by
  obtain ⟨_,_,spans⟩ := sound.nodes _ _ live
  simp only [release,sat_bind]
  rw [sat_of_ok (show fetch_sub data H = _ from fetch_ok (· - 1) live addr)]
  simp only [sat_ite,sat_pure,sat_bind]
  refine ⟨fun more => release_more A sound live more,fun one => ?_⟩
  rw [sat_of_ok (deref_ok (recounted_live _ live) addr),sat_of_ok (from_raw_parts_ok (by exact spans) (Nat.zero_le _))]
  have last := last_spec A sound live (by omega)
  refine (@vec_drop_nodes { H with nodes := H.nodes.free data.prov } _ _ _ _).mpr ?_
  refine (vec_drop_spec A last.sound spans).mono ?_ (fun _ _ => False.elim)
  rintro _ H' ⟨goes,same⟩
  rw [free,sat_modify]
  have freed : (recounted H data (· - 1)).nodes.free data.prov = H.nodes.free data.prov := free_recounted _
  have back : ({ H' with nodes := (recounted H data (· - 1)).nodes.free data.prov } : Heap) = H' := by
    rw [freed,← show H'.nodes = H.nodes.free data.prov from same]
  exact last.trans (by exact back ▸ goes)

/-- What is left to the caller of `release_into_vec`. -/
theorem release_into_vec_spec (A : Allocator) (sound : Sound H (.share data.prov :: C) L)
    (live : H.nodes.get data.prov = some boxed) (addr : boxed.addr = data.addr) (fits : n ≤ boxed.shared.cap) :
    Sat (release_into_vec data n) H (fun o H' => H'.mem = H.mem ∧
      if boxed.shared.ref_count = 1 then
        o = some ⟨boxed.shared.ptr,n,boxed.shared.cap⟩ ∧ Goes A H L H' (own boxed.shared.ptr boxed.shared.cap :: C)
      else o = none ∧ Goes A H L H' C) (fun _ _ => False) := by
  obtain ⟨_,_,spans⟩ := sound.nodes _ _ live
  simp only [release_into_vec,sat_bind]
  rw [sat_of_ok (show fetch_sub data H = _ from fetch_ok (· - 1) live addr)]
  simp only [sat_ite,sat_pure,sat_bind]
  refine ⟨fun more => ?_,fun one => ?_⟩
  · rw [if_neg more]
    exact ⟨rfl,trivial,release_more A sound live more⟩
  rw [sat_of_ok (deref_ok (recounted_live _ live) addr),sat_of_ok (from_raw_parts_ok (by exact spans) (by exact fits))]
  rw [free,sat_modify,if_pos (by omega),free_recounted]
  exact ⟨rfl,rfl,last_spec A sound live (by omega)⟩

theorem is_unique_ok (live : H.nodes.get data.prov = some boxed) (addr : boxed.addr = data.addr) :
    is_unique data H = (.ok (boxed.shared.ref_count == 1),H) := by
  apply run_eq
  simp [is_unique,sat_of_ok (deref_ok live addr)]

/-! ### What only reads -/

variable (inv : Heap → Prop)

theorem deref_still : Keeps inv (deref data) := by
  refine .bind .get fun H => ?_
  cases H.nodes.get data.prov with
  | none => exact .stop
  | some boxed => exact .bind .check fun _ => .pure
theorem as_unpromoted_still : Keeps inv (as_unpromoted data) := .ite .pure (.bind (deref_still inv) fun _ => .pure)
theorem from_raw_parts_still {cap : Nat} : Keeps inv (Vec.from_raw_parts p n cap) := .bind .get fun _ => .bind .check fun _ => .pure
theorem read_still : Keeps inv (Heap.read p n) := .bind .get fun _ => .ofOption

end Shared
end Tcio
