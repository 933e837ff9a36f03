import Tcio.Bytes
import Tcio.Ledger

/-!
What holds of a heap and the handles on it. Each handle is placed: its data word
says how it holds its buffer, and its view lies in that buffer and is written. The
handles that may write lie apart from all others. The ledger of who owns which
buffer is balanced, where a handle that is promoted holds a claim on its node.
-/
namespace Tcio
open Ledger

/-- The values that hold a buffer. A vector belongs to the caller. -/
inductive Handle where
  | bytes (b : Bytes)
  | bytesMut (m : BytesMut)
  | vec (v : Vec)
  deriving DecidableEq, Repr

/-! ### The data word -/

/-- How a handle holds its buffer. -/
inductive Hold where
  | null
  | unpromoted (offset : Nat)
  | promoted
  deriving DecidableEq, Repr

def hold (data : Ptr) : Hold :=
  if data.addr = 0 then .null else if data.addr % 2 = 1 then .unpromoted (data.addr/2) else .promoted

namespace Shared

theorem is_unpromoted_iff {data : Ptr} : is_unpromoted data = true ↔ data.addr % 2 = 1 := by
  simp [is_unpromoted,DATA_MASK,DATA_UNPROMOTED,Nat.and_one_is_mod]
theorem is_promoted_iff {data : Ptr} : is_promoted data = true ↔ data.addr % 2 = 0 := by
  simp [is_promoted,DATA_MASK,DATA_PROMOTED,Nat.and_one_is_mod]
theorem is_null_iff {data : Ptr} : is_null data = true ↔ hold data = .null := by
  unfold is_null hold
  split_ifs <;> simp_all

theorem hold_unpromoted {data : Ptr} {offset : Nat} : hold data = .unpromoted offset ↔ data.addr = 2*offset+1 := by
  unfold hold
  split_ifs
  all_goals
    simp
    omega
theorem hold_promoted {data : Ptr} : hold data = .promoted ↔ data.addr % 2 = 0 ∧ 0 < data.addr := by
  unfold hold
  split_ifs
  all_goals
    simp
    omega

@[simp] theorem hold_new_unpromoted : hold new_unpromoted = .unpromoted 0 := rfl
@[simp] theorem hold_nullWord : hold null = .null := rfl

/-- The word that `mask_payload` makes. -/
theorem mask_word {value : Nat} (low : value < 2^63) :
    wrap (value <<< RESERVED_BIT_DATA) ||| DATA_UNPROMOTED = 2*value+1 := by
  have fits : value <<< 1 < 2^64 := by
    rw [Nat.shiftLeft_eq]
    omega
  rw [wrap,RESERVED_BIT_DATA,DATA_UNPROMOTED,Nat.mod_eq_of_lt fits,Nat.shiftLeft_eq]
  rw [Nat.mul_comm,← Nat.two_pow_add_eq_or_of_lt (by decide)]
theorem msb_clear {value : Nat} (low : value < 2^63) : value &&& MSB = 0 := by
  rw [MSB]
  apply Nat.eq_of_testBit_eq
  intro i
  rw [Nat.testBit_and,Nat.testBit_two_pow,Nat.zero_testBit]
  by_cases top : 63 = i
  · subst top
    simp [Nat.testBit_lt_two_pow low]
  · simp [top]

end Shared

/-! ### Handles -/

abbrev Own := Claim Nat Nat

/-- The buffer that a pointer to a range of `cap` bytes owns, if there is one. -/
def blockOf (p : Ptr) (cap : Nat) : Option Nat := if cap = 0 then none else some p.prov

namespace Handle

def ptr : Handle → Ptr
  | .bytes b => b.ptr
  | .bytesMut m => m.ptr
  | .vec v => v.ptr
def len : Handle → Nat
  | .bytes b => b.len
  | .bytesMut m => m.len
  | .vec v => v.len
/-- How many bytes from its pointer on the handle may touch. -/
def room : Handle → Nat
  | .bytes b => b.len
  | .bytesMut m => m.cap
  | .vec v => v.cap
/-- The data word; a vector holds its buffer as a new unpromoted handle does. -/
def data : Handle → Ptr
  | .bytes b => b.data
  | .bytesMut m => m.data
  | .vec _ => Shared.new_unpromoted
/-- The handle may write in its region. -/
def writes : Handle → Prop
  | .bytes _ => False
  | .bytesMut _ => True
  | .vec _ => True
def region (h : Handle) : Region := ⟨h.ptr.prov,h.ptr.addr,h.ptr.addr+h.room⟩
/-- The bytes `as_slice` returns. -/
def view (h : Handle) (H : Heap) : Option (List UInt8) := H.mem.load h.ptr h.len

/-- What the handle owns or shares. -/
def claim (h : Handle) : Own :=
  match hold h.data with
  | .null => .idle
  | .unpromoted offset => .ofBlock (blockOf h.ptr (offset+h.room))
  | .promoted => .share h.data.prov
/-- A handle that holds no buffer views static memory, if anything. -/
def Static (h : Handle) (H : Heap) : Prop := ¬ h.writes ∧ h.data = Shared.null ∧ (0 < h.len → h.len ≤ isizeMax ∧
  ∃ e, H.mem.extent h.ptr.prov = some e ∧ e.frozen = true)

theorem len_of_reads (h : Handle) (reads : ¬ h.writes) : h.len = h.room := by
  cases h <;> simp_all [writes,len,room]

/-- Two handles of which one may write lie apart. -/
def Apart (h r : Handle) : Prop := h.writes ∨ r.writes → h.region.Apart r.region

theorem Apart.symm {h r : Handle} (apart : h.Apart r) : r.Apart h :=
  fun w => (apart w.symm).symm

end Handle

/-- `p` is the start of an allocation of exactly `cap` bytes, or an empty vector's. -/
def Spans (H : Heap) (p : Ptr) (cap : Nat) : Prop :=
  (cap = 0 ∧ p = Vec.new.ptr) ∨ (0 < cap ∧ cap ≤ isizeMax ∧ H.mem.extent p.prov = some ⟨p.addr,cap,false⟩)

/-- The word points to a live node whose buffer contains the region. -/
def InNode (H : Heap) (data : Ptr) (r : Region) : Prop :=
  ∃ boxed, H.nodes.get data.prov = some boxed ∧ boxed.addr = data.addr ∧
    r.Within ⟨boxed.shared.ptr.prov,boxed.shared.ptr.addr,boxed.shared.ptr.addr+boxed.shared.cap⟩

/-- The handle lies where its word says and its view is written. -/
structure Placed (H : Heap) (h : Handle) : Prop where
  viewed : h.view H ≠ none
  fits : h.len ≤ h.room
  situated : match hold h.data with
    | .null => h.Static H
    | .unpromoted offset => offset ≤ h.ptr.addr ∧ Spans H (h.ptr.sub offset) (offset+h.room)
    | .promoted => InNode H h.data h.region

/-- The count of a node and the buffer it owns. -/
def entry (H : Heap) (k : Nat) : Option (Nat × Option Nat) :=
  (H.nodes.get k).map fun boxed => (boxed.shared.ref_count,blockOf boxed.shared.ptr boxed.shared.cap)
/-- A live buffer, not counting static memory. -/
def Buffer (H : Heap) (b : Nat) : Prop := ∃ e, H.mem.extent b = some e ∧ e.frozen = false

/-- The heap is sound for the handles `L`, where `C` are the claims of values that
    are being worked on. -/
structure Sound (H : Heap) (C : List Own) (L : List Handle) : Prop where
  ledger : Balanced (C ++ L.map Handle.claim) (entry H) (Buffer H)
  nodes : ∀ k boxed, H.nodes.get k = some boxed →
    boxed.addr % 2 = 0 ∧ 0 < boxed.addr ∧ Spans H boxed.shared.ptr boxed.shared.cap
  placed : ∀ h ∈ L, Placed H h
  apart : L.Pairwise Handle.Apart

variable {H H' : Heap} {C C' : List Own} {L L' : List Handle} {h r : Handle} {c : Own}

/-- A handle put down: its claim goes with it. -/
theorem sound_cons : Sound H C (h :: L) ↔ Sound H (h.claim :: C) L ∧ Placed H h ∧ ∀ r ∈ L, h.Apart r := by
  have move : (C ++ (h :: L).map Handle.claim).Perm (h.claim :: C ++ L.map Handle.claim) := by
    simp [List.perm_middle]
  constructor
  · rintro ⟨ledger,nodes,placed,apart⟩
    rw [List.pairwise_cons] at apart
    exact ⟨⟨ledger.perm move,nodes,fun r mem => placed r (List.mem_cons_of_mem _ mem),apart.2⟩,
      placed h List.mem_cons_self,apart.1⟩
  · rintro ⟨⟨ledger,nodes,placed,apart⟩,here,others⟩
    refine ⟨ledger.perm move.symm,nodes,?_,List.pairwise_cons.mpr ⟨others,apart⟩⟩
    rintro r mem
    rcases List.mem_cons.mp mem with rfl | later
    · exact here
    · exact placed r later

theorem Sound.perm (sound : Sound H C L) (same : L.Perm L') : Sound H C L' where
  ledger := sound.ledger.perm (List.Perm.append_left C (same.map Handle.claim))
  nodes := sound.nodes
  placed r mem := sound.placed r (same.mem_iff.mpr mem)
  apart := (same.pairwise_iff (fun apart => Handle.Apart.symm apart)).mp sound.apart

/-- A claim on nothing can be forgotten or made up. -/
theorem sound_idle : Sound H (.idle :: C) L ↔ Sound H C L := by
  constructor
  · rintro ⟨ledger,nodes,placed,apart⟩
    exact ⟨balanced_idle.mp ledger,nodes,placed,apart⟩
  · rintro ⟨ledger,nodes,placed,apart⟩
    exact ⟨balanced_idle.mpr ledger,nodes,placed,apart⟩

end Tcio
