import Tcio.Race

/-!
What every run of a race keeps: at most one candidate is installed, its count is the number
of live handles and of drops that have still to give their reference up, and whoever takes
the last reference frees the buffer.
-/
namespace Tcio
open Exec

variable {A : Allocator} {H H₀ : Heap} {b r : Bytes} {shared new : Ptr} {offset n : Nat} {boxed : Boxed}

/-! ### What a step does -/

namespace Release

theorem fetch_sub_more (live : H.nodes.get shared.prov = some boxed) (addr : boxed.addr = shared.addr)
    (more : boxed.shared.ref_count ≠ 1) : (fetch_sub shared).step H = (.ok none,Shared.recounted H shared (· - 1)) := by
  rw [step,ok_bind (show Shared.fetch_sub shared H = _ from Shared.fetch_ok (· - 1) live addr),if_pos more]
  rfl

theorem fetch_sub_last (live : H.nodes.get shared.prov = some boxed) (addr : boxed.addr = shared.addr)
    (one : boxed.shared.ref_count = 1) (spans : Spans H boxed.shared.ptr boxed.shared.cap) :
    (fetch_sub shared).step H =
      (.ok (some (.free ⟨boxed.shared.ptr,0,boxed.shared.cap⟩)),{ H with nodes := H.nodes.free shared.prov }) := by
  rw [step,ok_bind (show Shared.fetch_sub shared H = _ from Shared.fetch_ok (· - 1) live addr),if_neg (by simpa using one),
    ok_bind (Shared.deref_ok (Shared.recounted_live _ live) addr),ok_bind (from_raw_parts_ok (by exact spans) (Nat.zero_le _)),
    ok_bind (show Shared.free shared _ = (.ok (),_) from rfl)]
  have freed : (Shared.recounted H shared (· - 1)).nodes.free shared.prov = H.nodes.free shared.prov := Shared.free_recounted _
  show (_,({ H with nodes := (Shared.recounted H shared (· - 1)).nodes.free shared.prov } : Heap)) = _
  rw [freed]
  rfl

theorem free_ok {vec : Vec} (spans : Spans H vec.ptr vec.cap) :
    (free vec).step H = (.ok none,if vec.cap = 0 then H else { H with mem := H.mem.free vec.ptr.prov }) := by
  apply run_eq
  simp only [step,Vec.drop,sat_bind,sat_ite,sat_pure,sat_get,sat_check,sat_set]
  refine ⟨fun none => by simp [none],fun some' => ⟨fun _ => by simp [some'],fun bad => bad (spans.live (by omega))⟩⟩

end Release

namespace Cloning

theorem load_unpromoted (word : hold r.data = .unpromoted offset) :
    load.step A (H,r) = (.ok (.error (.promote offset r.data)),(H,r)) := by
  have some' : Shared.is_null r.data = false := by
    rw [← Bool.not_eq_true,Shared.is_null_iff,word]
    exact Hold.noConfusion
  apply run_eq
  simp only [step,sat_bind,Method.sat_self,some',Bool.false_eq_true,↓reduceIte,sat_onFst]
  rw [sat_of_ok (Shared.as_unpromoted_offset word)]
  exact ⟨rfl,rfl⟩

theorem load_promoted (word : hold r.data = .promoted) (live : H.nodes.get r.data.prov = some boxed)
    (addr : boxed.addr = r.data.addr) : load.step A (H,r) = (.ok (.error (.increment r.data)),(H,r)) := by
  have some' : Shared.is_null r.data = false := by
    rw [← Bool.not_eq_true,Shared.is_null_iff,word]
    exact Hold.noConfusion
  apply run_eq
  simp only [step,sat_bind,Method.sat_self,some',Bool.false_eq_true,↓reduceIte,sat_onFst]
  rw [sat_of_ok (Shared.as_unpromoted_node word live addr)]
  exact ⟨rfl,rfl⟩

/-- The heap with one more node. -/
def candidate_built (A : Allocator) (H : Heap) (p : Ptr) (cap : Nat) : Heap :=
  { H with nodes := H.nodes.insert ⟨A.node H,⟨2,p,cap⟩⟩ }

theorem promote_ok (spans : Spans H (r.ptr.sub offset) (r.len+offset)) : (promote offset shared).step A (H,r) =
    (.ok (.error (.compare_exchange shared ⟨A.node H,H.nodes.bound⟩)),(candidate_built A H (r.ptr.sub offset) (r.len+offset),r)) := by
  apply run_eq
  simp only [step,sat_bind,Method.sat_self,sat_onFst,Bytes.build_unpromoted_vec]
  rw [sat_of_ok (from_raw_parts_ok spans (Nat.le_refl _))]
  simp only [Shared.promote_with_vec,sat_bind,sat_get,sat_set,sat_pure,candidate_built,and_self]

theorem exchange_won : (compare_exchange r.data new).step A (H,r) =
    (.ok (.ok { r with data := new }),(H,{ r with data := new })) := by
  apply run_eq
  simp [step]
theorem exchange_lost (other : r.data ≠ shared) : (compare_exchange shared new).step A (H,r) =
    (.ok (.error (.release (.fetch_sub new) r.data)),(H,r)) := by
  apply run_eq
  simp [step,other]

theorem release_more (live : H.nodes.get new.prov = some boxed) (addr : boxed.addr = new.addr)
    (more : boxed.shared.ref_count ≠ 1) : (release (.fetch_sub new) shared).step A (H,r) =
      (.ok (.error (.increment shared)),(Shared.recounted H new (· - 1),r)) := by
  apply run_eq
  simp only [step,sat_bind,sat_onFst]
  rw [sat_of_ok (Release.fetch_sub_more live addr more)]
  exact ⟨rfl,rfl⟩

theorem increment_spec (live : H.nodes.get shared.prov = some boxed) (addr : boxed.addr = shared.addr) :
    Sat ((increment shared).step A) (H,r)
      (fun next p => next = .ok { r with data := shared } ∧ p = (Shared.recounted H shared (· + 1),r))
      (fun k _ => k = .abort ∧ isizeMax < boxed.shared.ref_count) := by
  simp only [step,sat_bind,sat_onFst,Shared.increment]
  rw [sat_of_ok (show Shared.fetch_add shared H = _ from Shared.fetch_ok (· + 1) live addr)]
  simp

end Cloning

/-! ### The invariant -/

/-- A reference has still to be given up. -/
def Release.holds : Release → Bool
  | .fetch_sub _ => true
  | .free _ => false

theorem Release.holds_fetch_sub : (fetch_sub shared).holds = true := rfl
theorem Release.holds_free {vec : Vec} : (free vec).holds = false := rfl

/-- The node that a call built and that no other handle carries. -/
def Cloning.candidate : Cloning → Option Ptr
  | .compare_exchange _ new_shared => some new_shared
  | .release (.fetch_sub new_shared) _ => some new_shared
  | _ => none

/-- The view lies in that of the handle the race began with. -/
def Bytes.Covers (b : Bytes) (p : Ptr) (n : Nat) : Prop := ∃ k, p = b.ptr.add k ∧ k+n ≤ b.len

/-- What a call relies on while `o` is installed. -/
def Clone.Fits (b : Bytes) (offset : Nat) (o : Option Ptr) (c : Clone) : Prop :=
  match c.next with
  | .load => True
  | .promote k shared => k = offset ∧ shared = b.data ∧ c.handle = 0
  | .compare_exchange shared _ => shared = b.data ∧ c.handle = 0
  | .release r promoted_shared => (∃ new_shared, r = .fetch_sub new_shared) ∧ o = some promoted_shared
  | .increment shared => o = some shared

/-- What a release relies on. -/
def Release.Fits (b : Bytes) (offset : Nat) (o : Option Ptr) : Release → Prop
  | .fetch_sub shared => o = some shared
  | .free vec => vec.ptr = b.ptr.sub offset ∧ vec.cap = b.len+offset

namespace Race

def live (S : Race) : Nat := S.handles.countP Option.isSome
/-- Who has a reference to the buffer. -/
def holders (S : Race) : Nat := S.live+S.drops.countP Release.holds
/-- The nodes that hold two references of which no one else knows. -/
def candidates (clones : List Clone) : List Ptr := clones.flatMap fun c => c.next.candidate.toList

/-- After a race that began with `b` on `H₀` went through `evs`, the node `o` is installed. -/
structure Inv (H₀ : Heap) (b : Bytes) (offset : Nat) (o : Option Ptr) (evs : List Event) (S : Race) : Prop where
  installed : evs.filterMap Event.installed = o.toList.map fun shared => (0,shared)
  returned : ∀ (r : Bytes), Event.returns r ∈ evs → o = some r.data
  word : ∀ (i : Nat) (r : Bytes), S.handles[i]? = some (some r) → r.data = o.getD b.data ∧ b.Covers r.ptr r.len
  first : ∀ (r : Bytes), S.handles[0]? = some (some r) → r.ptr = b.ptr ∧ r.len = b.len
  alone : o = none → S.handles.length = 1
  node : ∀ shared, o = some shared → hold shared = .promoted ∧ S.heap.nodes.get shared.prov =
    if S.holders = 0 then none else some ⟨shared.addr,⟨S.holders,b.ptr.sub offset,b.len+offset⟩⟩
  clones : ∀ c ∈ S.clones, c.Fits b offset o ∧ b.Covers c.ptr c.len ∧ ∃ (r : Bytes), S.handles[c.handle]? = some (some r)
  built : ∀ p ∈ candidates S.clones, hold p = .promoted ∧
    S.heap.nodes.get p.prov = some ⟨p.addr,⟨2,b.ptr.sub offset,b.len+offset⟩⟩
  distinct : ((o.toList++candidates S.clones).map Ptr.prov).Nodup
  drops : ∀ r ∈ S.drops, r.Fits b offset o
  once : (if S.holders = 0 then 0 else 1)+S.drops.countP (fun r => !r.holds)+evs.countP Event.isFree = 1
  kept : evs.countP Event.isFree = 0 → S.heap.mem = H₀.mem
  freed : ∀ (vec : Vec), Event.frees vec ∈ evs → vec.ptr = b.ptr.sub offset ∧ vec.cap = b.len+offset

variable {S : Race} {c : Clone} {evs : List Event} {o : Option Ptr} {i : Nat} {next : Cloning} {H' : Heap}

/-! #### Handles -/

theorem countP_set {l : List (Option Bytes)} {h : Option Bytes} (here : l[i]? = some (some r)) :
    (l.set i h).countP Option.isSome+1 = l.countP Option.isSome+(if h.isSome then 1 else 0) := by
  obtain ⟨low,found⟩ := List.getElem?_eq_some_iff.mp here
  have some' : 0 < l.countP Option.isSome := List.countP_pos_iff.mpr ⟨_,List.mem_of_getElem? here,rfl⟩
  rw [List.countP_set low,found]
  simp only [Option.isSome_some,↓reduceIte]
  omega

theorem set_same {l : List (Option Bytes)} (here : l[i]? = some (some r)) : l.set i (some r) = l := by
  obtain ⟨low,found⟩ := List.getElem?_eq_some_iff.mp here
  rw [← found]
  exact List.set_getElem_self low

theorem get_append {l : List (Option Bytes)} {r' : Bytes} (here : (l++[some r'])[i]? = some (some r)) :
    l[i]? = some (some r) ∨ (i = l.length ∧ r = r') := by
  rw [List.getElem?_append] at here
  split_ifs at here with low
  · exact .inl here
  · obtain ⟨zero,same⟩ : i-l.length = 0 ∧ r' = r := by
      simpa [List.getElem?_singleton] using here
    exact .inr ⟨by omega,same.symm⟩
theorem get_append_old {l : List (Option Bytes)} {r' : Bytes} (here : l[i]? = some (some r)) :
    (l++[some r'])[i]? = some (some r) := by
  rw [List.getElem?_append_left (List.getElem?_eq_some_iff.mp here).1,here]

theorem live_pos (here : S.handles[i]? = some (some r)) : 0 < S.live :=
  List.countP_pos_iff.mpr ⟨_,List.mem_of_getElem? here,rfl⟩
theorem holders_pos (here : S.handles[i]? = some (some r)) : S.holders ≠ 0 := by
  have := live_pos here
  simp only [holders]
  omega

/-! #### Calls -/

theorem candidates_cons {clones : List Clone} :
    candidates (c :: clones) = c.next.candidate.toList++candidates clones := List.flatMap_cons
/-- A node beside the one that was installed first. -/
theorem installed_perm {p : Ptr} {l : List Ptr} : ((o.toList++p :: l).map Ptr.prov).Perm ((p :: (o.toList++l)).map Ptr.prov) :=
  List.perm_middle.map Ptr.prov

theorem candidates_perm (mem : c ∈ S.clones) :
    (candidates S.clones).Perm (c.next.candidate.toList++candidates (S.clones.erase c)) := by
  rw [← candidates_cons]
  exact (List.perm_cons_erase mem).flatMap_right _
theorem candidates_erase {p : Ptr} (mem : p ∈ candidates (S.clones.erase c)) : p ∈ candidates S.clones := by
  obtain ⟨c',later,mine⟩ := List.mem_flatMap.mp mem
  exact List.mem_flatMap.mpr ⟨c',List.mem_of_mem_erase later,mine⟩

namespace Inv

theorem node_live (inv : S.Inv H₀ b offset o evs) (here : S.handles[i]? = some (some r)) (done : o = some shared) :
    hold shared = .promoted ∧
      S.heap.nodes.get shared.prov = some ⟨shared.addr,⟨S.holders,b.ptr.sub offset,b.len+offset⟩⟩ := by
  obtain ⟨word,node⟩ := inv.node shared done
  rw [if_neg (holders_pos here)] at node
  exact ⟨word,node⟩

/-- As long as there is a handle the buffer is not freed. -/
theorem not_freed (inv : S.Inv H₀ b offset o evs) (here : S.handles[i]? = some (some r)) :
    evs.countP Event.isFree = 0 ∧ S.heap.mem = H₀.mem := by
  have once := inv.once
  rw [if_neg (holders_pos here)] at once
  have none : evs.countP Event.isFree = 0 := by omega
  exact ⟨none,inv.kept none⟩

theorem spans (inv : S.Inv H₀ b offset o evs) (spans : Spans H₀ (b.ptr.sub offset) (b.len+offset))
    (none : evs.countP Event.isFree = 0) : Spans S.heap (b.ptr.sub offset) (b.len+offset) :=
  spans_keep spans fun _ e live => by rw [inv.kept none,live]

/-- A call goes on, with a change at most to its own candidate. -/
theorem goes (inv : S.Inv H₀ b offset o evs) (mem : c ∈ S.clones) (fits : Clone.Fits b offset o { c with next })
    (same : H'.mem = S.heap.mem)
    (others : ∀ p, p ∈ o.toList++candidates (S.clones.erase c) →
      H'.nodes.get p.prov = S.heap.nodes.get p.prov)
    (own : ∀ p, next.candidate = some p → hold p = .promoted ∧
      H'.nodes.get p.prov = some ⟨p.addr,⟨2,b.ptr.sub offset,b.len+offset⟩⟩)
    (distinct : ((o.toList++(next.candidate.toList++candidates (S.clones.erase c))).map Ptr.prov).Nodup) :
    Inv H₀ b offset o evs { S with heap := H', clones := { c with next } :: S.clones.erase c } where
  installed := inv.installed
  returned := inv.returned
  word := inv.word
  first := inv.first
  alone := inv.alone
  node shared done := by
    obtain ⟨word,node⟩ := inv.node shared done
    exact ⟨word,(others shared (by simp [done])).trans node⟩
  clones c' mem' := by
    rcases List.mem_cons.mp mem' with rfl | later
    · exact ⟨fits,(inv.clones c mem).2⟩
    · exact inv.clones c' (List.mem_of_mem_erase later)
  built p mem' := by
    rcases List.mem_append.mp (candidates_cons ▸ mem') with mine | theirs
    · exact own p (by simpa using mine)
    · obtain ⟨word,built⟩ := inv.built p (candidates_erase theirs)
      exact ⟨word,(others p (List.mem_append_right _ theirs)).trans built⟩
  distinct := distinct
  drops := inv.drops
  once := inv.once
  kept none := same.trans (inv.kept none)
  freed := inv.freed

/-- A call returns one more handle of the installed node. -/
theorem returns (inv : S.Inv H₀ b offset o evs) (mem : c ∈ S.clones) (done : o = some shared) :
    Inv H₀ b offset o (evs++[.returns ⟨c.ptr,c.len,shared⟩]) { S with
      heap := Shared.recounted S.heap shared (· + 1)
      handles := S.handles++[some ⟨c.ptr,c.len,shared⟩]
      clones := S.clones.erase c } := by
  obtain ⟨_,covers,r,here⟩ := inv.clones c mem
  obtain ⟨word,live⟩ := inv.node_live here done
  have other : ∀ p ∈ candidates S.clones, p.prov ≠ shared.prov := by
    have distinct := inv.distinct
    rw [done] at distinct
    intro p mem same
    exact (List.nodup_cons.mp distinct).1 (same ▸ List.mem_map_of_mem mem)
  have more : holders { S with
      heap := Shared.recounted S.heap shared (· + 1)
      handles := S.handles++[some ⟨c.ptr,c.len,shared⟩]
      clones := S.clones.erase c } = S.holders+1 := by
    simp only [holders,Race.live,List.countP_append,List.countP_singleton,Option.isSome_some,↓reduceIte]
    omega
  constructor
  case installed => simp [inv.installed,Event.installed]
  case returned =>
    intro r mem
    rcases List.mem_append.mp mem with old | new
    · exact inv.returned r old
    · simp only [List.mem_singleton,Event.returns.injEq] at new
      rw [new,done]
  case word =>
    intro i r here
    rcases get_append here with old | ⟨_,rfl⟩
    · exact inv.word i r old
    · exact ⟨by simp [done],covers⟩
  case first =>
    intro r here'
    rcases get_append here' with old | ⟨none,_⟩
    · exact inv.first r old
    · have := (List.getElem?_eq_some_iff.mp here).1
      omega
  case alone => simp [done]
  case node =>
    intro shared' done'
    obtain rfl : shared = shared' := by simpa [done] using done'
    refine ⟨word,?_⟩
    rw [more,if_neg (Nat.succ_ne_zero _),Shared.recounted_live _ live]
    rfl
  case clones =>
    intro c' later
    obtain ⟨fits,covers,r,here⟩ := inv.clones c' (List.mem_of_mem_erase later)
    exact ⟨fits,covers,r,get_append_old here⟩
  case built =>
    intro p later
    obtain ⟨word,built⟩ := inv.built p (candidates_erase later)
    exact ⟨word,by rw [Shared.recounted,Arena.get_update_ne (other p (candidates_erase later)),built]⟩
  case distinct =>
    have whole := (((candidates_perm mem).append_left o.toList).map Ptr.prov).nodup_iff.mp inv.distinct
    exact whole.sublist (((List.sublist_append_right _ _).append_left _).map _)
  case drops => exact inv.drops
  case once =>
    have once := inv.once
    rw [if_neg (holders_pos here)] at once
    rw [more,if_neg (Nat.succ_ne_zero _)]
    simpa [Event.isFree] using once
  case kept =>
    intro none
    exact inv.kept (by simpa [Event.isFree] using none)
  case freed => exact fun vec mem => inv.freed vec (by simpa using mem)

/-- Before a node is installed there is one handle, and no count to change. -/
theorem first_alone (inv : S.Inv H₀ b offset none evs) (here : S.handles[i]? = some (some r)) :
    i = 0 ∧ S.handles = [some r] ∧ S.holders = 1 := by
  obtain ⟨h,only⟩ := List.length_eq_one_iff.mp (inv.alone rfl)
  rw [only] at here
  have low := (List.getElem?_eq_some_iff.mp here).1
  obtain rfl : i = 0 := by simpa using low
  obtain rfl : h = some r := by simpa using here
  have idle : S.drops.countP Release.holds = 0 := by
    rw [List.countP_eq_zero]
    intro r mem holds
    cases r with
    | fetch_sub shared => cases inv.drops _ mem
    | free vec => cases holds
  exact ⟨rfl,only,by simp [holders,Race.live,only,idle]⟩

/-- The candidate of a call is installed. -/
theorem wins (inv : S.Inv H₀ b offset none evs) (mem : c ∈ S.clones) (built : c.next.candidate = some new)
    (here : S.handles[c.handle]? = some (some r)) :
    Inv H₀ b offset (some new) (evs++[.installs c.handle new,.returns ⟨c.ptr,c.len,new⟩]) { S with
      handles := S.handles.set c.handle (some { r with data := new })++[some ⟨c.ptr,c.len,new⟩]
      clones := S.clones.erase c } := by
  obtain ⟨zero,only,one⟩ := inv.first_alone here
  obtain ⟨_,covers,_⟩ := inv.clones c mem
  have perm := candidates_perm mem
  rw [built] at perm
  obtain ⟨word,live⟩ := inv.built new (perm.mem_iff.mpr (by simp))
  have handles : S.handles.set c.handle (some { r with data := new })++[some ⟨c.ptr,c.len,new⟩] =
      [some { r with data := new },some ⟨c.ptr,c.len,new⟩] := by
    rw [zero,only]
    rfl
  rw [zero] at here
  rw [handles]
  have two : holders { S with
      handles := [some { r with data := new },some ⟨c.ptr,c.len,new⟩]
      clones := S.clones.erase c } = 2 := by
    have one := one
    simp only [holders,Race.live,only,List.countP_cons,List.countP_nil,Option.isSome_some,↓reduceIte] at one ⊢
    omega
  have places : ∀ {i : Nat} {r' : Bytes}, [some { r with data := new },some ⟨c.ptr,c.len,new⟩][i]? = some (some r') →
      (i = 0 ∧ r' = { r with data := new }) ∨ (i = 1 ∧ r' = ⟨c.ptr,c.len,new⟩) := by
    intro i r' at_
    match i, at_ with
    | 0,at_ => exact .inl ⟨rfl,by simpa using at_.symm⟩
    | 1,at_ => exact .inr ⟨rfl,by simpa using at_.symm⟩
  constructor
  case installed => simp [inv.installed,Event.installed,zero]
  case returned =>
    intro r mem
    rcases List.mem_append.mp mem with old | last
    · cases inv.returned r old
    · simp only [List.mem_cons,reduceCtorEq,Event.returns.injEq,List.not_mem_nil,or_false,false_or] at last
      rw [last]
  case word =>
    intro i r' at_
    rcases places at_ with ⟨_,rfl⟩ | ⟨_,rfl⟩
    · exact ⟨rfl,(inv.word 0 r here).2⟩
    · exact ⟨rfl,covers⟩
  case first =>
    intro r' at_
    rcases places at_ with ⟨_,rfl⟩ | ⟨one,_⟩
    · exact inv.first r here
    · cases one
  case alone => simp
  case node =>
    rintro _ ⟨⟩
    exact ⟨word,by rw [two]; exact live⟩
  case clones =>
    intro c' later
    have mem' := List.mem_of_mem_erase later
    obtain ⟨fits,covers,r',at_⟩ := inv.clones c' mem'
    obtain ⟨zero',_⟩ := inv.first_alone at_
    refine ⟨?_,covers,_,by rw [zero']; rfl⟩
    unfold Clone.Fits at fits ⊢
    cases found : c'.next with
    | load => trivial
    | promote k shared => simpa only [found] using fits
    | compare_exchange shared p => simpa only [found] using fits
    | release p promoted_shared => simp [found] at fits
    | increment shared => simp [found] at fits
  case built => exact fun p later => inv.built p (candidates_erase later)
  case distinct =>
    exact (perm.map Ptr.prov).nodup_iff.mp inv.distinct
  case drops =>
    intro d mem
    cases d with
    | fetch_sub shared => cases inv.drops _ mem
    | free vec => exact inv.drops _ mem
  case once =>
    have once := inv.once
    rw [one] at once
    rw [two]
    simpa [Event.isFree] using once
  case kept =>
    intro none
    exact inv.kept (by simpa [Event.isFree] using none)
  case freed => exact fun vec mem => inv.freed vec (by simpa using mem)

end Inv

theorem ticked_goes (here : S.handles[c.handle]? = some (some r)) (quiet : c.next.events = []) :
    S.ticked c r (.error next) H' r = ([],{ S with heap := H', clones := { c with next } :: S.clones.erase c }) := by
  simp [ticked,set_same here,quiet]
theorem ticked_returns (here : S.handles[c.handle]? = some (some r)) (quiet : c.next.events = []) :
    S.ticked c r (.ok { r with data := shared }) H' r = ([.returns ⟨c.ptr,c.len,shared⟩],{ S with
      heap := H'
      handles := S.handles++[some ⟨c.ptr,c.len,shared⟩]
      clones := S.clones.erase c }) := by
  simp [ticked,set_same here,quiet]

/-- What a step of a call on the handle `r` does while `o` is installed. -/
inductive Effect (A : Allocator) (b : Bytes) (offset : Nat) (o : Option Ptr) (S : Race) (c : Clone) (r : Bytes) :
    Except Cloning Bytes → Heap → Bytes → Prop where
  | promotes (loads : c.next = .load) (unpromoted : o = none) (zero : c.handle = 0) :
    Effect A b offset o S c r (.error (.promote offset b.data)) S.heap r
  | shares {shared : Ptr} (loads : c.next = .load) (promoted : o = some shared) :
    Effect A b offset o S c r (.error (.increment shared)) S.heap r
  | builds (builds : c.next = .promote offset b.data) (zero : c.handle = 0) :
    Effect A b offset o S c r (.error (.compare_exchange b.data ⟨A.node S.heap,S.heap.nodes.bound⟩))
      (Cloning.candidate_built A S.heap (b.ptr.sub offset) (b.len+offset)) r
  | wins {new : Ptr} (exchanges : c.next = .compare_exchange b.data new) (unpromoted : o = none) (other : new ≠ r.data) :
    Effect A b offset o S c r (.ok { r with data := new }) S.heap { r with data := new }
  | loses {new shared : Ptr} (exchanges : c.next = .compare_exchange b.data new) (promoted : o = some shared) :
    Effect A b offset o S c r (.error (.release (.fetch_sub new) shared)) S.heap r
  | backs_out {new shared : Ptr} (releases : c.next = .release (.fetch_sub new) shared) (promoted : o = some shared) :
    Effect A b offset o S c r (.error (.increment shared)) (Shared.recounted S.heap new (· - 1)) r
  | returns {shared : Ptr} (increments : c.next = .increment shared) (promoted : o = some shared) :
    Effect A b offset o S c r (.ok { r with data := shared }) (Shared.recounted S.heap shared (· + 1)) r

/-- A node has more references than can be counted. -/
def Crowded (S : Race) : Prop := ∃ shared, isizeMax < S.ref_count shared

/-- Every step of a call has one of the effects, and none touches what is not there. -/
theorem Inv.effect (inv : S.Inv H₀ b offset o evs) (word : hold b.data = .unpromoted offset)
    (spans : Spans H₀ (b.ptr.sub offset) (b.len+offset)) (mem : c ∈ S.clones) (here : S.handles[c.handle]? = some (some r)) :
    Sat (c.next.step A) (S.heap,r) (fun next p => Effect A b offset o S c r next p.1 p.2)
      (fun k _ => k = .abort ∧ S.Crowded) := by
  have perm := candidates_perm mem
  have fits := (inv.clones c mem).1
  have data := (inv.word _ r here).1
  unfold Clone.Fits at fits
  cases found : c.next with
  | load =>
    cases o with
    | none =>
      have data : r.data = b.data := data
      rw [sat_of_ok (Cloning.load_unpromoted (by rw [data]; exact word)),data]
      exact .promotes found rfl (inv.first_alone here).1
    | some shared =>
      obtain rfl : r.data = shared := data
      obtain ⟨word',live⟩ := inv.node_live here rfl
      rw [sat_of_ok (Cloning.load_promoted word' live rfl)]
      exact .shares found rfl
  | promote k shared =>
    simp only [found] at fits
    obtain ⟨rfl,rfl,zero⟩ := fits
    obtain ⟨ptr,len⟩ := inv.first r (zero ▸ here)
    have spans' : Spans S.heap (r.ptr.sub k) (r.len+k) := by
      rw [ptr,len]
      exact inv.spans spans (inv.not_freed here).1
    rw [sat_of_ok (Cloning.promote_ok spans'),ptr,len]
    exact .builds found zero
  | compare_exchange shared new_shared =>
    have built : c.next.candidate = some new_shared := by rw [found]; rfl
    simp only [found] at fits
    obtain ⟨rfl,zero⟩ := fits
    obtain ⟨word',_⟩ := inv.built new_shared (perm.mem_iff.mpr (by simp [built]))
    cases o with
    | none =>
      have data : r.data = b.data := data
      have other : new_shared ≠ r.data := by
        rintro rfl
        rw [data,word] at word'
        cases word'
      have won : (Cloning.compare_exchange r.data new_shared).step A (S.heap,r) = _ := Cloning.exchange_won
      rw [data] at won
      rw [sat_of_ok won]
      exact .wins found rfl other
    | some shared =>
      obtain rfl : r.data = shared := data
      have other : r.data ≠ b.data := by
        intro same
        have := (inv.node _ rfl).1
        rw [same,word] at this
        cases this
      rw [sat_of_ok (Cloning.exchange_lost other)]
      exact .loses found rfl
  | release p promoted_shared =>
    simp only [found] at fits
    obtain ⟨⟨new_shared,rfl⟩,rfl⟩ := fits
    have built : c.next.candidate = some new_shared := by rw [found]; rfl
    obtain ⟨_,live⟩ := inv.built new_shared (perm.mem_iff.mpr (by simp [built]))
    rw [sat_of_ok (Cloning.release_more live rfl (by simp))]
    exact .backs_out found rfl
  | increment shared =>
    simp only [found] at fits
    obtain ⟨_,live⟩ := inv.node_live here fits
    refine (Cloning.increment_spec live rfl).mono ?_ ?_
    · rintro _ _ ⟨rfl,rfl⟩
      exact .returns found fits
    · rintro k _ ⟨abort,many⟩
      refine ⟨abort,shared,?_⟩
      rw [ref_count,live]
      exact many

/-- What is installed once a handle has become another. -/
def after (o : Option Ptr) (r r' : Bytes) : Option Ptr := if r'.data = r.data then o else some r'.data

@[simp] theorem after_same : after o r r = o := if_pos rfl

/-- Every step of a call keeps the invariant. -/
theorem Inv.tick {next : Except Cloning Bytes} {r' : Bytes} (inv : S.Inv H₀ b offset o evs) (mem : c ∈ S.clones)
    (here : S.handles[c.handle]? = some (some r)) (effect : Effect A b offset o S c r next H' r') :
    Inv H₀ b offset (after o r r') (evs++(S.ticked c r next H' r').1) (S.ticked c r next H' r').2 := by
  have perm := candidates_perm mem
  have whole := ((perm.append_left o.toList).map Ptr.prov).nodup_iff.mp inv.distinct
  cases effect with
  | promotes loads unpromoted zero =>
    rw [loads] at whole
    rw [ticked_goes here (by rw [loads]; rfl),List.append_nil,after_same]
    exact inv.goes mem ⟨rfl,rfl,zero⟩ rfl (fun _ _ => rfl) nofun whole
  | shares loads promoted =>
    rw [loads] at whole
    rw [ticked_goes here (by rw [loads]; rfl),List.append_nil,after_same]
    exact inv.goes mem promoted rfl (fun _ _ => rfl) nofun whole
  | builds builds zero =>
    rw [builds] at whole
    rw [ticked_goes here (by rw [builds]; rfl),List.append_nil,after_same]
    have old : ∀ p ∈ o.toList++candidates (S.clones.erase c), p.prov < S.heap.nodes.bound := by
      intro p mem'
      rcases List.mem_append.mp mem' with installed | other
      · exact Arena.lt_bound (inv.node_live here (by simpa using installed)).2
      · exact Arena.lt_bound (inv.built p (candidates_erase other)).2
    refine inv.goes mem ⟨rfl,zero⟩ rfl (fun p mem' => Arena.get_insert_ne (Nat.ne_of_lt (old p mem'))) ?_ ?_
    · rintro _ ⟨⟩
      obtain ⟨pos,even⟩ := A.aligned S.heap
      exact ⟨Shared.hold_promoted.mpr ⟨by simp only; omega,pos⟩,Arena.get_insert_bound⟩
    · refine installed_perm.nodup_iff.mpr (List.nodup_cons.mpr ⟨?_,whole⟩)
      intro again
      obtain ⟨p,mem',same⟩ := List.mem_map.mp again
      exact Nat.ne_of_lt (old p mem') same
  | @wins new exchanges unpromoted other =>
    subst unpromoted
    have leads : S.ticked c r (.ok { r with data := new }) S.heap { r with data := new } =
        ([.installs c.handle new,.returns ⟨c.ptr,c.len,new⟩],{ S with
          handles := S.handles.set c.handle (some { r with data := new })++[some ⟨c.ptr,c.len,new⟩]
          clones := S.clones.erase c }) := by
      simp [ticked,other,exchanges,Cloning.events]
    rw [leads,after,if_neg other]
    exact inv.wins mem (by rw [exchanges]; rfl) here
  | @loses new shared exchanges promoted =>
    rw [exchanges] at whole
    rw [ticked_goes here (by rw [exchanges]; rfl),List.append_nil,after_same]
    refine inv.goes mem ⟨⟨_,rfl⟩,promoted⟩ rfl (fun _ _ => rfl) ?_ whole
    rintro _ ⟨⟩
    exact inv.built new (perm.mem_iff.mpr (by simp [exchanges,Cloning.candidate]))
  | @backs_out new shared releases promoted =>
    rw [releases] at whole
    rw [ticked_goes here (by rw [releases]; rfl),List.append_nil,after_same]
    have split := installed_perm.nodup_iff.mp whole
    obtain ⟨apart,rest⟩ := List.nodup_cons.mp split
    refine inv.goes mem promoted rfl (fun p mem' => Arena.get_update_ne ?_) nofun rest
    intro same
    exact apart (same ▸ List.mem_map_of_mem mem')
  | returns increments promoted =>
    rw [ticked_returns here (by rw [increments]; rfl),after_same]
    exact inv.returns mem promoted

/-! #### Borrows -/

theorem Inv.view_covers {q : Request} {p : Ptr} (inv : S.Inv H₀ b offset o evs) (here : S.handles[i]? = some (some r))
    (view : q.view r = some (p,n)) : b.Covers p n := by
  obtain ⟨k,start,fits⟩ := (inv.word i r here).2
  cases q with
  | clone =>
    cases view
    exact ⟨k,start,fits⟩
  | slice lo hi =>
    simp only [Request.view,Option.ite_none_right_eq_some,Option.some.injEq,Prod.mk.injEq] at view
    obtain ⟨⟨_,_⟩,rfl,rfl⟩ := view
    refine ⟨k+lo,?_,by omega⟩
    rw [start]
    exact Ptr.ext (by simp only [Ptr.add]; omega) rfl

theorem Inv.borrows {p : Ptr} (inv : S.Inv H₀ b offset o evs) (here : S.handles[i]? = some (some r)) (covers : b.Covers p n) :
    Inv H₀ b offset o evs { S with clones := ⟨i,p,n,.load⟩ :: S.clones } where
  installed := inv.installed
  returned := inv.returned
  word := inv.word
  first := inv.first
  alone := inv.alone
  node := inv.node
  clones c mem := by
    rcases List.mem_cons.mp mem with rfl | old
    · exact ⟨trivial,covers,r,here⟩
    · exact inv.clones c old
  built := inv.built
  distinct := inv.distinct
  drops := inv.drops
  once := inv.once
  kept := inv.kept
  freed := inv.freed

/-! #### Drops -/

/-- A handle that no call borrows is put down, with its reference still to give up or its buffer
    still to free. -/
theorem Inv.put_down {d : Release} (inv : S.Inv H₀ b offset o evs) (here : S.handles[i]? = some (some r))
    (unlent : ∀ c ∈ S.clones, c.handle ≠ i) (fits : d.Fits b offset o) (last : d.holds = false → o = none) :
    Inv H₀ b offset o evs { S with handles := S.handles.set i none, drops := d :: S.drops } := by
  have old := inv.once
  rw [if_neg (holders_pos here)] at old
  have less : live { S with handles := S.handles.set i none, drops := d :: S.drops }+1 = S.live := countP_set here
  have same : d.holds = true → holders { S with handles := S.handles.set i none, drops := d :: S.drops } = S.holders := by
    intro holds
    simp only [holders,List.countP_cons,holds,↓reduceIte]
    omega
  have places : ∀ {j : Nat} {r' : Bytes}, (S.handles.set i none)[j]? = some (some r') → S.handles[j]? = some (some r') := by
    intro j r' at_
    rw [List.getElem?_set] at at_
    split_ifs at at_
    · simp at at_
    · exact at_
  constructor
  case installed => exact inv.installed
  case returned => exact inv.returned
  case word => exact fun j r' at_ => inv.word j r' (places at_)
  case first => exact fun r' at_ => inv.first r' (places at_)
  case alone => simpa using inv.alone
  case node =>
    intro shared done
    have holds : d.holds = true := by
      by_contra free
      rw [last (by simpa using free)] at done
      cases done
    rw [same holds]
    exact inv.node shared done
  case clones =>
    intro c mem
    obtain ⟨fits,covers,r',at_⟩ := inv.clones c mem
    exact ⟨fits,covers,r',by rw [List.getElem?_set_ne (unlent c mem).symm,at_]⟩
  case built => exact inv.built
  case distinct => exact inv.distinct
  case drops =>
    intro d' mem
    rcases List.mem_cons.mp mem with rfl | later
    · exact fits
    · exact inv.drops d' later
  case once =>
    cases holds : d.holds with
    | true =>
      rw [same holds,if_neg (holders_pos here)]
      simpa [List.countP_cons,holds] using old
    | false =>
      obtain rfl := last holds
      have one := (inv.first_alone here).2.2
      have none_left : holders { S with handles := S.handles.set i none, drops := d :: S.drops } = 0 := by
        simp only [holders,List.countP_cons,holds,Bool.false_eq_true,↓reduceIte] at one ⊢
        have := live_pos here
        omega
      rw [none_left]
      simp only [↓reduceIte,List.countP_cons,holds,Bool.not_false]
      omega
  case kept => exact inv.kept
  case freed => exact inv.freed

theorem Inv.drop_begin (inv : S.Inv H₀ b offset o evs) (word : hold b.data = .unpromoted offset)
    (spans : Spans H₀ (b.ptr.sub offset) (b.len+offset)) (here : S.handles[i]? = some (some r)) : Sat r.drop_begin S.heap
      (fun d H' => H' = S.heap ∧ ∃ d', d = some d' ∧ d'.Fits b offset o ∧ (d'.holds = false → o = none)) (fun _ _ => False) := by
  have data := (inv.word i r here).1
  simp only [Bytes.drop_begin]
  cases o with
  | none =>
    have word' : hold r.data = .unpromoted offset := by rw [data]; exact word
    obtain ⟨rfl,_⟩ := inv.first_alone here
    obtain ⟨ptr,len⟩ := inv.first r here
    have spans' : Spans S.heap (r.ptr.sub offset) (r.len+offset) := by
      rw [ptr,len]
      exact inv.spans spans (inv.not_freed here).1
    rw [if_neg (by rw [Shared.is_null_iff,word']; exact Hold.noConfusion)]
    simp only [sat_bind]
    rw [sat_of_ok (show Shared.into_unpromoted r.data S.heap = _ from Shared.as_unpromoted_offset word')]
    simp only [sat_bind,sat_pure,Bytes.build_unpromoted_vec]
    rw [sat_of_ok (from_raw_parts_ok spans' (Nat.le_refl _))]
    exact ⟨rfl,_,rfl,by rw [ptr,len]; exact ⟨rfl,rfl⟩,fun _ => trivial⟩
  | some shared =>
    obtain rfl : r.data = shared := data
    obtain ⟨word',live⟩ := inv.node_live here rfl
    rw [if_neg (by rw [Shared.is_null_iff,word']; exact Hold.noConfusion)]
    simp only [sat_bind]
    rw [sat_of_ok (show Shared.into_unpromoted r.data S.heap = _ from Shared.as_unpromoted_node word' live rfl)]
    exact ⟨rfl,_,rfl,rfl,fun bad => by cases bad⟩

theorem Inv.no_clones (inv : S.Inv H₀ b offset o evs) (gone : S.holders = 0) : S.clones = [] := by
  rw [List.eq_nil_iff_forall_not_mem]
  intro c mem
  obtain ⟨_,_,r,here⟩ := inv.clones c mem
  exact holders_pos here gone

/-- A change of the drops alone, and of what they have a reference to. -/
theorem Inv.settle {L : List Release} {new : List Event} (inv : S.Inv H₀ b offset o evs)
    (frees : ∀ e ∈ new, ∃ vec, e = .frees vec ∧ vec.ptr = b.ptr.sub offset ∧ vec.cap = b.len+offset)
    (left : S.live+L.countP Release.holds = n)
    (node : ∀ shared, o = some shared → H'.nodes.get shared.prov =
      if n = 0 then none else some ⟨shared.addr,⟨n,b.ptr.sub offset,b.len+offset⟩⟩)
    (built : ∀ p ∈ candidates S.clones, H'.nodes.get p.prov = S.heap.nodes.get p.prov)
    (drops : ∀ r ∈ L, r.Fits b offset o)
    (once : (if n = 0 then 0 else 1)+L.countP (fun r => !r.holds)+(evs.countP Event.isFree+new.length) = 1)
    (kept : new = [] → H'.mem = S.heap.mem) : Inv H₀ b offset o (evs++new) { S with heap := H', drops := L } := by
  have all : new.countP Event.isFree = new.length := by
    rw [List.countP_eq_length]
    intro e mem
    obtain ⟨vec,rfl,_⟩ := frees e mem
    rfl
  have holders : holders { S with heap := H', drops := L } = n := left
  constructor
  case installed =>
    have none_new : new.filterMap Event.installed = [] := by
      rw [List.filterMap_eq_nil_iff]
      intro e mem
      obtain ⟨vec,rfl,_⟩ := frees e mem
      rfl
    rw [List.filterMap_append,none_new,List.append_nil,inv.installed]
  case returned =>
    intro r mem
    rcases List.mem_append.mp mem with old | last
    · exact inv.returned r old
    · obtain ⟨vec,same,_⟩ := frees _ last
      cases same
  case word => exact inv.word
  case first => exact inv.first
  case alone => exact inv.alone
  case node => exact fun shared done => ⟨(inv.node shared done).1,by rw [holders]; exact node shared done⟩
  case clones => exact inv.clones
  case built => exact fun p mem => ⟨(inv.built p mem).1,(built p mem).trans (inv.built p mem).2⟩
  case distinct => exact inv.distinct
  case drops => exact drops
  case once =>
    rw [List.countP_append,all,holders]
    exact once
  case kept =>
    intro none
    rw [List.countP_append,all] at none
    have empty : new = [] := List.length_eq_zero_iff.mp (by omega)
    rw [kept empty]
    exact inv.kept (by omega)
  case freed =>
    intro vec mem
    rcases List.mem_append.mp mem with old | last
    · exact inv.freed vec old
    · obtain ⟨_,⟨⟩,whole⟩ := frees _ last
      exact whole

/-- What a step of a release does while `o` is installed. -/
inductive Undoes (b : Bytes) (offset : Nat) (o : Option Ptr) (S : Race) : Release → Option Release → Heap → Prop where
  | more {shared : Ptr} (promoted : o = some shared) (many : 1 < S.holders) :
    Undoes b offset o S (.fetch_sub shared) none (Shared.recounted S.heap shared (· - 1))
  | last {shared : Ptr} (promoted : o = some shared) (one : S.holders = 1) :
    Undoes b offset o S (.fetch_sub shared) (some (.free ⟨b.ptr.sub offset,0,b.len+offset⟩))
      { S.heap with nodes := S.heap.nodes.free shared.prov }
  | frees {vec : Vec} (gone : S.holders = 0) (ptr : vec.ptr = b.ptr.sub offset) (cap : vec.cap = b.len+offset) :
    Undoes b offset o S (.free vec) none (if vec.cap = 0 then S.heap else { S.heap with mem := S.heap.mem.free vec.ptr.prov })

theorem holders_drop {d : Release} (mem : d ∈ S.drops) :
    S.holders = S.live+((S.drops.erase d).countP Release.holds+if d.holds then 1 else 0) := by
  rw [holders,(List.perm_cons_erase mem).countP_eq,List.countP_cons]

/-- Once no reference is left to give up, one free is left. -/
theorem Inv.once_drop {d : Release} (inv : S.Inv H₀ b offset o evs) (mem : d ∈ S.drops) :
    (if S.holders = 0 then 0 else 1)+((S.drops.erase d).countP (fun r => !r.holds)+if !d.holds then 1 else 0)+
      evs.countP Event.isFree = 1 := by
  have once := inv.once
  rwa [(List.perm_cons_erase mem).countP_eq,List.countP_cons] at once

theorem Inv.undoes {d : Release} (inv : S.Inv H₀ b offset o evs) (spans : Spans H₀ (b.ptr.sub offset) (b.len+offset))
    (mem : d ∈ S.drops) : Sat d.step S.heap (fun d' H' => Undoes b offset o S d d' H') (fun _ _ => False) := by
  have fits := inv.drops d mem
  have once := inv.once_drop mem
  have before := holders_drop mem
  cases d with
  | fetch_sub shared =>
    obtain rfl : o = some shared := fits
    have node := (inv.node shared rfl).2
    simp only [Release.holds_fetch_sub,↓reduceIte] at before
    rw [if_neg (by omega)] at node once
    by_cases last : S.holders = 1
    · rw [sat_of_ok (Release.fetch_sub_last node rfl last (inv.spans spans (by omega)))]
      exact .last rfl last
    · rw [sat_of_ok (Release.fetch_sub_more node rfl last)]
      exact .more rfl (by omega)
  | free vec =>
    obtain ⟨ptr,cap⟩ := fits
    simp only [Release.holds_free,Bool.not_false,↓reduceIte] at once
    have gone : S.holders = 0 := by
      by_contra some'
      rw [if_neg some'] at once
      omega
    rw [if_pos gone] at once
    have spans' := inv.spans spans (by omega)
    rw [sat_of_ok (Release.free_ok (by rw [ptr,cap]; exact spans'))]
    exact .frees gone ptr cap

/-- Every step of a drop keeps the invariant, and the last one frees the buffer. -/
theorem Inv.finish {d : Release} {d' : Option Release} (inv : S.Inv H₀ b offset o evs) (mem : d ∈ S.drops)
    (undoes : Undoes b offset o S d d' H') :
    Inv H₀ b offset o (evs++d.events) { S with heap := H', drops := d'.toList++S.drops.erase d } := by
  have later : ∀ r ∈ S.drops.erase d, r.Fits b offset o := fun r mem => inv.drops r (List.mem_of_mem_erase mem)
  have once := inv.once_drop mem
  have before := holders_drop mem
  have apart : ∀ shared, o = some shared → ∀ p ∈ candidates S.clones, p.prov ≠ shared.prov := by
    rintro shared rfl p mem' same
    exact (List.nodup_cons.mp inv.distinct).1 (same ▸ List.mem_map_of_mem mem')
  cases undoes with
  | @more shared promoted many =>
    have node := (inv.node shared promoted).2
    simp only [Release.holds_fetch_sub,↓reduceIte] at before
    simp only [Release.holds_fetch_sub,Bool.not_true,Bool.false_eq_true,↓reduceIte] at once
    rw [if_neg (by omega)] at node once
    have left : S.live+(S.drops.erase (.fetch_sub shared)).countP Release.holds = S.holders-1 := by omega
    refine inv.settle nofun left ?_ ?_ later ?_ (fun _ => rfl)
    · intro shared' promoted'
      obtain rfl : shared = shared' := by simpa [promoted] using promoted'
      rw [if_neg (by omega),Shared.recounted_live _ node]
      rfl
    · exact fun p mem' => Arena.get_update_ne (apart shared promoted p mem')
    · rw [if_neg (by omega)]
      exact once
  | @last shared promoted one =>
    simp only [Release.holds_fetch_sub,↓reduceIte] at before
    simp only [Release.holds_fetch_sub,Bool.not_true,Bool.false_eq_true,↓reduceIte] at once
    rw [if_neg (by omega)] at once
    have left : S.live+(Release.free ⟨b.ptr.sub offset,0,b.len+offset⟩ :: S.drops.erase (.fetch_sub shared)).countP
        Release.holds = 0 := by
      rw [List.countP_cons]
      simp only [Release.holds_free,Bool.false_eq_true,↓reduceIte]
      omega
    refine inv.settle nofun left ?_ ?_ ?_ ?_ (fun _ => rfl)
    · intro shared' promoted'
      obtain rfl : shared = shared' := by simpa [promoted] using promoted'
      exact Arena.get_free_self
    · exact fun p mem' => Arena.get_free_ne (apart shared promoted p mem')
    · intro r mem'
      rcases List.mem_cons.mp mem' with rfl | old
      · exact ⟨rfl,rfl⟩
      · exact later r old
    · simp only [Option.toList_some,List.singleton_append,List.countP_cons,Release.holds_free,Bool.not_false,↓reduceIte,
        Release.events,List.length_nil]
      omega
  | @frees vec gone ptr cap =>
    simp only [Release.holds_free,Bool.false_eq_true,↓reduceIte,Nat.add_zero] at before
    simp only [Release.holds_free,Bool.not_false,↓reduceIte] at once
    rw [if_pos gone] at once
    refine inv.settle (fun e mem => ?_) (before.symm.trans gone) ?_ ?_ later ?_ nofun
    · exact ⟨vec,List.mem_singleton.mp mem,ptr,cap⟩
    · intro shared promoted
      have node := (inv.node shared promoted).2
      rw [if_pos gone] at node
      rw [if_pos rfl]
      split_ifs <;> exact node
    · rw [inv.no_clones gone]
      nofun
    · simp only [Option.toList_none,List.nil_append,Release.events,List.length_singleton,↓reduceIte]
      omega

/-! ### Runs -/

/-- A race on a handle whose word is unpromoted begins with the invariant. -/
theorem start_inv : (start H b).Inv H b offset none [] where
  installed := rfl
  returned := nofun
  word i r here := by
    have low : i < 1 := (List.getElem?_eq_some_iff.mp here).1
    obtain rfl : i = 0 := by omega
    obtain rfl : b = r := by simpa [start] using here
    exact ⟨rfl,0,rfl,by omega⟩
  first r here := by
    obtain rfl : b = r := by simpa [start] using here
    exact ⟨rfl,rfl⟩
  alone _ := rfl
  node := nofun
  clones := nofun
  built := nofun
  distinct := .nil
  drops := nofun
  once := by simp [holders,Race.live,start]
  kept _ := rfl
  freed := nofun

/-- What a turn that does not stop leads to while `o` is installed. -/
inductive Takes (A : Allocator) (b : Bytes) (offset : Nat) (o : Option Ptr) (S : Race) : Turn → List Event → Race → Prop where
  | borrow {i : Nat} {q : Request} {r : Bytes} {p : Ptr} {n : Nat} (here : S.handles[i]? = some (some r))
    (view : q.view r = some (p,n)) : Takes A b offset o S (.borrow i q) [] { S with clones := ⟨i,p,n,.load⟩ :: S.clones }
  | tick {c : Clone} {r r' : Bytes} {next : Except Cloning Bytes} {H' : Heap} (mem : c ∈ S.clones)
    (here : S.handles[c.handle]? = some (some r)) (effect : Effect A b offset o S c r next H' r') :
    Takes A b offset o S (.tick c) (S.ticked c r next H' r').1 (S.ticked c r next H' r').2
  | drop {i : Nat} {r : Bytes} {d : Release} (here : S.handles[i]? = some (some r)) (unlent : ∀ c ∈ S.clones, c.handle ≠ i)
    (fits : d.Fits b offset o) (last : d.holds = false → o = none) :
    Takes A b offset o S (.drop i) [] { S with handles := S.handles.set i none, drops := d :: S.drops }
  | finish {d : Release} {d' : Option Release} {H' : Heap} (mem : d ∈ S.drops) (undoes : Undoes b offset o S d d' H') :
    Takes A b offset o S (.finish d) d.events { S with heap := H', drops := d'.toList++S.drops.erase d }

/-- A turn leads there, or a count overflows. -/
theorem Inv.takes {t : Turn} {result : Except Stop (List Event × Race)} (inv : S.Inv H₀ b offset o evs)
    (word : hold b.data = .unpromoted offset) (spans : Spans H₀ (b.ptr.sub offset) (b.len+offset))
    (moved : S.move A t = some result) :
    result = .error .abort ∧ S.Crowded ∨ ∃ new S', result = .ok (new,S') ∧ Takes A b offset o S t new S' := by
  cases t with
  | borrow i q =>
    simp only [Race.move,Option.bind_eq_bind,Option.bind_eq_some_iff,Option.join_eq_some_iff,Option.pure_def,
      Option.some.injEq] at moved
    obtain ⟨r,here,⟨ptr,len⟩,view,rfl⟩ := moved
    exact .inr ⟨_,_,rfl,.borrow here view⟩
  | tick c =>
    simp only [Race.move,Option.bind_eq_bind,Option.bind_eq_some_iff,Option.join_eq_some_iff,Option.pure_def,
      Option.ite_none_right_eq_some,Option.some.injEq] at moved
    obtain ⟨r,here,mem,rfl⟩ := moved
    have effect := inv.effect (A := A) word spans mem here
    rw [Race.tick]
    rcases run : c.next.step A (S.heap,r) with ⟨k | next,H',r'⟩
    · rw [sat_of_error run] at effect
      obtain ⟨rfl,crowded⟩ := effect
      exact .inl ⟨rfl,crowded⟩
    · rw [sat_of_ok run] at effect
      exact .inr ⟨_,_,rfl,.tick mem here effect⟩
  | drop i =>
    simp only [Race.move,Option.bind_eq_bind,Option.bind_eq_some_iff,Option.join_eq_some_iff,Option.pure_def,
      Option.ite_none_right_eq_some,Option.some.injEq] at moved
    obtain ⟨r,here,unlent,rfl⟩ := moved
    have begins := inv.drop_begin word spans here
    rw [Race.drop]
    rcases run : r.drop_begin S.heap with ⟨k | d,H'⟩
    · rw [sat_of_error run] at begins
      exact begins.elim
    · rw [sat_of_ok run] at begins
      obtain ⟨rfl,d',rfl,fits,last⟩ := begins
      exact .inr ⟨_,_,rfl,.drop here unlent fits last⟩
  | finish d =>
    simp only [Race.move,Option.ite_none_right_eq_some,Option.some.injEq] at moved
    obtain ⟨mem,rfl⟩ := moved
    have undoes := inv.undoes spans mem
    rw [Race.finish]
    rcases run : d.step S.heap with ⟨k | d',H'⟩
    · rw [sat_of_error run] at undoes
      exact undoes.elim
    · rw [sat_of_ok run] at undoes
      exact .inr ⟨_,_,rfl,.finish mem undoes⟩

/-- Every turn keeps the invariant. -/
theorem Inv.step {t : Turn} {new : List Event} {S' : Race} (inv : S.Inv H₀ b offset o evs)
    (takes : Takes A b offset o S t new S') : ∃ o', S'.Inv H₀ b offset o' (evs++new) := by
  cases takes with
  | borrow here view =>
    rw [List.append_nil]
    exact ⟨o,inv.borrows here (inv.view_covers here view)⟩
  | tick mem here effect => exact ⟨_,inv.tick mem here effect⟩
  | drop here unlent fits last =>
    rw [List.append_nil]
    exact ⟨o,inv.put_down here unlent fits last⟩
  | finish mem undoes => exact ⟨o,inv.finish mem undoes⟩

theorem Inv.move {t : Turn} {new : List Event} {S' : Race} (inv : S.Inv H₀ b offset o evs)
    (word : hold b.data = .unpromoted offset) (spans : Spans H₀ (b.ptr.sub offset) (b.len+offset))
    (moved : S.move A t = some (.ok (new,S'))) : Takes A b offset o S t new S' := by
  obtain ⟨stops,_⟩ | ⟨_,_,⟨⟩,takes⟩ := inv.takes word spans moved
  · cases stops
  · exact takes

theorem Inv.run {evs : List Event} (word : hold b.data = .unpromoted offset)
    (spans : Spans H (b.ptr.sub offset) (b.len+offset)) (run : Run A (start H b) evs S) :
    ∃ o, S.Inv H b offset o evs := by
  induction run with
  | start => exact ⟨none,start_inv⟩
  | step _ moved ih =>
    obtain ⟨o,inv⟩ := ih
    exact inv.step (inv.move word spans moved)

end Race

end Tcio
