import Mathlib.Data.List.Chain
import Tcio.Fmt
import Tcio.Puts

/-!
What `fmt::lossy` writes: the pieces of its text, in order, up to the first that fails. The
text has no line break, and where no backslash and no ambiguous escape is in it, it tells
the bytes.
-/
namespace Tcio
open Exec Fmt

namespace LossyFmt
variable {W : Type} {write_str : WriteStr W} {w : W} {v : List UInt8} {b c : UInt8}

/-! ### Pieces -/

/-- The pieces that are written for a byte. -/
def pieces_of (b : UInt8) : List (List Char) :=
  if b = 0x0d then [['\\','r']]
  else if b = 0x0a then [['\\','n']]
  else if is_ascii_graphic b || is_ascii_whitespace b then [[as_char b]]
  else [['\\','x'],lower_hex b]
def pieces (v : List UInt8) : List (List Char) := v.flatMap pieces_of
/-- With the quotes of `Debug`. -/
def quoted (v : List UInt8) : List (List Char) := ['b','"'] :: (pieces v++[['"']])
def text (v : List UInt8) : List Char := (pieces v).flatten

/-- Write pieces up to the first that fails. -/
def write_all (write_str : WriteStr W) : List (List Char) → Exec W Result
  | [] => return .ok ()
  | piece :: rest => and_then (write_str piece) (write_all write_str rest)

theorem and_then_assoc {x y z : Exec W Result} : and_then (and_then x y) z = and_then x (and_then y z) := by
  unfold and_then
  rw [bind_assoc]
  congr 1
  funext r
  rcases r with err | _
  · exact pure_bind _ _
  · rfl

theorem and_then_done {x : Exec W Result} : and_then x (return .ok ()) = x := by
  unfold and_then
  refine Eq.trans ?_ (bind_pure x)
  congr 1
  funext r
  rcases r with _ | _ <;> rfl

theorem done_and_then {x : Exec W Result} : and_then (return .ok ()) x = x := pure_bind _ _

theorem write_all_append {ps qs : List (List Char)} : write_all write_str (ps++qs) = and_then (write_all write_str ps) (write_all write_str qs) := by
  induction ps with
  | nil => exact done_and_then.symm
  | cons p ps ih => rw [List.cons_append,write_all,write_all,ih,and_then_assoc]

theorem fmt_byte_eq : fmt_byte write_str b = write_all write_str (pieces_of b) := by
  unfold fmt_byte pieces_of
  split_ifs
  all_goals simp only [write_all,and_then_done]

theorem fmt_bytes_eq : fmt_bytes write_str v = write_all write_str (pieces v) := by
  induction v with
  | nil => rfl
  | cons b v ih => rw [pieces,List.flatMap_cons,write_all_append,fmt_bytes,fmt_byte_eq,ih,pieces]

theorem debug_eq : (lossy v).debug write_str = write_all write_str (quoted v) := by
  rw [debug,display,lossy,fmt_bytes_eq,quoted,write_all,write_all_append,write_all,write_all,and_then_done]

/-! ### Where it fails -/

/-- A call of `write_str`. -/
structure Written where
  piece : List Char
  result : Result

/-- Note what is written. -/
def noted (write_str : WriteStr W) : WriteStr (W × List Written) := fun piece => do
  let result ← onFst (write_str piece)
  modify fun p => (p.1,p.2++[⟨piece,result⟩])
  return result

/-- The calls take what is formatted into from `w` to `w'`. -/
def Calls (write_str : WriteStr W) : List Written → W → W → Prop
  | [],w,w' => w' = w
  | c :: calls,w,w' => ∃ w₁, write_str c.piece w = (.ok c.result,w₁) ∧ Calls write_str calls w₁ w'

/-- All pieces are written, or those in front of one that failed. -/
structure Wrote (ps : List (List Char)) (r : Result) (calls : List Written) : Prop where
  inOrder : calls.map Written.piece <+: ps
  done : r = .ok () → calls.map Written.piece = ps ∧ ∀ c ∈ calls, c.result = .ok ()
  failed : r = .error () → ∃ before last, calls = before++[last] ∧ last.result = .error () ∧ ∀ c ∈ before, c.result = .ok ()

/-- The pieces in front of one are written, and at that `write_str` stops. -/
structure Stopped (write_str : WriteStr W) (ps : List (List Char)) (k : Stop) (w : W) (calls : List Written) (w' : W) : Prop where
  fine : ∀ c ∈ calls, c.result = .ok ()
  next : ∃ w₁ piece rest, Calls write_str calls w w₁ ∧ calls.map Written.piece++piece :: rest = ps ∧ write_str piece w₁ = (.error k,w')

theorem Wrote.cons {p : List Char} {ps : List (List Char)} {r : Result} {calls : List Written} (wrote : Wrote ps r calls) :
    Wrote (p :: ps) r (⟨p,.ok ()⟩ :: calls) where
  inOrder := List.cons_prefix_cons.mpr ⟨rfl,wrote.inOrder⟩
  done ok := by
    obtain ⟨all,fine⟩ := wrote.done ok
    exact ⟨by rw [List.map_cons,all],List.forall_mem_cons.mpr ⟨rfl,fine⟩⟩
  failed bad := by
    obtain ⟨before,last,rfl,failed,fine⟩ := wrote.failed bad
    exact ⟨_ :: before,last,rfl,failed,List.forall_mem_cons.mpr ⟨rfl,fine⟩⟩
theorem Stopped.cons {p : List Char} {ps : List (List Char)} {k : Stop} {calls : List Written} {w₁ w' : W}
    (ran : write_str p w = (.ok (.ok ()),w₁)) (stopped : Stopped write_str ps k w₁ calls w') :
    Stopped write_str (p :: ps) k w (⟨p,.ok ()⟩ :: calls) w' where
  fine := List.forall_mem_cons.mpr ⟨rfl,stopped.fine⟩
  next := by
    obtain ⟨w₂,piece,rest,more,rfl,stop⟩ := stopped.next
    exact ⟨w₂,piece,rest,⟨w₁,ran,more⟩,rfl,stop⟩

theorem write_all_wrote (calls : List Written) (ps : List (List Char)) : Sat (write_all (noted write_str) ps) (w,calls)
    (fun r p => ∃ more, p.2 = calls++more ∧ Calls write_str more w p.1 ∧ Wrote ps r more)
    (fun k p => ∃ more, p.2 = calls++more ∧ Stopped write_str ps k w more p.1) := by
  induction ps generalizing w calls with
  | nil => exact ⟨[],(List.append_nil _).symm,rfl,⟨List.nil_prefix,fun _ => ⟨rfl,fun c mem => (by cases mem)⟩,fun bad => (by cases bad)⟩⟩
  | cons piece ps ih =>
    simp only [write_all,and_then,noted,sat_bind,sat_onFst,sat_modify,sat_pure]
    have first : [piece] <+: piece :: ps := ⟨ps,rfl⟩
    rcases ran : write_str piece w with ⟨k | err | _,w₁⟩
    · rw [sat_of_error ran]
      exact ⟨[],(List.append_nil _).symm,fun c mem => (by cases mem),w,piece,ps,rfl,rfl,ran⟩
    · rw [sat_of_ok ran]
      exact ⟨[⟨piece,.error err⟩],rfl,⟨w₁,ran,rfl⟩,first,fun bad => (by cases bad),fun _ => ⟨[],_,rfl,rfl,fun c mem => (by cases mem)⟩⟩
    · rw [sat_of_ok ran]
      refine (ih (calls++[⟨piece,.ok ()⟩])).mono ?_ ?_
      · rintro r ⟨w₂,_⟩ ⟨more,rfl,called,wrote⟩
        exact ⟨⟨piece,.ok ()⟩ :: more,List.append_assoc ..,⟨w₁,ran,called⟩,wrote.cons⟩
      · rintro k ⟨w₂,_⟩ ⟨more,rfl,stopped⟩
        exact ⟨⟨piece,.ok ()⟩ :: more,List.append_assoc ..,stopped.cons ran⟩

/-- How pieces are written into `write_str`, from the start of its calls. -/
def Writes {S : Type} (write_str : WriteStr W) (ps : List (List Char)) (x : Exec (S × W × List Written) Result) (s : S) (w : W) : Prop :=
  Sat x (s,w,[]) (fun r p => p.1 = s ∧ Calls write_str p.2.2 w p.2.1 ∧ Wrote ps r p.2.2)
    (fun k p => p.1 = s ∧ Stopped write_str ps k w p.2.2 p.2.1)

theorem write_all_writes {S : Type} {s : S} (ps : List (List Char)) :
    Writes write_str ps (onSnd (write_all (noted write_str) ps)) s w := by
  unfold Writes
  rw [sat_onSnd]
  refine (write_all_wrote [] ps).mono ?_ ?_
  · rintro r ⟨w',_⟩ ⟨more,rfl,wrote⟩
    exact ⟨rfl,wrote⟩
  · rintro k ⟨w',_⟩ ⟨more,rfl,stopped⟩
    exact ⟨rfl,stopped⟩

/-- Whatever is formatted into, it is given the pieces in order, and none behind one that it
    fails or at which it stops; the result tells whether all were written. The handles show
    what they view, and change nothing. -/
theorem writes {H : Heap} : Writes write_str (pieces v) (onSnd ((lossy v).display (noted write_str))) H w ∧
    Writes write_str (quoted v) (onSnd ((lossy v).debug (noted write_str))) H w ∧
    (∀ b : Bytes, (Handle.bytes b).view H = some v → Writes write_str (quoted v) (b.fmt (noted write_str)) H w) ∧
    (∀ m : BytesMut, (Handle.bytesMut m).view H = some v → Writes write_str (quoted v) (m.fmt (noted write_str)) H w) := by
  have debug : Writes write_str (quoted v) (onSnd ((lossy v).debug (noted write_str))) H w := by
    rw [debug_eq]
    exact write_all_writes _
  refine ⟨?_,debug,fun b view => ?_,fun m view => ?_⟩
  · rw [display,lossy,fmt_bytes_eq]
    exact write_all_writes _
  · simp only [Writes,Bytes.fmt,sat_bind]
    rw [sat_onFst,sat_of_ok (show b.as_slice H = (.ok v,H) from read_ok view)]
    exact debug
  · simp only [Writes,BytesMut.fmt,sat_bind]
    rw [sat_onFst,sat_of_ok (show m.as_slice H = (.ok v,H) from read_ok view)]
    exact debug

/-- A page with room for some characters. -/
def page : WriteStr Nat := fun piece => do
  let room ← get
  if piece.length ≤ room then
    set (room-piece.length)
    return .ok ()
  return .error ()

theorem writes_page : ∃ w v, World.JoinableRun (bump 0) (World.start []) w ∧
    (Handle.bytes ⟨⟨16,2⟩,3,⟨1,0⟩⟩).view w.heap = some v ∧ (Handle.bytesMut ⟨⟨19,3⟩,2,2,⟨1,0⟩⟩).view w.heap = some [4,5] ∧
    Writes page (pieces v) (onSnd ((lossy v).display (noted page))) w.heap 6 ∧
    Writes page (quoted v) (onSnd ((lossy v).debug (noted page))) w.heap 6 ∧
    Writes page (quoted v) (Bytes.fmt (noted page) ⟨⟨16,2⟩,3,⟨1,0⟩⟩) w.heap 6 ∧
    Writes page (quoted [4,5]) (BytesMut.fmt (noted page) ⟨⟨19,3⟩,2,2,⟨1,0⟩⟩) w.heap 6 := by
  obtain ⟨w,run,_,sound,view,_⟩ := Buf.joined_sound
  obtain ⟨v,view'⟩ := Option.ne_none_iff_exists'.mp (Tcio.Sound.placed sound (.bytes ⟨⟨16,2⟩,3,⟨1,0⟩⟩) List.mem_cons_self).viewed
  exact ⟨w,v,run,view',view,writes.1,writes.2.1,writes.2.2.1 _ view',writes.2.2.2 _ view⟩

/-- On a page of nine characters there is no room for the third byte. -/
example : ((lossy [1,2,3]).debug (noted page) (9,[])).2.2.map Written.piece = [['b','"'],['\\','x'],['1'],['\\','x'],['2'],['\\','x']] := by
  decide +kernel

/-! ### The text -/

def is_hex (c : Char) : Bool := '0' ≤ c && c ≤ '9' || 'a' ≤ c && c ≤ 'f'
def hex_value (c : Char) : Nat := if c ≤ '9' then c.toNat-48 else c.toNat-87
/-- The number that the digits of an escape are. -/
def hex_digits : List Char → Option Nat
  | [c] => some (hex_value c)
  | [c,d] => if is_hex d then some (16*hex_value c+hex_value d) else none
  | _ => none

/-- The bytes of a text, in which an escape has as many digits as can be. -/
def unescape : List Char → List UInt8
  | [] => []
  | '\\' :: 'r' :: cs => 0x0d :: unescape cs
  | '\\' :: 'n' :: cs => 0x0a :: unescape cs
  | '\\' :: 'x' :: c :: d :: cs =>
    if is_hex d then .ofNat (16*hex_value c+hex_value d) :: unescape cs else .ofNat (hex_value c) :: unescape (d :: cs)
  | '\\' :: 'x' :: c :: [] => [.ofNat (hex_value c)]
  | c :: cs => .ofNat c.toNat :: unescape cs

/-- It is written with one digit. -/
def Short (b : UInt8) : Prop := b < 0x10 ∧ is_ascii_whitespace b = false
/-- There is no backslash, and no escape that what is behind it could be a digit of. -/
structure Clear (v : List UInt8) : Prop where
  plain : 0x5c ∉ v
  apart : v.IsChain fun b c => Short b → is_hex (as_char c) = false

/-- What is shown as it is. -/
def shown (b : UInt8) : Bool := is_ascii_graphic b || is_ascii_whitespace b

theorem shown_back : ∀ n : Fin 256, shown (.ofFin n) = true → UInt8.ofNat (as_char (.ofFin n)).toNat = .ofFin n ∧
    (UInt8.ofFin n ≠ 0x5c → as_char (.ofFin n) ≠ '\\') := by
  decide +kernel

theorem hex_back : ∀ n : Fin 256, (hex_digits (lower_hex (.ofFin n))).map UInt8.ofNat = some (.ofFin n) ∧
    ((lower_hex (.ofFin n)).length = 1 → UInt8.ofFin n < 0x10) := by
  decide +kernel

theorem unescape_plain {c : Char} {cs : List Char} (plain : c ≠ '\\') : unescape (c :: cs) = .ofNat c.toNat :: unescape cs := by
  rw [unescape.eq_6]
  all_goals simp [plain]

theorem text_cons : text (b :: v) = (pieces_of b).flatten++text v := by rw [text,pieces,List.flatMap_cons,List.flatten_append]; rfl

/-- An escape in front of a byte that is no digit ends there. -/
theorem text_head (apart : is_hex (as_char c) = false) : ∃ d cs, text (c :: v) = d :: cs ∧ is_hex d = false := by
  rw [text_cons,pieces_of]
  split_ifs
  · exact ⟨_,_,rfl,by decide⟩
  · exact ⟨_,_,rfl,by decide⟩
  · exact ⟨_,_,rfl,apart⟩
  · exact ⟨_,_,rfl,by decide⟩

theorem Clear.tail (clear : Clear (b :: v)) : Clear v := ⟨fun mem => clear.plain (List.mem_cons_of_mem _ mem),clear.apart.tail⟩

/-- The text tells the bytes. -/
theorem unescape_text (clear : Clear v) : unescape (text v) = v := by
  induction v with
  | nil => rfl
  | cons b v ih =>
    have rest := ih clear.tail
    obtain ⟨hex,short⟩ := hex_back b.toFin
    rw [UInt8.ofFin_toFin] at hex short
    rw [text_cons,pieces_of]
    split_ifs with cr lf plain
    · rw [cr]
      exact congrArg (0x0d :: ·) rest
    · rw [lf]
      exact congrArg (0x0a :: ·) rest
    · have back := shown_back b.toFin
      rw [UInt8.ofFin_toFin] at back
      obtain ⟨back,other⟩ := back plain
      have apart : b ≠ 0x5c := fun same => clear.plain (same ▸ List.mem_cons_self)
      exact (unescape_plain (other apart)).trans (by rw [back]; exact congrArg (b :: ·) rest)
    · -- the digits of the escape
      have digits : b :: v = b :: unescape (text v) := by rw [rest]
      rw [digits]
      cases number : lower_hex b with
      | nil =>
        rw [number] at hex
        cases hex
      | cons c more =>
        rw [number] at hex short
        cases more with
        | nil =>
          have value : UInt8.ofNat (hex_value c) = b := Option.some.inj hex
          cases v with
          | nil => exact congrArg ([·]) value
          | cons c' v =>
            have low : Short b := ⟨short rfl,(Bool.or_eq_false_iff.mp (Bool.eq_false_iff.mpr plain)).2⟩
            obtain ⟨d,cs,same,no⟩ := text_head (v := v) ((List.isChain_cons_cons.mp clear.apart).1 low)
            rw [same]
            exact (unescape.eq_4 c d cs).trans (by rw [no,value]; rfl)
        | cons d more =>
          cases more with
          | cons _ _ => cases hex
          | nil =>
            simp only [hex_digits] at hex
            split_ifs at hex with yes
            · exact (unescape.eq_4 c d _).trans (by rw [yes,Option.some.inj hex]; rfl)
            · cases hex

example : text [0x0d,0x0a,0x54,0x79,0x70,0x65,0x12] = "\\r\\nType\\x12".toList := by decide +kernel

/-! ### Lines -/

/-- What is shown on a line. -/
def inLine (c : Char) : Bool := ' ' ≤ c && c ≤ '~' || c == '\t' || c == '\x0c'

theorem pieces_in_line : ∀ n : Fin 256, (pieces_of (.ofFin n)).flatten.all inLine = true ∧ (pieces_of (.ofFin n)).flatten.length ∈ [1,2,3,4] := by
  decide +kernel

theorem text_in_line : ∀ c ∈ text v, inLine c = true := by
  induction v with
  | nil =>
    intro c mem
    cases mem
  | cons b v ih =>
    have line := (pieces_in_line b.toFin).1
    rw [UInt8.ofFin_toFin,List.all_eq_true] at line
    intro c mem
    rw [text_cons,List.mem_append] at mem
    exact mem.elim (line c) (ih c)

theorem text_length : v.length ≤ (text v).length ∧ (text v).length ≤ 4*v.length := by
  induction v with
  | nil => exact ⟨Nat.le_refl _,Nat.le_refl _⟩
  | cons b v ih =>
    have one := (pieces_in_line b.toFin).2
    rw [UInt8.ofFin_toFin] at one
    simp only [List.mem_cons,List.not_mem_nil,or_false] at one
    rw [text_cons,List.length_append,List.length_cons]
    omega

/-- The text stays on its line, no character of it is outside ASCII, and it is at most four
    times as long as the bytes; where it is clear, it tells them. -/
theorem tells : (∀ c ∈ text v, inLine c = true) ∧ (v.length ≤ (text v).length ∧ (text v).length ≤ 4*v.length) ∧
    (Clear v → unescape (text v) = v) :=
  ⟨fun _ => text_in_line _,text_length,unescape_text⟩

end LossyFmt
end Tcio
