import Tcio.Bytes

/-!
`fmt::lossy`: bytes as text on one line. What is formatted into may fail at any time, and
nothing is written behind that.
-/
namespace Tcio
open Exec

namespace Fmt
variable {W : Type}

/-- `fmt::Result` -/
abbrev Result := Except Unit Unit
/-- `write_str` of what is formatted into. -/
abbrev WriteStr (W : Type) := List Char → Exec W Result

/-- The operator `?`, and what is behind it. -/
def and_then (x rest : Exec W Result) : Exec W Result := do
  match ← x with
  | .ok _ => rest
  | .error err => return .error err

def is_ascii_graphic (b : UInt8) : Bool := 0x21 ≤ b && b ≤ 0x7e
def is_ascii_whitespace (b : UInt8) : Bool := b == 0x20 || b == 0x09 || b == 0x0a || b == 0x0c || b == 0x0d
/-- `b as char` -/
def as_char (b : UInt8) : Char := Char.ofNat b.toNat
/-- `{b:x}` -/
def lower_hex (b : UInt8) : List Char := Nat.toDigits 16 b.toNat

end Fmt

open Fmt

structure LossyFmt where
  buf : List UInt8

def lossy (buf : List UInt8) : LossyFmt := ⟨buf⟩

namespace LossyFmt
variable {W : Type} (write_str : WriteStr W)

/-- A round of the loop; `write!` writes its pieces one after the other. -/
def fmt_byte (b : UInt8) : Exec W Result :=
  if b = 0x0d then write_str ['\\','r']
  else if b = 0x0a then write_str ['\\','n']
  else if is_ascii_graphic b || is_ascii_whitespace b then write_str [as_char b]
  else and_then (write_str ['\\','x']) (write_str (lower_hex b))

def fmt_bytes : List UInt8 → Exec W Result
  | [] => return .ok ()
  | b :: rest => and_then (fmt_byte write_str b) (fmt_bytes rest)

/-- `Display` -/
def display (self : LossyFmt) : Exec W Result := fmt_bytes write_str self.buf
/-- `Debug` -/
def debug (self : LossyFmt) : Exec W Result :=
  and_then (write_str ['b','"']) (and_then (self.display write_str) (write_str ['"']))

end LossyFmt

/-- `Debug` of the handles. -/
def Bytes.fmt {W : Type} (write_str : WriteStr W) (self : Bytes) : Exec (Heap × W) Result := do
  let buf ← onFst self.as_slice
  onSnd ((lossy buf).debug write_str)
def BytesMut.fmt {W : Type} (write_str : WriteStr W) (self : BytesMut) : Exec (Heap × W) Result := do
  let buf ← onFst self.as_slice
  onSnd ((lossy buf).debug write_str)

end Tcio
