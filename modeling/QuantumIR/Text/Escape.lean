import QuantumIR.Text.Utf8

/-! # Escaped text

Printed modules are plain ASCII apart from attribute keys and module names: bytes outside the
printable range, quotes and backslashes are escaped.
-/

namespace QuantumIR

namespace Escape

def hexDigit (n : Nat) : Char :=
  if n < 10 then Char.ofNat (48 + n) else Char.ofNat (55 + n)

/-- A printable byte stands for itself, a backslash is doubled, and any other byte is written as a
backslash and two hexadecimal digits. -/
def byte (b : UInt8) : List Char :=
  if b = 0x5C then ['\\', '\\']
  else if 0x20 ≤ b ∧ b ≤ 0x7E ∧ b ≠ 0x22 then [Char.ofNat b.toNat]
  else ['\\', hexDigit (b.toNat / 16), hexDigit (b.toNat % 16)]

def bytes (bs : Bytes) : String := String.ofList (bs.flatMap byte)

def text (s : String) : String := bytes (Bytes.ofString s)

end Escape

end QuantumIR
