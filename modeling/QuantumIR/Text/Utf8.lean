/-! # Byte strings and UTF-8

Attribute texts, string data and metadata strings are byte strings. Reading one as text runs a
machine over its bytes: the machine knows how many continuation bytes are owed and in which range
the next one must lie, so overlong forms, surrogates and code points above U+10FFFF are refused at
the first byte that rules them out.
-/

namespace QuantumIR

/-- A string of bytes, not necessarily text. -/
abbrev Bytes := List UInt8

def Bytes.ofString (s : String) : Bytes := s.toList.flatMap String.utf8EncodeChar

namespace Utf8

/-- Where a byte string stops being text: the bytes before `validUpTo` are well formed. `errorLen`
is the length of the refused sequence, or `none` when the bytes end inside a sequence that more
bytes could still complete. -/
structure Error where
  validUpTo : Nat
  errorLen : Option Nat
  deriving DecidableEq

/-- A character of which `read` bytes have been seen and `owed` are still to come, the next of them
between `low` and `high`. -/
structure Pending where
  owed : Nat
  low : UInt8
  high : UInt8
  code : Nat
  read : Nat
  deriving DecidableEq

inductive Lead
  | char (code : Nat)
  | opens (p : Pending)
  | refused
  deriving DecidableEq

def lead (b : UInt8) : Lead :=
  let n := b.toNat
  if n < 0x80 then .char n
  else if n < 0xC2 then .refused
  else if n < 0xE0 then .opens ⟨1, 0x80, 0xBF, n - 0xC0, 1⟩
  else if n = 0xE0 then .opens ⟨2, 0xA0, 0xBF, 0, 1⟩
  else if n = 0xED then .opens ⟨2, 0x80, 0x9F, 0xD, 1⟩
  else if n < 0xF0 then .opens ⟨2, 0x80, 0xBF, n - 0xE0, 1⟩
  else if n = 0xF0 then .opens ⟨3, 0x90, 0xBF, 0, 1⟩
  else if n < 0xF4 then .opens ⟨3, 0x80, 0xBF, n - 0xF0, 1⟩
  else if n = 0xF4 then .opens ⟨3, 0x80, 0x8F, 4, 1⟩
  else .refused

/-- The pending character after one more byte, or `none` when the byte is out of range. -/
def Pending.feed (p : Pending) (b : UInt8) : Option Pending :=
  if p.low ≤ b ∧ b ≤ p.high then
    some ⟨p.owed - 1, 0x80, 0xBF, p.code * 64 + b.toNat % 64, p.read + 1⟩
  else none

/-- Decode from a point between two characters (`none`) or inside one, where `valid` bytes precede
the character that is being read. -/
def decodeFrom (valid : Nat) : Option Pending → Bytes → Except Error (List Char)
  | none, [] => .ok []
  | some _, [] => .error ⟨valid, none⟩
  | none, b :: bs =>
    match lead b with
    | .char n => (Char.ofNat n :: ·) <$> decodeFrom (valid + 1) none bs
    | .opens p => decodeFrom valid (some p) bs
    | .refused => .error ⟨valid, some 1⟩
  | some p, b :: bs =>
    match p.feed b with
    | none => .error ⟨valid, some p.read⟩
    | some q =>
      if q.owed = 0 then (Char.ofNat q.code :: ·) <$> decodeFrom (valid + q.read) none bs
      else decodeFrom valid (some q) bs

def decode (bs : Bytes) : Except Error String :=
  String.ofList <$> decodeFrom 0 none bs

def replacement : Char := Char.ofNat 0xFFFD

def showFrom : Option Pending → Bytes → List Char
  | none, [] => []
  | some _, [] => [replacement]
  | none, b :: bs =>
    match lead b with
    | .char n => Char.ofNat n :: showFrom none bs
    | .opens p => showFrom (some p) bs
    | .refused => replacement :: showFrom none bs
  | some p, b :: bs =>
    match p.feed b with
    | some q => if q.owed = 0 then Char.ofNat q.code :: showFrom none bs else showFrom (some q) bs
    | none =>
      match lead b with
      | .char n => replacement :: Char.ofNat n :: showFrom none bs
      | .opens q => replacement :: showFrom (some q) bs
      | .refused => replacement :: replacement :: showFrom none bs

def display (bs : Bytes) : String := String.ofList (showFrom none bs)

end Utf8

end QuantumIR
