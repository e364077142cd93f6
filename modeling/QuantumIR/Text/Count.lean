import QuantumIR.Text.Utf8

/-! # Counts in decimal

An entry point records how many qubits and results it needs as decimal text. Reading accepts an
optional plus sign and one or more digits, leading zeros included, for a number below `2 ^ 64`.
-/

namespace QuantumIR

namespace Count

def bound : Nat := Nat.pow 2 64

def digit? (b : UInt8) : Option Nat :=
  if 0x30 ≤ b ∧ b ≤ 0x39 then some (b.toNat - 0x30) else none

/-- Continue the number `acc` with the digits that follow. -/
def digitsFrom (acc : Nat) : Bytes → Option Nat
  | [] => some acc
  | b :: bs =>
    match digit? b with
    | some d => digitsFrom (acc * 10 + d) bs
    | none => none

def digits? : Bytes → Option Nat
  | [] => none
  | bs => digitsFrom 0 bs

/-- The digits of a count, without the sign it may have. -/
def unsigned : Bytes → Bytes
  | 0x2B :: bs => bs
  | bs => bs

/-- The count that a text denotes. -/
def parse? (bs : Bytes) : Option Nat :=
  (digits? (unsigned bs)).filter (· < bound)

def render (n : Nat) : Bytes :=
  (Nat.toDigits 10 n).map fun c => c.toNat.toUInt8

end Count

end QuantumIR
