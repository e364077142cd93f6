import QuantumIR.Text.Escape

/-! # Names

A name is printed in quotes unless it reads as an identifier. A table holds each name once: a name
that is in use is given a number.
-/

namespace QuantumIR

namespace Name

def isDigitByte (b : UInt8) : Bool := 0x30 ≤ b && b ≤ 0x39

def isPlainByte (b : UInt8) : Bool :=
  isDigitByte b || (0x41 ≤ b && b ≤ 0x5A) || (0x61 ≤ b && b ≤ 0x7A) || b = 0x2D || b = 0x2E ||
    b = 0x5F

/-- A name that needs no quotes: it starts with no digit and has plain bytes only. -/
def isPlain (bs : Bytes) : Bool :=
  match bs with
  | [] => false
  | b :: _ => !isDigitByte b && bs.all isPlainByte

def quotedBytes (bs : Bytes) : String :=
  if isPlain bs then String.ofList (bs.map fun b => Char.ofNat b.toNat)
  else "\"" ++ Escape.bytes bs ++ "\""

def quoted (name : String) : String := quotedBytes (Bytes.ofString name)

/-- A name that is in use gets a number: `numbered k` is the name with the number `k`, and `next` is
the first number that has not been tried yet in this table. The result is the name and the number
to try next. -/
def fresh {α : Type} [DecidableEq α] (taken : List α) (numbered : Nat → α) (next : Nat) (name : α) :
    α × Nat :=
  if name ∉ taken then (name, next)
  else
    match (List.range' next (taken.length + 1)).find? fun k => decide (numbered k ∉ taken) with
    | some k => (numbered k, k + 1)
    | none => (name, next)

end Name

end QuantumIR
