import QuantumIR.Text.Escape

/-! # The text of a double

A double is printed with six significant digits in scientific notation when those digits read back
as the same double, and as its sixty-four bits in hexadecimal otherwise. Everything is computed
exactly on natural numbers from the bits.
-/

namespace QuantumIR

namespace Double

/-- The number `mantissa * 2 ^ exponent`. -/
structure Magnitude where
  mantissa : Nat
  exponent : Int
  deriving DecidableEq

/-- The number `digits * 10 ^ exponent`. -/
structure Decimal where
  digits : Nat
  exponent : Int
  deriving DecidableEq

def isNegative (bits : UInt64) : Bool := bits.toNat / Nat.pow 2 63 = 1

def exponentField (bits : UInt64) : Nat := bits.toNat / Nat.pow 2 52 % Nat.pow 2 11

def fraction (bits : UInt64) : Nat := bits.toNat % Nat.pow 2 52

def isFinite (bits : UInt64) : Bool := exponentField bits ≠ 2047

def magnitude (bits : UInt64) : Magnitude :=
  if exponentField bits = 0 then ⟨fraction bits, -1074⟩
  else ⟨Nat.pow 2 52 + fraction bits, (exponentField bits : Int) - 1075⟩

def multiplicity (base n : Nat) : Nat :=
  ((List.range (n.log2 + 1)).find? fun k => n % base.pow (k + 1) ≠ 0).getD 0

def Magnitude.reduced (m : Magnitude) : Magnitude :=
  let k := multiplicity 2 m.mantissa
  ⟨m.mantissa / Nat.pow 2 k, m.exponent + k⟩

def Magnitude.toDecimal (m : Magnitude) : Decimal :=
  if 0 ≤ m.exponent then ⟨m.mantissa * Nat.pow 2 m.exponent.toNat, 0⟩
  else ⟨m.mantissa * Nat.pow 5 (-m.exponent).toNat, m.exponent⟩

def Decimal.trimmed (d : Decimal) : Decimal :=
  let k := multiplicity 10 d.digits
  ⟨d.digits / Nat.pow 10 k, d.exponent + k⟩

/-- Cut digits off until about twenty bits remain. The quotient 59/196 is a little below the
decimal logarithm of two, so no digit that counts is lost. -/
def Decimal.cut (d : Decimal) : Decimal :=
  let k := (d.digits.log2 + 1 - 20) * 59 / 196
  ⟨d.digits / Nat.pow 10 k, d.exponent + k⟩

/-- At most six digits, rounded up when the first digit left out is five or more. -/
def Decimal.rounded (d : Decimal) : Decimal :=
  let k := (Nat.toDigits 10 d.digits).length - 6
  if k = 0 then d
  else
    let up := if 5 ≤ d.digits / Nat.pow 10 (k - 1) % 10 then 1 else 0
    Decimal.trimmed ⟨d.digits / Nat.pow 10 k + up, d.exponent + k⟩

def Magnitude.sixDigits (m : Magnitude) : Decimal :=
  m.reduced.toDecimal.cut.trimmed.rounded

def Decimal.cmp (d : Decimal) (m : Magnitude) : Ordering :=
  compare (d.digits * Nat.pow 10 d.exponent.toNat * Nat.pow 2 (-m.exponent).toNat)
    (m.mantissa * Nat.pow 2 m.exponent.toNat * Nat.pow 10 (-d.exponent).toNat)

def Magnitude.above (m : Magnitude) : Magnitude := ⟨2 * m.mantissa + 1, m.exponent - 1⟩

/-- Halfway from a double to the next one below it. Below a power of two the doubles lie twice as
dense, except at the bottom of the range. -/
def Magnitude.below (m : Magnitude) : Magnitude :=
  if m.mantissa = Nat.pow 2 52 ∧ -1074 < m.exponent then ⟨4 * m.mantissa - 1, m.exponent - 2⟩
  else ⟨2 * m.mantissa - 1, m.exponent - 1⟩

/-- A decimal reads back as the double whose magnitude is `m`: it lies between the two halfway
points, and on one of them only if the mantissa is even. -/
def Decimal.readsBackAs (d : Decimal) (m : Magnitude) : Bool :=
  let tie := m.mantissa % 2 = 0
  match d.cmp m.below, d.cmp m.above with
  | .gt, .lt => true
  | .eq, _ => tie
  | _, .eq => tie
  | _, _ => false

def padRight (width : Nat) (fill : Char) (cs : List Char) : List Char :=
  cs ++ List.replicate (width - cs.length) fill

def padLeft (width : Nat) (fill : Char) (cs : List Char) : List Char :=
  List.replicate (width - cs.length) fill ++ cs

/-- Scientific notation: one digit, a point, six digits, and a signed exponent of two digits or
more. -/
def Decimal.scientific (d : Decimal) : String :=
  let ds := Nat.toDigits 10 d.digits
  let e := d.exponent + (ds.length - 1 : Nat)
  let mark := if 0 ≤ e then "e+" else "e-"
  String.ofList (ds.take 1) ++ "." ++ String.ofList (padRight 6 '0' (ds.drop 1)) ++ mark ++
    String.ofList (padLeft 2 '0' (Nat.toDigits 10 e.natAbs))

def hexadecimal (n : Nat) : String :=
  String.ofList ((Nat.toDigits 16 n).map Char.toUpper)

def text (bits : UInt64) : String :=
  let m := magnitude bits
  let sign := if isNegative bits then "-" else ""
  let hex := "0x" ++ hexadecimal bits.toNat
  if !isFinite bits then hex
  else if m.mantissa = 0 then sign ++ (Decimal.mk 0 0).scientific
  else if m.sixDigits.readsBackAs m then sign ++ m.sixDigits.scientific
  else hex

end Double

end QuantumIR
