import QuantumIR.Ref
import QuantumIR.Ty

/-! # Constants

Constants are kept in a folded form, and equal constants are equal terms. `Constant.elementAt` and
`Constant.bitcast` build the two kinds that are computed from other constants.
-/

namespace QuantumIR

def signed (bits n : Nat) : Int := if Nat.pow 2 bits ≤ 2 * n then (n : Int) - Nat.pow 2 bits else n

/-- An index on the way to an element. It has thirty-two bits as it is written, and sixty-four when
it has been computed. -/
inductive Index
  | narrow (n : UInt32)
  | wide (n : UInt64)
  deriving DecidableEq

namespace Index

def toNat : Index → Nat
  | .narrow n => n.toNat
  | .wide n => n.toNat

def value : Index → Int
  | .narrow n => signed 32 n.toNat
  | .wide n => signed 64 n.toNat

def first : Index := .narrow 0

def isFirst (i : Index) : Bool := i.toNat = 0

def shift (i : Index) (n : Int) : Index := .wide (UInt64.ofInt (i.value + n))

/-- The sum of two indices: a written one if both are written. -/
def add : Index → Index → Index
  | .narrow m, .narrow n => .narrow (m + n)
  | i, j => i.shift j.value

def modulo (i : Index) (len : Nat) : Index :=
  match i with
  | .narrow n => .narrow (UInt32.ofNat (n.toNat % len))
  | .wide n => .wide (UInt64.ofNat (n.toNat % len))

def text : Index → String
  | .narrow n => "i32 " ++ toString (signed 32 n.toNat)
  | .wide n => "i64 " ++ toString (signed 64 n.toNat)

end Index

/-- What a cast does to a pointer: it keeps the bits, it changes the address space, or it takes the
pointer as a number. Only the first is written down, and the others come out of it. -/
inductive Cast
  | bits
  | space
  | number
  deriving DecidableEq

/-- Constants. `null` and `address` are pointers of the given type, `zero` is an aggregate of
zeros, and `cast` is a cast that nothing folds. `element` is the address of a part of what `base`
points to: the first index counts whole objects, and the others lead into one. It may be known to
lie inside the object that `base` belongs to. -/
inductive Constant
  | int (bits value : Nat)
  | double (bits : UInt64)
  | null (ty : Ty)
  | zero (ty : Ty)
  | address (number : UInt64) (ty : Ty)
  | fn (ref : FnRef) (sig : Signature)
  | global (ref : GlobalRef) (ty : Ty)
  | cast (kind : Cast) (base : Constant) (ty : Ty)
  | element (inBounds : Bool) (base : Constant) (indices : List Index) (ty : Ty)
  deriving DecidableEq

namespace Constant

def ty : Constant → Ty
  | .int bits _ => .int bits
  | .double _ => .double
  | .null t => t
  | .zero t => t
  | .address _ t => t
  | .fn _ sig => .ptr sig.ty 0
  | .global _ t => .ptr t 0
  | .cast _ _ t => t
  | .element _ _ _ t => t

/-- What a pointer points to; anything else is taken for itself. -/
def pointee (c : Constant) : Ty := c.ty.pointee?.getD c.ty

/-- An integer constant, reduced to its width. -/
def ofInt (bits : Nat) (n : Int) : Constant := .int bits (n % Nat.pow 2 bits).toNat

/-- A number as a pointer; zero is the null pointer. -/
def intToPtr (number : UInt64) (t : Ty) : Constant :=
  if number = 0 then .null t else .address number t

def zeroOf? : Ty → Option Constant
  | .int bits => some (.int bits 0)
  | .double => some (.double 0)
  | .ptr pointee space => some (.null (.ptr pointee space))
  | .array elem len => some (.zero (.array elem len))
  | .struct name => some (.zero (.struct name))
  | .void | .metadata | .function _ _ => none

def isNull : Constant → Bool
  | .int _ n => n = 0
  | .double bits => bits = 0
  | .null _ => true
  | .zero _ => true
  | _ => false

/-- The operand of a constant that is computed from another. -/
def base? : Constant → Option Constant
  | .cast _ base _ => some base
  | .element _ base _ _ => some base
  | .address n _ => some (.int 64 n.toNat)
  | _ => none

def depth : Constant → Nat
  | .cast _ base _ => base.depth + 1
  | .element _ base _ _ => base.depth + 1
  | _ => 0

def toNat? : Constant → Option Nat
  | .int _ n => some n
  | _ => none

def number? : Constant → Option Nat
  | .null _ => some 0
  | .address n _ => some n.toNat
  | _ => none

/-- The function that a constant leads to through casts and addresses of first elements. -/
def function? : Constant → Option FnRef
  | .fn r _ => some r
  | .cast .bits base _ => base.function?
  | .cast .space base _ => base.function?
  | .element _ base is _ => if is.all Index.isFirst then base.function? else none
  | _ => none

def modules : Constant → List Nat
  | .fn ref _ => [ref.module]
  | .global ref _ => [ref.module]
  | .cast _ base _ => base.modules
  | .element _ base _ _ => base.modules
  | _ => []

end Constant

end QuantumIR
