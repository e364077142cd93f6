import QuantumIR.Value
import QuantumIR.Attribute

/-! # Intrinsics

An intrinsic is a function that is known by its name. It has a shape that its declarations must
have, and attributes that they get. A shape may leave types free; the types that a declaration
chooses for them are part of its name.
-/

namespace QuantumIR

mutual

def Ty.tag : Ty → String
  | .void => "isVoid"
  | .double => "f64"
  | .metadata => "Metadata"
  | .int bits => "i" ++ toString bits
  | .ptr pointee space => "p" ++ toString (space % Ty.spaceBound) ++ pointee.tag
  | .array elem len => "a" ++ toString len ++ elem.tag
  | .struct name => "s_" ++ name ++ "s"
  | .function ret params => "f_" ++ ret.tag ++ Ty.tags params ++ "f"

def Ty.tags : List Ty → String
  | [] => ""
  | t :: ts => t.tag ++ Ty.tags ts

end

/-- What a free type may be. No type of a declaration is foreign. -/
inductive Kind
  | anything
  | integer
  | float
  | pointer
  | foreign
  deriving DecidableEq

def Kind.holds : Kind → Ty → Bool
  | .anything, _ => true
  | .integer, t => t.isInt
  | .float, t => t = .double
  | .pointer, t => t.isPtr
  | .foreign, _ => false

/-- The shape of a type: a type that is given, the next free type, a free type before it, or a type
that no declaration has. -/
inductive Shape
  | void
  | int (bits : Nat)
  | double
  | ptr (pointee : Shape)
  | free (kind : Kind)
  | same (index : Nat)
  | foreign
  deriving DecidableEq

namespace Shape

/-- Match a type with a shape, given the types chosen so far; the result has one more if the shape
is free. -/
def match? (chosen : List Ty) : Shape → Ty → Option (List Ty)
  | .void, t => if t = .void then some chosen else none
  | .int bits, t => if t = .int bits then some chosen else none
  | .double, t => if t = .double then some chosen else none
  | .ptr s, .ptr pointee space =>
    if space % Ty.spaceBound = 0 then s.match? chosen pointee else none
  | .ptr _, _ => none
  | .free kind, t => if kind.holds t then some (chosen ++ [t]) else none
  | .same i, t => if chosen[i]? = some t then some chosen else none
  | .foreign, _ => none

def matchAll? (chosen : List Ty) : List Shape → List Ty → Option (List Ty)
  | [], [] => some chosen
  | s :: ss, t :: ts => (s.match? chosen t).bind fun chosen => matchAll? chosen ss ts
  | _, _ => none

def isFree : Shape → Bool
  | .free _ => true
  | _ => false

end Shape

inductive Check
  | always
  | never
  | evenBytes
  | scale (strict : Bool)
  | prefetch
  | nestedFunction
  deriving DecidableEq

/-- A function that is known by its name. Parameters are counted from zero. -/
structure Intrinsic where
  name : String
  output : Shape
  params : List Shape
  marks : List Mark
  paramMarks : List (Nat × List Mark) := []
  check : Check := .always
  deriving DecidableEq

namespace Intrinsic

def isOverloaded (i : Intrinsic) : Bool := (i.output :: i.params).any Shape.isFree

/-- A declaration has the shape, and its name tells the types that it chose. -/
def declares (i : Intrinsic) (name : String) (sig : Signature) : Bool :=
  match Shape.matchAll? [] (i.output :: i.params) (sig.ret :: sig.params) with
  | none => false
  | some chosen => name = i.name ++ String.join (chosen.map fun t => "." ++ t.tag)

def attrs (i : Intrinsic) : AttrTable :=
  let own := i.marks.map fun m => (AttrIndex.function, m)
  let ofParams := i.paramMarks.flatMap fun (n, ms) => ms.map fun m => (AttrIndex.param (n + 1), m)
  (own ++ ofParams).foldl (fun t (index, m) => t.insert index (.mark m)) []

def immediates (i : Intrinsic) : List Nat :=
  (i.paramMarks.filter fun (_, ms) => Mark.immArg ∈ ms).map (·.1)

end Intrinsic

end QuantumIR
