import QuantumIR.Ty

/-! # Types inside types

Arrays and structs have parts. What is inside a struct is looked up in the table of structs, so a
walk into a type is bounded by the number of types that are written in it and in the table.
-/

namespace QuantumIR

mutual

def Ty.weight : Ty → Nat
  | .ptr pointee _ => pointee.weight + 1
  | .array elem _ => elem.weight + 1
  | .function ret params => ret.weight + Ty.weights params + 1
  | _ => 1

def Ty.weights : List Ty → Nat
  | [] => 0
  | t :: ts => t.weight + Ty.weights ts

end

def StructDef.weight (d : StructDef) : Nat := 1 + (d.body.map Ty.weights).getD 0

namespace Ty

def body? (structs : List StructDef) (name : String) : Option (List Ty) :=
  (structs.find? (·.name = name)).bind StructDef.body

/-- No walk into a type takes more steps. -/
def stepBound (structs : List StructDef) (t : Ty) : Nat :=
  structs.foldl (fun n d => n + d.weight) t.weight

/-- The part of a type at an index. Every index of an array leads to its elements. -/
def inside? (structs : List StructDef) (t : Ty) (i : Int) : Option Ty :=
  match t with
  | .array elem _ => some elem
  | .struct name => if i < 0 then none else ((body? structs name).getD [])[i.toNat]?
  | _ => none

/-- The size of a type is known. A struct without a body has none. -/
def hasSize (structs : List StructDef) : Nat → Ty → Bool
  | 0, _ => false
  | n + 1, t =>
    match t with
    | .int _ | .double | .ptr _ _ => true
    | .array elem _ => hasSize structs n elem
    | .struct name => ((body? structs name).map (·.all (hasSize structs n))).getD false
    | .void | .metadata | .function _ _ => false

def isSized (structs : List StructDef) (t : Ty) : Bool := t.hasSize structs (t.stepBound structs)

/-- How many steps into the first part lead from a type to another. -/
def stepsToFirst? (structs : List StructDef) (goal : Ty) : Nat → Ty → Option Nat
  | 0, _ => none
  | n + 1, t =>
    if t = goal then some 0
    else (t.inside? structs 0).bind fun u => (stepsToFirst? structs goal n u).map (· + 1)

def firstDepth? (structs : List StructDef) (t goal : Ty) : Option Nat :=
  stepsToFirst? structs goal (t.stepBound structs) t

end Ty

end QuantumIR
