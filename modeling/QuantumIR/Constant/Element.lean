import QuantumIR.Constant
import QuantumIR.Layout

/-! # Addresses of elements

The address of an element of an element is one address with more indices. An index past the end of
an array is moved into the arrays behind it, where the part before is an array too. In the first
object a cast between pointers to arrays of the same elements is looked through.
-/

namespace QuantumIR

def Ty.reach? (structs : List StructDef) : Ty → List Index → Option Ty
  | t, [] => some t
  | t, i :: is => (t.inside? structs i.value).bind fun u => u.reach? structs is

namespace Index

/-- Indices into a type, behind an index `prev` that counts whole objects of that type: each that is
past the end of an array adds to the one before it, unless that one counts parts of a struct. -/
def carry (structs : List StructDef) (ofStruct : Bool) (t : Ty) (prev : Index) :
    List Index → List Index
  | [] => [prev]
  | i :: is =>
    let next := (t.inside? structs i.value).getD t
    match t with
    | .array _ len =>
      if !ofStruct ∧ 0 < len ∧ (len : Int) ≤ i.value then
        prev.shift (i.value / len) :: carry structs false next (i.modulo len) is
      else prev :: carry structs false next i is
    | _ => prev :: carry structs t.isStruct next i is

def carryAll (structs : List StructDef) (pointee : Ty) : List Index → List Index
  | [] => []
  | i :: is => carry structs false pointee i is

/-- Indices into a type stay inside its arrays. The length zero stands for an unknown length. -/
def inRange (structs : List StructDef) : Ty → List Index → Bool
  | _, [] => true
  | t, i :: is =>
    (match t with
      | .array _ len => 0 ≤ i.value && (len = 0 || i.value < len)
      | _ => true) &&
      inRange structs ((t.inside? structs i.value).getD t) is

def inFirst : List Index → Bool
  | [] => true
  | i :: is => i.isFirst || (i.value = 1 && is.all isFirst)

def endsInStruct (structs : List StructDef) (pointee : Ty) (is : List Index) : Bool :=
  match is.drop 1 with
  | [] => false
  | inner => ((pointee.reach? structs inner.dropLast).map Ty.isStruct).getD false

/-- The indices of an address behind those of another: the first counts what the last counts. Parts
of a struct are not counted on. -/
def join (structs : List StructDef) (pointee : Ty) (outer : List Index) :
    List Index → Option (List Index)
  | [] => some outer
  | i :: is =>
    if i.isFirst then some (outer ++ is)
    else if endsInStruct structs pointee outer then none
    else outer.getLast?.map fun last => outer.dropLast ++ i.add last :: is

end Index

namespace Constant

def elementTy (structs : List StructDef) (c : Constant) (is : List Index) : Ty :=
  match c.ty with
  | .ptr pointee space =>
    .ptr ((pointee.reach? structs (is.drop 1)).getD pointee) (space % Ty.spaceBound)
  | t => t

/-- The address as it stands. In a global it is known to lie inside if the indices do. -/
def elementHere (structs : List StructDef) (inBounds : Bool) (c : Constant) (is : List Index) :
    Constant :=
  let known := match c with
    | .global _ t => Index.inRange structs t (is.drop 1) && Index.inFirst is
    | _ => false
  .element (inBounds || known) c is (c.elementTy structs is)

/-- Take what `look` finds for the indices, and if it finds nothing, carry and look again. One pass
settles one more index from the right, so as many passes are enough as there are indices. -/
def elementBy (structs : List StructDef) (inBounds : Bool) (c : Constant)
    (look : List Index → Option Constant) : Nat → List Index → Constant
  | 0, is => c.elementHere structs inBounds is
  | n + 1, is =>
    match look is with
    | some d => d
    | none =>
      let carried := Index.carryAll structs c.pointee is
      if carried = is then c.elementHere structs inBounds is
      else elementBy structs inBounds c look n carried

def sameElements : Ty → Ty → Bool
  | .ptr (.array t _) s, .ptr (.array u _) r => t = u && s % Ty.spaceBound = r % Ty.spaceBound
  | _, _ => false

def elementAt (structs : List StructDef) (c : Constant) (inBounds : Bool) (is : List Index) :
    Constant :=
  match c with
  | .null t =>
    elementBy structs inBounds (.null t)
      (fun is =>
        if is.all Index.isFirst then some (.null ((null t).elementTy structs is)) else none)
      is.length is
  | .cast kind base t =>
    elementBy structs inBounds (.cast kind base t)
      (fun is =>
        if (is.head?.map Index.isFirst).getD false && sameElements base.ty t then
          some (base.elementAt structs inBounds is)
        else none)
      is.length is
  | .element held base outer t =>
    elementBy structs inBounds (.element held base outer t)
      (fun is =>
        (Index.join structs base.pointee outer is).map fun is =>
          base.elementAt structs (inBounds && held) is)
      is.length is
  | c => elementBy structs inBounds c (fun _ => none) is.length is

end Constant

end QuantumIR
