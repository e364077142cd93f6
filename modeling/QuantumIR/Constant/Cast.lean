import QuantumIR.Constant.Element

/-! # Casts

A cast looks through an earlier cast and through the address of a first element. Casts of zeros and
of numbers fold. A pointer that is cast to a pointer to the first part of what it points to becomes
the address of that part.
-/

namespace QuantumIR

/-- The one cast that two casts are, one after the other, from one type to another. -/
def Cast.join? (first second : Cast) (source target : Ty) : Option Cast :=
  match first, second with
  | .bits, .bits => some .bits
  | .bits, .number => some .number
  | .bits, .space => if source.pointee? = target.pointee? then some .space else none
  | .space, .bits => some .space
  | .space, .space => if source.space? = target.space? then some .bits else some .space
  | .number, .bits => if target.isInt then some .number else none
  | _, _ => none

def Cast.fromPtr (source target : Ty) : Cast :=
  match target with
  | .int _ => .number
  | .ptr _ _ => if source.space? = target.space? then .bits else .space
  | _ => .bits

namespace Constant

def bitcastHere (structs : List StructDef) (c : Constant) (t : Ty) : Constant :=
  match c, t with
  | .int bits n, .int _ => .int bits n
  | .int _ n, .double => .double (UInt64.ofNat n)
  | .double bits, .int _ => .int 64 bits.toNat
  | c, .ptr goal space =>
    match c.ty with
    | .ptr pointee old =>
      if old % Ty.spaceBound = space % Ty.spaceBound ∧ pointee.isSized structs then
        match pointee.firstDepth? structs goal with
        | some 0 => c
        | some n => c.elementAt structs true (List.replicate (n + 1) .first)
        | none => .cast .bits c t
      else .cast .bits c t
    | _ => .cast .bits c t
  | c, t => .cast .bits c t

def castHere (structs : List StructDef) (kind : Cast) (c : Constant) (t : Ty) : Constant :=
  match kind with
  | .bits => c.bitcastHere structs t
  | kind => .cast kind c t

/-- Cast a constant, looking through at most so many constants. Before the address space is changed
the pointer is made to point to what it shall point to. -/
def castWithin (structs : List StructDef) : Nat → Cast → Constant → Ty → Constant
  | 0, kind, c, t => .cast kind c t
  | n + 1, kind, c, t =>
    if kind = .bits ∧ c.ty = t then c
    else
      let c :=
        if kind = .space ∧ c.ty.pointee? ≠ t.pointee? then
          castWithin structs n .bits c (t.inSpaceOf c.ty)
        else c
      if kind ≠ .space ∧ c.isNull then (zeroOf? t).getD c
      else
        match c with
        | .address number _ =>
          match kind, t with
          | .bits, t => .address number t
          | .number, .int 64 => .int 64 number.toNat
          | kind, t => .cast kind c t
        | .cast first base _ =>
          match first.join? kind base.ty t with
          | some joined => castWithin structs n joined base t
          | none => c.castHere structs kind t
        | .element _ base is _ =>
          if kind ≠ .space ∧ is.all Index.isFirst then
            castWithin structs n (.fromPtr base.ty t) base t
          else c.castHere structs kind t
        | c => c.castHere structs kind t

/-- Cast a constant to another type of the same size. Every constant that is looked through is
looked at a few times at most. -/
def bitcast (structs : List StructDef) (c : Constant) (t : Ty) : Constant :=
  c.castWithin structs (8 * (c.depth + 1)) .bits t

end Constant

end QuantumIR
