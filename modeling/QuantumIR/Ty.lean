import QuantumIR.Text.Name

/-! # Types

Named structs are referred to by name: names are unique in a context and never change. Qubits and
results are pointers to two structs of fixed names.
-/

namespace QuantumIR

/-- Lengths are counted in thirty-two bits. -/
def lengthBound : Nat := Nat.pow 2 32

inductive Ty
  | void
  | double
  | metadata
  | int (bits : Nat)
  | ptr (pointee : Ty) (space : Nat)
  | array (elem : Ty) (len : Nat)
  | struct (name : String)
  | function (ret : Ty) (params : List Ty)

namespace Ty

mutual

def decEq : (a b : Ty) → Decidable (a = b)
  | .void, b => by cases b <;> first | exact isTrue rfl | exact isFalse nofun
  | .double, b => by cases b <;> first | exact isTrue rfl | exact isFalse nofun
  | .metadata, b => by cases b <;> first | exact isTrue rfl | exact isFalse nofun
  | .int m, b => by
    cases b with
    | int n => exact decidable_of_iff (m = n) (by simp)
    | _ => exact isFalse nofun
  | .ptr t m, b => by
    cases b with
    | ptr u n =>
      have := decEq t u
      exact decidable_of_iff (t = u ∧ m = n) (by simp)
    | _ => exact isFalse nofun
  | .array t m, b => by
    cases b with
    | array u n =>
      have := decEq t u
      exact decidable_of_iff (t = u ∧ m = n) (by simp)
    | _ => exact isFalse nofun
  | .struct m, b => by
    cases b with
    | struct n => exact decidable_of_iff (m = n) (by simp)
    | _ => exact isFalse nofun
  | .function t ts, b => by
    cases b with
    | function u us =>
      have := decEq t u
      have := decEqList ts us
      exact decidable_of_iff (t = u ∧ ts = us) (by simp)
    | _ => exact isFalse nofun

def decEqList : (as bs : List Ty) → Decidable (as = bs)
  | [], [] => isTrue rfl
  | [], _ :: _ => isFalse nofun
  | _ :: _, [] => isFalse nofun
  | a :: as, b :: bs =>
    have := decEq a b
    have := decEqList as bs
    decidable_of_iff (a = b ∧ as = bs) (by simp)

end

instance : DecidableEq Ty := decEq

def qubitName : String := "Qubit"

def resultName : String := "Result"

/-- The pointer type to the struct of a name. -/
def handle (name : String) : Ty := .ptr (.struct name) 0

def qubit : Ty := handle qubitName

def result : Ty := handle resultName

def byte : Ty := .int 8

/-- Truth values. -/
def bit : Ty := .int 1

def isPtr : Ty → Bool
  | .ptr _ _ => true
  | _ => false

def isInt : Ty → Bool
  | .int _ => true
  | _ => false

def isStruct : Ty → Bool
  | .struct _ => true
  | _ => false

def pointee? : Ty → Option Ty
  | .ptr pointee _ => some pointee
  | _ => none

/-- Address spaces are numbered in twenty-four bits. -/
def spaceBound : Nat := Nat.pow 2 24

def space? : Ty → Option Nat
  | .ptr _ space => some (space % spaceBound)
  | _ => none

/-- The type with the address space of the pointer type `u`. -/
def inSpaceOf (t u : Ty) : Ty :=
  match t, u with
  | .ptr pointee _, .ptr _ space => .ptr pointee (space % spaceBound)
  | t, _ => t

/-- A pointer to the struct of a name counts as a handle in an even address space, whatever the
body of the struct is. -/
def isHandle (name : String) : Ty → Bool
  | .ptr (.struct n) space => n = name && space % 2 = 0
  | _ => false

def isQubit : Ty → Bool := isHandle qubitName

def isResult : Ty → Bool := isHandle resultName

/-- A pointer to bytes, in any address space. -/
def isBytePtr : Ty → Bool
  | .ptr (.int 8) _ => true
  | _ => false

mutual

def text : Ty → String
  | .void => "void"
  | .double => "double"
  | .metadata => "metadata"
  | .int bits => "i" ++ toString bits
  | .ptr pointee space =>
    pointee.text ++
      if space % spaceBound = 0 then "*"
      else " addrspace(" ++ toString (space % spaceBound) ++ ")*"
  | .array elem len => "[" ++ toString len ++ " x " ++ elem.text ++ "]"
  | .struct name => "%" ++ Name.quoted name
  | .function ret params => ret.text ++ " (" ++ ", ".intercalate (texts params) ++ ")"

def texts : List Ty → List String
  | [] => []
  | t :: ts => t.text :: texts ts

end

end Ty

/-- The type of a function: what it returns and what it takes. -/
structure Signature where
  ret : Ty
  params : List Ty
  deriving DecidableEq

def Signature.ty (s : Signature) : Ty := .function s.ret s.params

/-- A named struct; one without a body has unknown contents. -/
structure StructDef where
  name : String
  body : Option (List Ty)
  deriving DecidableEq

/-- The right-hand side of a printed struct definition. -/
def StructDef.bodyText (d : StructDef) : String :=
  match d.body with
  | none => "opaque"
  | some [] => "\x7b\x7d"
  | some ts => "\x7b " ++ ", ".intercalate (Ty.texts ts) ++ " \x7d"

def StructDef.text (d : StructDef) : String :=
  "%" ++ Name.quoted d.name ++ " = type " ++ d.bodyText

end QuantumIR
