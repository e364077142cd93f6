import QuantumIR.Constant

/-! # Metadata and values

Metadata is made of strings, constants and what belongs to a function. Any of these may be used as a
value.
-/

namespace QuantumIR

/-- What belongs to one function: its parameters and the results of its calls. -/
inductive Local
  | param (fn : FnRef) (index : Nat) (ty : Ty)
  | result (site : Site) (ty : Ty)
  deriving DecidableEq

def Local.ty : Local → Ty
  | .param _ _ t => t
  | .result _ t => t

/-- Metadata: a string, a constant, something that belongs to a function, or a node with
operands. -/
inductive Metadata
  | str (data : Bytes)
  | const (c : Constant)
  | bound (l : Local)
  | node (operands : List Metadata)

namespace Metadata

mutual

def decEq : (a b : Metadata) → Decidable (a = b)
  | .str s, b => by
    cases b with
    | str t => exact decidable_of_iff (s = t) (by simp)
    | _ => exact isFalse nofun
  | .const c, b => by
    cases b with
    | const d => exact decidable_of_iff (c = d) (by simp)
    | _ => exact isFalse nofun
  | .bound l, b => by
    cases b with
    | bound m => exact decidable_of_iff (l = m) (by simp)
    | _ => exact isFalse nofun
  | .node as, b => by
    cases b with
    | node bs =>
      have := decEqList as bs
      exact decidable_of_iff (as = bs) (by simp)
    | _ => exact isFalse nofun

def decEqList : (as bs : List Metadata) → Decidable (as = bs)
  | [], [] => isTrue rfl
  | [], _ :: _ => isFalse nofun
  | _ :: _, [] => isFalse nofun
  | a :: as, b :: bs =>
    have := decEq a b
    have := decEqList as bs
    decidable_of_iff (a = b ∧ as = bs) (by simp)

end

instance : DecidableEq Metadata := decEq

def isNode : Metadata → Bool
  | .node _ => true
  | _ => false

/-- Metadata that is used as a value: a node whose only operand is a constant is that constant. -/
def asValue : Metadata → Metadata
  | .node [.const c] => .const c
  | m => m

/-- The constant that metadata stands for when it is used as a value. -/
def constant? (m : Metadata) : Option Constant :=
  match m.asValue with
  | .const c => some c
  | _ => none

end Metadata

inductive Value
  | const (c : Constant)
  | bound (l : Local)
  | metadata (m : Metadata)
  deriving DecidableEq

namespace Value

def ty : Value → Ty
  | .const c => c.ty
  | .bound l => l.ty
  | .metadata _ => .metadata

/-- The places of modules whose functions and globals a value refers to. Metadata refers to them
without using them. -/
def modules : Value → List Nat
  | .const c => c.modules
  | _ => []

/-- The number behind a pointer; only constants have one. -/
def number? : Value → Option Nat
  | .const c => c.number?
  | _ => none

def qubitId? (v : Value) : Option Nat := if v.ty.isQubit then v.number? else none

def resultId? (v : Value) : Option Nat := if v.ty.isResult then v.number? else none

def metadata? : Value → Option Metadata
  | .metadata m => some m
  | _ => none

def function? : Value → Option FnRef
  | .const (.fn r _) => some r
  | _ => none

def metadataConstant? : Value → Option Constant
  | .metadata m => m.constant?
  | _ => none

/-- A value as metadata; metadata is itself. -/
def toMetadata : Value → Metadata
  | .const c => .const c
  | .bound l => .bound l
  | .metadata m => m

end Value

end QuantumIR
