import QuantumIR.Module

/-! # Valid calls of intrinsics

A call is valid if its function is declared in the shape of the intrinsic and under the name that
tells its free types, and if the arguments are as the intrinsic asks for.
-/

namespace QuantumIR

namespace Value

def number (v : Value) : Nat :=
  match v with
  | .const c => c.toNat?.getD 0
  | _ => 0

/-- A value is written as a number. -/
def isImmediate : Value → Bool
  | .const (.int _ _) => true
  | .const (.double _) => true
  | _ => false

def width (v : Value) : Nat :=
  match v.ty with
  | .int bits => bits
  | _ => 0

/-- A value leads to a function through casts. -/
def leadsToFunction : Value → Bool
  | .const c => c.function?.isSome
  | _ => false

end Value

def Check.passes : Check → List Value → Bool
  | .always, _ => true
  | .never, _ => false
  | .evenBytes, args => args.all fun v => v.width % 16 = 0
  | .scale true, [a, _, s] => s.number < a.width
  | .scale false, [a, _, s] => s.number ≤ a.width
  | .prefetch, [_, write, locality, _] => write.number < 2 && locality.number < 4
  | .nestedFunction, [_, f, _] => f.leadsToFunction
  | _, _ => true

def Intrinsic.takes (i : Intrinsic) (args : List Value) : Bool :=
  (i.immediates.all fun n => ((args[n]?).map Value.isImmediate).getD true) && i.check.passes args

/-- A call of a function is as its intrinsic asks for, if it is one. -/
def Fn.callValid (f : Fn) (sig : Signature) (args : List Value) : Bool :=
  match f.intrinsic with
  | none => true
  | some i => i.declares f.name sig && i.takes args

end QuantumIR
