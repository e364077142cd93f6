import QuantumIR.Module

/-! # Valid flags

The value of a flag belongs to no function, and fits the behaviour and, for some names, the name. No
name is set twice, and what one flag requires of another is the case.
-/

namespace QuantumIR

namespace Metadata

mutual

/-- Nothing in the metadata belongs to a function. -/
def isGlobal : Metadata → Bool
  | .str _ => true
  | .const _ => true
  | .bound _ => false
  | .node ms => allGlobal ms

def allGlobal : List Metadata → Bool
  | [] => true
  | m :: ms => m.isGlobal && allGlobal ms

end

def isInt : Metadata → Bool
  | .const (.int _ _) => true
  | _ => false

def hasIntTy : Metadata → Bool
  | .const c => c.ty.isInt
  | _ => false

def isFunction : Metadata → Bool
  | .const c => c.function?.isSome
  | _ => false

/-- An edge of a call graph: who calls, who is called, and how often. -/
def isCallEdge : Metadata → Bool
  | .node [caller, callee, count] => caller.isFunction && callee.isFunction && count.hasIntTy
  | _ => false

end Metadata

namespace Flag

def fitsBehavior (f : Flag) : Bool :=
  match f.behavior, f.value with
  | .max, value => value.isInt
  | .append, .node _ => true
  | .append, _ => false
  | .appendUnique, .node _ => true
  | .appendUnique, _ => false
  | .require, .node [.str _, _] => true
  | .require, _ => false
  | _, _ => true

def fitsName (f : Flag) : Bool :=
  match f.id, f.value with
  | "wchar_size", value => value.isInt
  | "SemanticInterposition", value => value.isInt
  | "Linker Options", _ => false
  | "CG Profile", .node edges => edges.all Metadata.isCallEdge
  | "CG Profile", _ => false
  | _, _ => true

/-- A requirement is met by a flag that is no requirement and has the name and value asked for. -/
def metBy (flags : List Flag) (f : Flag) : Bool :=
  match f.behavior, f.value with
  | .require, .node [.str id, value] =>
    flags.any fun g =>
      g.behavior ≠ .require && Bytes.ofString g.id = id && g.value = value
  | _, _ => true

end Flag

/-- Each flag is fit, requirements are met, and no name is set twice. -/
def Module.flagsValid (m : Module) : Bool :=
  (m.flags.all fun f =>
      f.value.isGlobal && f.fitsBehavior && f.fitsName && f.metBy m.flags) &&
    decide ((m.flags.filter (·.behavior ≠ .require)).map Flag.id).Nodup

end QuantumIR
