import QuantumIR.Step
import QuantumIR.Builder
import QuantumIR.ByteString
import QuantumIR.Constant.Cast

/-! # Evaluation

Evaluating an expression may create structs and string globals; what has been created stays when a
later part is refused.
-/

namespace QuantumIR

/-- A computation on a session that may be stopped. What it has changed until then stays. -/
abbrev Attempt := EStateM Fault Session

namespace Attempt

/-- Stop because the request means nothing. -/
def reject {α : Type} (d : Defect) : Attempt α := throw (.defect d)

def require {α : Type} (d : Defect) : Option α → Attempt α
  | some a => pure a
  | none => reject d

def guarded {α : Type} : Except Panic α → Attempt α
  | .ok a => pure a
  | .error p => throw (.panic p)

def update {α : Type} (f : Session → α × Session) : Attempt α := modifyGet f

/-- Take over the session that a computation gives unless it panics. -/
def updateGuarded {α : Type} (f : Session → Except Panic (α × Session)) : Attempt α := fun s =>
  match f s with
  | .ok (a, t) => .ok a t
  | .error p => .error (.panic p) s

def currentModule : Attempt Module := do
  let s ← get
  require (.unknownModule s.current) (s.module? s.current)

def findFunction (name : String) : Attempt (FnRef × Fn) := do
  let s ← get
  let m ← currentModule
  let i ← require (.unknownFunction name) (m.findFunction? name)
  let f ← require (.unknownFunction name) m.functions[i]?
  return (⟨s.current, i⟩, f)

def constant : Value → Attempt Constant
  | .const c => pure c
  | _ => reject .notConstant

end Attempt

open Attempt

def TypeExpr.eval : TypeExpr → Attempt Ty
  | .void => pure .void
  | .double => pure .double
  | .int bits => pure (.int bits)
  | .qubit => do
    modify (·.ensureStruct Ty.qubitName)
    return .qubit
  | .result => do
    modify (·.ensureStruct Ty.resultName)
    return .result
  | .ptr pointee space => do
    let pointee ← pointee.eval
    return .ptr pointee space
  | .array elem len => do
    let elem ← elem.eval
    return .array elem (len % lengthBound)
  | .struct name => do
    if name ≠ "" ∧ name ∈ (← get).structNames then return .struct name
    else reject (.unknownStruct name)

def TypeExpr.evalPtr (t : TypeExpr) : Attempt Ty := do
  let t ← t.eval
  if t.isPtr then return t else reject .notPointer

mutual

def ValueExpr.eval : ValueExpr → Attempt Value
  | .qubit id => do
    let t ← TypeExpr.eval .qubit
    return .const (.intToPtr id t)
  | .result id => do
    let t ← TypeExpr.eval .result
    return .const (.intToPtr id t)
  | .int bits n => pure (.const (.ofInt bits n))
  | .double bits => pure (.const (.double bits))
  | .null t => do
    let t ← t.eval
    let c ← require .noZero (Constant.zeroOf? t)
    return .const c
  | .intToPtr n t => do
    let t ← t.evalPtr
    return .const (.intToPtr n t)
  | .bitcast v t => do
    let c ← constant (← v.eval)
    let t ← t.eval
    let d := c.bitcast (← get).structs t
    modify (·.noteCast c d)
    return .const d
  | .string data => do
    let s ← get
    let c ← updateGuarded fun s' => s'.addString s.current data
    return .const c
  | .base v => do
    let c ← constant (← v.eval)
    let b ← require .notComputed c.base?
    return .const b
  | .element v outer inner => do
    let c ← constant (← v.eval)
    let structs := (← get).structs
    let inner := Index.narrow inner
    let _ ← require .notArray (c.ty.pointee?.bind (·.inside? structs inner.value))
    return .const (c.elementAt structs false [.narrow outer, inner])
  | .fn name => do
    let (r, f) ← findFunction name
    return .const (.fn r f.sig)
  | .param name i => do
    let (r, f) ← findFunction name
    let t ← require (.unknownParameter name i) f.sig.params[i]?
    return .bound (.param r i t)
  | .register name => do
    require (.unknownRegister name) ((← get).register? name)
  | .metadata m => do
    let m ← m.eval
    return .metadata m.asValue

def MetadataExpr.eval : MetadataExpr → Attempt Metadata
  | .str data => pure (.str data)
  | .node ms => do
    let ms ← MetadataExpr.evalList ms
    return .node ms
  | .value v => do
    let v ← v.eval
    return v.toMetadata

def MetadataExpr.evalList : List MetadataExpr → Attempt (List Metadata)
  | [] => pure []
  | m :: ms => do
    let m ← m.eval
    let ms ← MetadataExpr.evalList ms
    return m :: ms

end

def ValueExpr.evalList : List ValueExpr → Attempt (List Value)
  | [] => pure []
  | v :: vs => do
    let v ← v.eval
    let vs ← ValueExpr.evalList vs
    return v :: vs

def TypeExpr.evalList : List TypeExpr → Attempt (List Ty)
  | [] => pure []
  | t :: ts => do
    let t ← t.eval
    let ts ← TypeExpr.evalList ts
    return t :: ts

end QuantumIR
