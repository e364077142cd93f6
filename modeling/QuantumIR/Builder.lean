import QuantumIR.Session
import QuantumIR.Operation
import QuantumIR.Fault

/-! # Building quantum code

Calling an operation declares its function in the module of the builder's block, unless a function
of that name is there. A conditional appends three blocks to the builder's function: one for each
outcome and one where both continue. All of this needs a builder that stands in a function, and is
refused before anything changes otherwise.
-/

namespace QuantumIR

/-- A measurement writes its result without reading it, and cannot be undone. -/
def Fn.marked (f : Fn) : Fn :=
  (f.addAttr (.param 2) (.mark .writeOnly)).addAttr .function
    (.string (Bytes.ofString "irreversible") [])

namespace Session

/-- Find the function of an operation in a module, or declare it there. -/
def declare (s : Session) (module : Nat) (op : Operation) : FnRef × Session :=
  match (s.module? module).bind (·.findFunction? op.symbol) with
  | some i => (⟨module, i⟩, s)
  | none => s.addFunction module op.symbol op.signature

def markMeasurement (s : Session) (f : FnRef) : Session := s.updateFn f Fn.marked

/-- What an operation adds to its function each time it is called. -/
def mark (s : Session) (op : Operation) (f : FnRef) : Session :=
  if op = .mz then s.markMeasurement f else s

def prepare (s : Session) (module : Nat) (op : Operation) : FnRef × Session :=
  let (f, s) := (op.structs.foldl ensureStruct s).declare module op
  (f, s.mark op f)

def emit (s : Session) (op : Operation) (args : List Value) : Except Panic (Value × Session) :=
  match s.builderFn? with
  | none => .error .noPosition
  | some f =>
    let (callee, s) := s.prepare f.module op
    .ok (s.call callee args)

structure Fork where
  one : BlockRef
  zero : BlockRef
  join : BlockRef
  deriving DecidableEq

/-- Append the blocks of a conditional to the builder's function and branch to the first two. -/
def fork (s : Session) (condition : Value) : Except Panic (Fork × Session) :=
  match s.builderFn? with
  | none => .error .noPosition
  | some f =>
    let (one, s) := s.addBlock f (Bytes.ofString "then")
    let (zero, s) := s.addBlock f (Bytes.ofString "else")
    let s := s.append (.condBr condition one zero)
    let (join, s) := s.addBlock f (Bytes.ofString "continue")
    .ok (⟨one, zero, join⟩, s)

def jump (s : Session) (target : BlockRef) : Session := s.append (.br target)

end Session

end QuantumIR
