import QuantumIR.Operation
import QuantumIR.EntryPoint
import QuantumIR.Flags

/-! # Steps

The language in which a session is driven: expressions for types, values and metadata, commands, and
steps. The two branches of a conditional are lists of steps again.
-/

namespace QuantumIR

/-- Type expressions. `qubit` and `result` create their struct when it is missing. -/
inductive TypeExpr
  | void
  | double
  | int (bits : Nat)
  | qubit
  | result
  | ptr (pointee : TypeExpr) (space : Nat)
  | array (elem : TypeExpr) (len : Nat)
  | struct (name : String)

mutual

inductive ValueExpr
  | qubit (id : UInt64)
  | result (id : UInt64)
  | int (bits : Nat) (n : Int)
  | double (bits : UInt64)
  | null (ty : TypeExpr)
  | intToPtr (n : UInt64) (ty : TypeExpr)
  | bitcast (value : ValueExpr) (ty : TypeExpr)
  | string (data : Bytes)
  | base (value : ValueExpr)
  | element (value : ValueExpr) (outer inner : UInt32)
  | fn (name : String)
  | param (name : String) (index : Nat)
  | register (name : String)
  | metadata (md : MetadataExpr)

inductive MetadataExpr
  | str (data : Bytes)
  | node (operands : List MetadataExpr)
  | value (v : ValueExpr)

end

/-- What a conditional tests: a truth value, or a result that is read first. -/
inductive Test
  | bit (condition : ValueExpr)
  | result (measured : ValueExpr)

/-- A branch that fails ends a checked conditional with its error, and means nothing to a plain
one. -/
inductive Mode
  | plain
  | checked
  deriving DecidableEq

inductive Command
  | newModule (name : String)
  | useModule (index : Nat)
  | print
  | verify
  | setVersion (flag : VersionFlag) (value : Int)
  | setManagement (flag : ManagementFlag) (value : Bool)
  | flags
  | addFlag (behavior : Behavior) (id : String) (value : MetadataExpr)
  | getFlag (id : String)
  | extractConstant (value : ValueExpr)
  | newStruct (name : String) (body : Option (List TypeExpr))
  | describeType (ty : TypeExpr)
  | entryPoint (entry : EntryPoint)
  | declare (name : String) (ret : TypeExpr) (params : List TypeExpr) (linkage : Linkage)
  | newGlobal (name : String) (ty : TypeExpr)
  | addAttr (fn : String) (index : AttrIndex) (key value : Bytes)
  | listAttrs (fn : String) (index : AttrIndex)
  | inspect (value : ValueExpr)
  | entryPoints
  | bind (register : String) (value : ValueExpr)
  | ids (value : ValueExpr)
  | extractString (value : ValueExpr)
  | newBlock (fn name : String)
  | position (fn : String) (index : Nat)
  | unposition
  | looseBlock (name : String)
  | ret (value : Option ValueExpr)
  | call (fn : String) (args : List ValueExpr) (register : Option String)
  | apply (op : Operation) (args : List ValueExpr)

/-- Steps. A failure ends the list of steps that it stands in. -/
inductive Step
  | perform (command : Command)
  | conditional (test : Test) (mode : Mode) (one zero : List Step)
  | fail (message : String)

end QuantumIR
