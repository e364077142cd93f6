import QuantumIR.Ty

/-! # Quantum operations

The operations of the quantum instruction set and of the output recorder. Each is an external
function with a fixed name and signature.
-/

namespace QuantumIR

inductive Operation
  | barrier
  | h
  | s
  | sAdj
  | t
  | tAdj
  | x
  | y
  | z
  | reset
  | cx
  | cz
  | swap
  | ccx
  | rx
  | ry
  | rz
  | mz
  | readResult
  | setup
  | recordArray
  | recordTuple
  | recordResult
  deriving DecidableEq

namespace Operation

/-- The name of a function of the instruction set. -/
def gateSymbol (name variant : String) : String := "__quantum__qis__" ++ name ++ "__" ++ variant

def runtimeSymbol (name : String) : String := "__quantum__rt__" ++ name

def symbol : Operation → String
  | .barrier => gateSymbol "barrier" "body"
  | .h => gateSymbol "h" "body"
  | .s => gateSymbol "s" "body"
  | .sAdj => gateSymbol "s" "adj"
  | .t => gateSymbol "t" "body"
  | .tAdj => gateSymbol "t" "adj"
  | .x => gateSymbol "x" "body"
  | .y => gateSymbol "y" "body"
  | .z => gateSymbol "z" "body"
  | .reset => gateSymbol "reset" "body"
  | .cx => gateSymbol "cnot" "body"
  | .cz => gateSymbol "cz" "body"
  | .swap => gateSymbol "swap" "body"
  | .ccx => gateSymbol "ccx" "body"
  | .rx => gateSymbol "rx" "body"
  | .ry => gateSymbol "ry" "body"
  | .rz => gateSymbol "rz" "body"
  | .mz => gateSymbol "mz" "body"
  | .readResult => gateSymbol "read_result" "body"
  | .setup => runtimeSymbol "initialize"
  | .recordArray => runtimeSymbol "array_record_output"
  | .recordTuple => runtimeSymbol "tuple_record_output"
  | .recordResult => runtimeSymbol "result_record_output"

def params : Operation → List Ty
  | .barrier => []
  | .h | .s | .sAdj | .t | .tAdj | .x | .y | .z | .reset => [.qubit]
  | .cx | .cz | .swap => [.qubit, .qubit]
  | .ccx => [.qubit, .qubit, .qubit]
  | .rx | .ry | .rz => [.double, .qubit]
  | .mz => [.qubit, .result]
  | .readResult => [.result]
  | .setup => [.ptr .byte 0]
  | .recordArray | .recordTuple => [.int 64, .ptr .byte 0]
  | .recordResult => [.result, .ptr .byte 0]

/-- Only reading a result gives a value. -/
def ret : Operation → Ty
  | .readResult => .bit
  | _ => .void

def signature (op : Operation) : Signature := ⟨op.ret, op.params⟩

/-- The structs behind the operand types, in the order in which they are looked up. -/
def structs : Operation → List String
  | .barrier | .setup | .recordArray | .recordTuple => []
  | .readResult | .recordResult => [Ty.resultName]
  | .mz => [Ty.resultName, Ty.qubitName]
  | _ => [Ty.qubitName]

end Operation

end QuantumIR
