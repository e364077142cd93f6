import QuantumIR.Module
import QuantumIR.Fault

/-! # Module flags

The version of the language and the use of dynamic qubits and results are module flags. Setting one
appends a flag and never replaces one, and reading takes the first.
-/

namespace QuantumIR

inductive VersionFlag
  | major
  | minor
  deriving DecidableEq

inductive ManagementFlag
  | dynamicQubits
  | dynamicResults
  deriving DecidableEq

def VersionFlag.id : VersionFlag → String
  | .major => "qir_major_version"
  | .minor => "qir_minor_version"

/-- Two modules must agree on the major version, and the greater minor version wins. -/
def VersionFlag.behavior : VersionFlag → Behavior
  | .major => .error
  | .minor => .max

def ManagementFlag.id : ManagementFlag → String
  | .dynamicQubits => "dynamic_qubit_management"
  | .dynamicResults => "dynamic_result_management"

namespace Module

/-- The integer in the first flag of a name, read without a sign. -/
def flagNumber? (m : Module) (id : String) : Option Nat :=
  (m.flag? id).bind fun value => value.constant?.bind Constant.toNat?

/-- A version is a number below `2 ^ 31`. -/
def version? (m : Module) (f : VersionFlag) : Option Nat :=
  (m.flagNumber? f.id).filter (· < Nat.pow 2 31)

/-- Any number but zero stands for true. -/
def management? (m : Module) (f : ManagementFlag) : Option Bool :=
  (m.flagNumber? f.id).map (· ≠ 0)

/-- Append a version; a negative one is refused. -/
def setVersion (m : Module) (f : VersionFlag) (value : Int) : Except Panic Module :=
  if value < 0 then .error .negativeVersion
  else .ok (m.addFlag ⟨f.behavior, f.id, .const (.ofInt 32 value)⟩)

def setManagement (m : Module) (f : ManagementFlag) (value : Bool) : Module :=
  m.addFlag ⟨.error, f.id, .const (.int 1 value.toNat)⟩

end Module

end QuantumIR
