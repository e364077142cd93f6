import QuantumIR.Session
import QuantumIR.Text.Count

/-! # Entry points

What a function is for is recorded in its string attributes: that it is an entry point, that it
cannot be undone, and how many qubits and results it needs. Older programs spell some of the keys in
other ways, and those are read as well.
-/

namespace QuantumIR

/-- The keys under which the number of qubits may stand; the first that is present counts. -/
def qubitCountKeys : List String :=
  ["requiredQubits", "required_num_qubits", "num_required_qubits"]

def resultCountKeys : List String :=
  ["requiredResults", "required_num_results", "num_required_results"]

namespace Fn

def isEntryPoint (f : Fn) : Bool := f.hasAttr "entry_point" || f.hasAttr "EntryPoint"

def isIrreversible (f : Fn) : Bool := f.hasAttr "irreversible"

def isInteropFriendly (f : Fn) : Bool := f.hasAttr "InteropFriendly"

/-- The count under the first key that is present. -/
def count? (f : Fn) (keys : List String) : Option Nat :=
  (keys.findSome? f.attr?).bind Count.parse?

def requiredQubits? (f : Fn) : Option Nat := f.count? qubitCountKeys

def requiredResults? (f : Fn) : Option Nat := f.count? resultCountKeys

end Fn

structure EntryPoint where
  name : String
  qubits : Nat
  results : Nat
  profiles : String
  schema : String
  deriving DecidableEq

def EntryPoint.attributes (e : EntryPoint) : List (String × Bytes) :=
  [("entry_point", []),
    ("required_num_qubits", Count.render e.qubits),
    ("required_num_results", Count.render e.results),
    ("qir_profiles", Bytes.ofString e.profiles),
    ("output_labeling_schema", Bytes.ofString e.schema)]

def EntryPoint.mark (e : EntryPoint) (f : Fn) : Fn :=
  e.attributes.foldl
    (fun f (key, value) => f.addAttr .function (.string (Bytes.ofString key) value)) f

def Session.addEntryPoint (s : Session) (module : Nat) (e : EntryPoint) : FnRef × Session :=
  let (f, s) := s.addFunction module e.name ⟨.void, []⟩
  (f, s.updateFn f e.mark)

def Module.entryPoints (m : Module) : List String :=
  (m.functions.filter Fn.isEntryPoint).map Fn.name

end QuantumIR
