import QuantumIR.Fault

/-! # Answers

What a step is answered with. A conditional is answered with the answers of its branches.
-/

namespace QuantumIR

/-- The answers of the four flags that have a meaning of their own. -/
structure FlagReport where
  major : Option Nat
  minor : Option Nat
  dynamicQubits : Option Bool
  dynamicResults : Option Bool
  deriving DecidableEq

structure FnReport where
  isEntryPoint : Bool := false
  isIrreversible : Bool := false
  isInteropFriendly : Bool := false
  qubits : Option Nat := none
  results : Option Nat := none
  deriving DecidableEq

inductive Answer
  | done
  | text (s : String)
  | optionalText (s : Option String)
  | number (n : Nat)
  | verdict (b : Bool)
  | names (ns : List String)
  | flags (report : FlagReport)
  | flag (found : Bool) (constant : Option String)
  | typeInfo (text : String) (isQubit isResult : Bool)
  | attributes (attrs : List (Option (String × String)))
  | function (report : FnReport)
  | ids (qubit result : Option Nat)
  | bytes (data : Option Bytes)
  | instruction (text : String)
  | conditional (one zero : List Answer) (failure : Option String) (block : Option String)
  | failed (message : String)
  | stopped (fault : Fault)

mutual

/-- The first request in an answer that meant nothing. -/
def Answer.defect? : Answer → Option Defect
  | .stopped (.defect d) => some d
  | .conditional one zero _ _ => (Answer.firstDefect? one).or (Answer.firstDefect? zero)
  | _ => none

def Answer.firstDefect? : List Answer → Option Defect
  | [] => none
  | a :: as => a.defect?.or (Answer.firstDefect? as)

end

end QuantumIR
