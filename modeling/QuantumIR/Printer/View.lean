import QuantumIR.Session

/-! # Numbers of symbols and nodes

What is printed is seen from somewhere: from inside a module, or not. From there symbols and
metadata nodes have numbers. The nodes of the flags of a module come first, then those that are
operands of calls of functions with a reserved name. An instruction on its own sees only its own
function, unless it is such a call.
-/

namespace QuantumIR

/-- From where symbols are seen: from inside a module, each from its own module, or from no
module. -/
inductive Scope
  | module (index : Nat)
  | home
  | outside
  deriving DecidableEq

def Scope.sees : Scope → Nat → Bool
  | .module index, i => index = i
  | .home, _ => true
  | .outside, _ => false

/-- From where something is seen, and the nodes that have a number there, in the order of their
numbers. -/
structure View where
  scope : Scope
  nodes : List Metadata := []

def View.nodeNumber? (v : View) (m : Metadata) : Option Nat := v.nodes.findIdx? (· = m)

namespace Metadata

mutual

/-- Number a node before its operands, unless an equal node has a number. -/
def number (seen : List Metadata) : Metadata → List Metadata
  | .node ms => if .node ms ∈ seen then seen else numberAll (seen ++ [.node ms]) ms
  | .str _ => seen
  | .const _ => seen
  | .bound _ => seen

def numberAll (seen : List Metadata) : List Metadata → List Metadata
  | [] => seen
  | m :: ms => numberAll (number seen m) ms

end

end Metadata

namespace Session

def isReserved (s : Session) (r : FnRef) : Bool := ((s.fn? r).map Fn.isReserved).getD false

def numberedBy (s : Session) : Instr → List Metadata
  | .call callee _ args =>
    if s.isReserved callee then (args.filterMap Value.metadata?).filter Metadata.isNode else []
  | _ => []

/-- The nodes that have a number where some functions of a module are seen. -/
def nodesSeen (s : Session) (m : Module) (fns : List Fn) : List Metadata :=
  Metadata.numberAll [] (m.flags.map Flag.toMetadata ++
    fns.flatMap fun f => f.blocks.flatMap fun b => b.body.flatMap s.numberedBy)

def moduleView (s : Session) (index : Nat) : View :=
  ⟨.module index, ((s.module? index).map fun m => s.nodesSeen m m.functions).getD []⟩

def viewOf (s : Session) (site : Site) (i : Instr) : View :=
  match site with
  | .stray _ => ⟨.outside, []⟩
  | .placed r =>
    let fn := r.block.fn
    if s.numberedBy i = [] then
      ⟨.module fn.module,
        ((s.module? fn.module).map fun m => s.nodesSeen m (s.fn? fn).toList).getD []⟩
    else s.moduleView fn.module

/-- The view of metadata on its own: from the module in which it has last been an operand. -/
def metadataView (s : Session) (m : Metadata) : View :=
  match s.mentionedIn? m with
  | some index => s.moduleView index
  | none => ⟨.home, []⟩

end Session

end QuantumIR
