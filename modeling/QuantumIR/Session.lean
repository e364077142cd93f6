import QuantumIR.Module

/-! # Sessions

A session is one context: named structs, modules, the module in use, one builder with a position,
and registers. Instructions that are appended outside every function are strays; they belong to no
module but still refer to functions and globals. The context remembers which functions have been
cast, and in which modules metadata has been an operand.
-/

namespace QuantumIR

/-- Where the builder appends: nowhere, in a block that is in no function, or at the end of a block
of a function. -/
inductive Position
  | unset
  | loose (name : Bytes)
  | endOf (block : BlockRef)
  deriving DecidableEq

/-- The whole state. `nextStruct` is the number to try next when a struct name is in use, and the
latest of `mentions` stands first. -/
structure Session where
  structs : List StructDef := []
  nextStruct : Nat := 0
  modules : List Module := []
  current : Nat := 0
  position : Position := .unset
  registers : List (String × Value) := []
  strays : List Instr := []
  castFns : List FnRef := []
  mentions : List (Metadata × Nat) := []
  deriving DecidableEq

namespace Session

def start (name : String) : Session := { modules := [{ name }] }

def addModule (s : Session) (name : String) : Session :=
  { s with modules := s.modules ++ [{ name }], current := s.modules.length }

def module? (s : Session) (i : Nat) : Option Module := s.modules[i]?

def fn? (s : Session) (r : FnRef) : Option Fn :=
  (s.modules[r.module]?).bind fun m => m.functions[r.index]?

def global? (s : Session) (r : GlobalRef) : Option Global :=
  (s.modules[r.module]?).bind fun m => m.globals[r.index]?

def block? (s : Session) (r : BlockRef) : Option Block :=
  (s.fn? r.fn).bind fun f => f.blocks[r.index]?

def updateModule (s : Session) (i : Nat) (g : Module → Module) : Session :=
  { s with modules := s.modules.modify i g }

def updateFn (s : Session) (r : FnRef) (g : Fn → Fn) : Session :=
  s.updateModule r.module fun m => m.updateFunction r.index g

def updateBlock (s : Session) (r : BlockRef) (g : Block → Block) : Session :=
  s.updateFn r.fn fun f => { f with blocks := f.blocks.modify r.index g }

/-- The names of the structs that have one. -/
def structNames (s : Session) : List String := (s.structs.map StructDef.name).filter (· ≠ "")

/-- The name that a new struct gets, and the number to try next. -/
def freshStruct (s : Session) (name : String) : String × Nat :=
  Name.fresh s.structNames (fun k => name ++ "." ++ toString k) s.nextStruct name

/-- Create a struct without a body under a name that is not in use; the new struct is the last
one. -/
def addStruct (s : Session) (name : String) : Nat × Session :=
  let (name, next) := s.freshStruct name
  (s.structs.length,
    { s with structs := s.structs ++ [{ name, body := none }], nextStruct := next })

def setBody (s : Session) (i : Nat) (body : List Ty) : Session :=
  { s with structs := s.structs.modify i fun d => { d with body := some body } }

def struct? (s : Session) (name : String) : Option StructDef := s.structs.find? (·.name = name)

/-- Make sure that there is a struct of a name; one that is there stays as it is. -/
def ensureStruct (s : Session) (name : String) : Session :=
  if name ∈ s.structNames then s else (s.addStruct name).2

/-- Append a function to a module; the new function is the last one. -/
def addFunction (s : Session) (module : Nat) (name : String) (sig : Signature)
    (linkage : Linkage := .external) : FnRef × Session :=
  (⟨module, ((s.modules[module]?).map fun m => m.functions.length).getD 0⟩,
    s.updateModule module fun m => m.addFunction name sig linkage)

def addGlobal (s : Session) (module : Nat) (name : String) (ty : Ty)
    (data : Option Bytes := none) : GlobalRef × Session :=
  (⟨module, ((s.modules[module]?).map fun m => m.globals.length).getD 0⟩,
    s.updateModule module fun m => m.addGlobal name ty data)

def addBlock (s : Session) (f : FnRef) (name : Bytes) : BlockRef × Session :=
  (⟨f, ((s.fn? f).map fun g => g.blocks.length).getD 0⟩, s.updateFn f fun g => g.addBlock name)

def addAttr (s : Session) (f : FnRef) (i : AttrIndex) (a : Attr) : Session :=
  s.updateFn f fun g => g.addAttr i a

def moveTo (s : Session) (b : BlockRef) : Session := { s with position := .endOf b }

/-- The place where a branch would stand now. -/
def source (s : Session) : Source :=
  match s.position with
  | .unset => .nowhere
  | .loose name => .loose name
  | .endOf b => .block b

def builderFn? (s : Session) : Option FnRef :=
  match s.position with
  | .endOf b => some b.fn
  | _ => none

def blockName? (s : Session) : Option Bytes :=
  match s.position with
  | .unset => none
  | .loose name => some name
  | .endOf b => (s.block? b).map Block.name

/-- The place that the next instruction takes. -/
def nextSite (s : Session) : Site :=
  match s.position with
  | .endOf b => .placed ⟨b, ((s.block? b).map fun blk => blk.body.length).getD 0⟩
  | _ => .stray s.strays.length

/-- Note the metadata that an instruction has as operands in a module. -/
def mention (s : Session) (module : Nat) (i : Instr) : Session :=
  { s with mentions := (i.operands.filterMap Value.metadata?).map (·, module) ++ s.mentions }

/-- The module in which metadata has last been an operand. -/
def mentionedIn? (s : Session) (m : Metadata) : Option Nat := List.lookup m s.mentions

/-- Note that a constant has been cast to another; only functions are remembered. -/
def noteCast (s : Session) (c d : Constant) : Session :=
  match c with
  | .fn r _ => if d = c then s else { s with castFns := r :: s.castFns }
  | _ => s

def insert (s : Session) (i : Instr) : Session :=
  match s.position with
  | .endOf b => (s.updateBlock b (·.push i)).mention b.fn.module i
  | _ => { s with strays := s.strays ++ [i] }

/-- Append an instruction and note it at the blocks that it branches to. -/
def append (s : Session) (i : Instr) : Session :=
  i.targets.foldl (fun s' b => s'.updateBlock b (·.addSource s.source)) (s.insert i)

/-- The instruction that has just been appended, and where it stands. -/
def lastInstr? (s : Session) : Option (Site × Instr) :=
  match s.position with
  | .unset => none
  | .loose _ => s.strays.getLast?.map fun i => (.stray (s.strays.length - 1), i)
  | .endOf b =>
    (s.block? b).bind fun blk =>
      blk.body.getLast?.map fun i => (.placed ⟨b, blk.body.length - 1⟩, i)

def instr? (s : Session) : Site → Option Instr
  | .placed r => (s.block? r.block).bind fun b => b.body[r.index]?
  | .stray i => s.strays[i]?

def call (s : Session) (callee : FnRef) (args : List Value) : Value × Session :=
  let sig := ((s.fn? callee).map Fn.sig).getD ⟨.void, []⟩
  (.bound (.result s.nextSite sig.ret), s.append (.call callee sig args))

def setRegister (s : Session) (name : String) (v : Value) : Session :=
  { s with registers := (name, v) :: s.registers }

def register? (s : Session) (name : String) : Option Value := List.lookup name s.registers

end Session

end QuantumIR
