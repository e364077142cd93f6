import QuantumIR.Intrinsic.Table

/-! # Modules

A module holds globals, functions and flags. A function holds blocks and a block instructions.
Nothing is ever removed: every operation here adds at the end of a list or adds an attribute.
-/

namespace QuantumIR

/-- Instructions. A call keeps the type of the function it was built for. -/
inductive Instr
  | call (callee : FnRef) (sig : Signature) (args : List Value)
  | ret (value : Option Value)
  | br (target : BlockRef)
  | condBr (condition : Value) (ifTrue ifFalse : BlockRef)
  deriving DecidableEq

namespace Instr

def ty : Instr → Ty
  | .call _ sig _ => sig.ret
  | _ => .void

def hasResult (i : Instr) : Bool := i.ty ≠ .void

def isTerminator : Instr → Bool
  | .call _ _ _ => false
  | _ => true

def operands : Instr → List Value
  | .call _ _ args => args
  | .ret value => value.toList
  | .br _ => []
  | .condBr condition _ _ => [condition]

def modules (i : Instr) : List Nat :=
  match i with
  | .call callee _ _ => callee.module :: i.operands.flatMap Value.modules
  | _ => i.operands.flatMap Value.modules

def targets : Instr → List BlockRef
  | .br target => [target]
  | .condBr _ ifTrue ifFalse => [ifTrue, ifFalse]
  | _ => []

end Instr

/-- The place of a branch: a block of a function, a block that is in no function, or no block at
all. -/
inductive Source
  | block (ref : BlockRef)
  | loose (name : Bytes)
  | nowhere
  deriving DecidableEq

/-- A block: its name, empty for none, its instructions, and the places of the branches to it, the
latest first. -/
structure Block where
  name : Bytes
  body : List Instr := []
  sources : List Source := []
  deriving DecidableEq

namespace Block

def push (b : Block) (i : Instr) : Block := { b with body := b.body ++ [i] }

def addSource (b : Block) (s : Source) : Block := { b with sources := s :: b.sources }

/-- The numbers that a block takes: one for itself if it has no name, and one for each result. -/
def slots (b : Block) : Nat := (if b.name = [] then 1 else 0) + b.body.countP Instr.hasResult

end Block

inductive Linkage
  | external
  | internal
  | privateSymbol
  | weak
  deriving DecidableEq

/-- A function; without blocks it is a declaration. `intrinsic` is the known function that it was
declared as, and `nextBlock` the number to try next when a block name is in use. -/
structure Fn where
  name : String
  sig : Signature
  linkage : Linkage := .external
  intrinsic : Option Intrinsic := none
  attrs : AttrTable := []
  blocks : List Block := []
  nextBlock : Nat := 1
  deriving DecidableEq

/-- The names of the blocks of a function, and the number to try next. -/
structure Labels where
  names : List Bytes
  next : Nat

namespace Labels

/-- The number of bytes to which the name of a block is cut. -/
def bound : Nat := 1024

/-- The name that a new block gets, and the number to try next. The name is cut before a number is
put behind it. -/
def fresh (l : Labels) (name : Bytes) : Bytes × Nat :=
  let name := name.take bound
  Name.fresh (l.names.filter (· ≠ [])) (fun k => name ++ Bytes.ofString (toString k)) l.next name

end Labels

namespace Fn

def isReserved (f : Fn) : Bool := (Bytes.ofString "llvm.").isPrefixOf (Bytes.ofString f.name)

def labels (f : Fn) : Labels := ⟨f.blocks.map Block.name, f.nextBlock⟩

def addBlock (f : Fn) (name : Bytes) : Fn :=
  let (name, next) := f.labels.fresh name
  { f with blocks := f.blocks ++ [{ name }], nextBlock := next }

def addAttr (f : Fn) (i : AttrIndex) (a : Attr) : Fn := { f with attrs := f.attrs.insert i a }

def attr? (f : Fn) (key : String) : Option Bytes :=
  (f.attrs.get .function).get? (Bytes.ofString key)

def hasAttr (f : Fn) (key : String) : Bool := (f.attr? key).isSome

/-- The first number that no parameter and no block before `b` takes. -/
def slotsBefore (f : Fn) (b : Nat) : Nat :=
  (f.blocks.take b).foldl (fun n blk => n + blk.slots) f.sig.params.length

def resultSlot (f : Fn) (b i : Nat) : Nat :=
  f.slotsBefore b +
    ((f.blocks[b]?).map fun blk =>
      (if blk.name = [] then 1 else 0) + (blk.body.take i).countP Instr.hasResult).getD 0

end Fn

/-- A global variable. One with data is a constant of this module, any other is defined
elsewhere. -/
structure Global where
  name : String
  ty : Ty
  data : Option Bytes := none
  deriving DecidableEq

/-- What a linker does with a flag that two modules set. -/
inductive Behavior
  | error
  | warning
  | require
  | override
  | append
  | appendUnique
  | max
  deriving DecidableEq

def Behavior.code : Behavior → Nat
  | .error => 1
  | .warning => 2
  | .require => 3
  | .override => 4
  | .append => 5
  | .appendUnique => 6
  | .max => 7

structure Flag where
  behavior : Behavior
  id : String
  value : Metadata
  deriving DecidableEq

def Flag.toMetadata (f : Flag) : Metadata :=
  .node [.const (.int 32 f.behavior.code), .str (Bytes.ofString f.id), f.value]

/-- A module. Functions and globals share one table of names, in which `nextSymbol` is the number
to try next when a name is in use. -/
structure Module where
  name : String
  globals : List Global := []
  functions : List Fn := []
  flags : List Flag := []
  nextSymbol : Nat := 1
  deriving DecidableEq

namespace Module

def symbols (m : Module) : List String :=
  (m.globals.map Global.name ++ m.functions.map Fn.name).filter (· ≠ "")

def freshSymbol (m : Module) (name : String) : String × Nat :=
  Name.fresh m.symbols (fun k => name ++ "." ++ toString k) m.nextSymbol name

/-- The function that is appended under a name. The name that is asked for makes it an intrinsic,
and then it has the attributes of one. -/
def newFunction (m : Module) (name : String) (sig : Signature) (linkage : Linkage) : Fn :=
  let intrinsic := Intrinsic.find? name
  let attrs := (intrinsic.map Intrinsic.attrs).getD []
  { name := (m.freshSymbol name).1, sig, linkage, intrinsic, attrs }

def addFunction (m : Module) (name : String) (sig : Signature) (linkage : Linkage := .external) :
    Module :=
  { m with functions := m.functions ++ [m.newFunction name sig linkage],
           nextSymbol := (m.freshSymbol name).2 }

def addGlobal (m : Module) (name : String) (ty : Ty) (data : Option Bytes := none) : Module :=
  let (name, next) := m.freshSymbol name
  { m with globals := m.globals ++ [{ name, ty, data }], nextSymbol := next }

/-- The place of the function of a name. Globals and functions without a name are not found. -/
def findFunction? (m : Module) (name : String) : Option Nat :=
  if name = "" then none else m.functions.findIdx? (·.name = name)

def updateFunction (m : Module) (i : Nat) (g : Fn → Fn) : Module :=
  { m with functions := m.functions.modify i g }

/-- Append a flag, whether or not there is one of that name. -/
def addFlag (m : Module) (f : Flag) : Module := { m with flags := m.flags ++ [f] }

def flag? (m : Module) (id : String) : Option Metadata :=
  (m.flags.find? (·.id = id)).map Flag.value

def instrs (m : Module) : List Instr :=
  m.functions.flatMap fun f => f.blocks.flatMap Block.body

def globalSlot (m : Module) (i : Nat) : Nat := (m.globals.take i).countP (·.name = "")

/-- The number of a function without a name; they are numbered after the globals. -/
def functionSlot (m : Module) (i : Nat) : Nat :=
  m.globals.countP (·.name = "") + (m.functions.take i).countP (·.name = "")

end Module

end QuantumIR
