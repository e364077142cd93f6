import QuantumIR.ByteString
import QuantumIR.Dominance
import QuantumIR.Verifier.Attribute
import QuantumIR.Verifier.Flag
import QuantumIR.Verifier.Intrinsic

/-! # Valid modules

A module is valid when its flags are, the data of its globals has the type of the global, and each
function is well formed: every block ends with its only terminator, calls and returns fit the types,
results are used where they are available, and nothing refers to another function's blocks or
parameters or to another module. Nor may anything outside the module refer to its functions and
globals. Some names are reserved: functions with such a name have no blocks and are only called, and
those that are intrinsics are called as these ask for.
-/

namespace QuantumIR

/-- Some globals are lists: of functions to run first or last, which have an element type of their
own, or of the symbols to keep, which are pointers. -/
def Global.listValid (g : Global) : Bool :=
  match g.ty with
  | .array elem _ =>
    g.name ∉ ["llvm.global_ctors", "llvm.global_dtors"] &&
      (g.name ∉ ["llvm.used", "llvm.compiler.used"] || elem.isPtr)
  | _ => true

/-- The data of a global has the global's type. -/
def Global.valid (g : Global) : Bool :=
  g.listValid &&
    match g.data with
    | none => true
    | some data => g.ty = dataTy data

/-- A cast that keeps the bits leads from a pointer to a pointer in the same address space. -/
def Constant.castsValid : Constant → Bool
  | .cast .bits base t => base.ty.isPtr && t.space? = base.ty.space? && base.castsValid
  | .cast _ base _ => base.castsValid
  | .element _ base _ _ => base.castsValid
  | _ => true

/-- A constant may be used in a module. Only pointers are looked into. -/
def Constant.usableIn (module : Nat) (c : Constant) : Bool :=
  !c.ty.isPtr || (c.modules.all (· = module) && c.castsValid)

def Value.usableAt (r : FnRef) (f : Fn) (b i : Nat) : Value → Bool
  | .const c => c.usableIn r.module
  | .bound (.param owner _ _) => owner = r
  | .bound (.result site _) => f.available r b i site
  | .metadata _ => true

/-- A block may be branched to from a function: it is another block of it than the first. -/
def BlockRef.targetIn (r : FnRef) (b : BlockRef) : Bool := b.fn = r && b.index ≠ 0

def Instr.typesValid (f : Fn) (instr : Instr) : Bool :=
  (instr.operands.all fun v => v.ty ≠ .void) &&
    match instr with
    | .call _ sig args => args.map Value.ty = sig.params
    | .ret none => f.sig.ret = .void
    | .ret (some v) => f.sig.ret ≠ .void && v.ty = f.sig.ret
    | .br _ => true
    | .condBr condition _ _ => condition.ty = .bit

def Instr.calleeIn (module : Nat) : Instr → Bool
  | .call callee _ _ => callee.module = module
  | _ => true

def Instr.valid (r : FnRef) (f : Fn) (b i : Nat) (instr : Instr) : Bool :=
  instr.typesValid f && instr.calleeIn r.module && instr.targets.all (BlockRef.targetIn r) &&
    instr.operands.all (Value.usableAt r f b i)

def Block.terminated (b : Block) : Bool :=
  match b.body.getLast? with
  | none => false
  | some i => i.isTerminator && b.body.dropLast.all fun j => !j.isTerminator

def Block.valid (r : FnRef) (f : Fn) (b : Nat) (block : Block) : Bool :=
  block.terminated && (block.body.mapIdx fun i instr => instr.valid r f b i).all id

def Fn.valid (r : FnRef) (f : Fn) : Bool :=
  (f.linkage = .external || !f.blocks.isEmpty) && (!f.isReserved || f.blocks.isEmpty) &&
    (f.sig.params.all (· ≠ .void)) && f.attrs.all f.attrValid &&
    (f.blocks.mapIdx (Block.valid r f)).all id

def Module.callsValid (index : Nat) (m : Module) : Bool :=
  m.instrs.all fun
    | .call callee sig args =>
      callee.module ≠ index || ((m.functions[callee.index]?).map (·.callValid sig args)).getD true
    | _ => true

/-- The functions of the module at `index` whose address is taken have no reserved name. The address
of a function is taken by a cast, and by an instruction that does not call it. -/
def Module.addressesValid (index : Nat) (m : Module) (castFns : List FnRef) : Bool :=
  (castFns ++ m.instrs.flatMap fun i => i.operands.filterMap Value.function?).all fun r =>
    r.module ≠ index || !((m.functions[r.index]?).map Fn.isReserved).getD false

def Module.valid (index : Nat) (m : Module) : Bool :=
  m.flagsValid && m.globals.all Global.valid && m.callsValid index &&
    (m.functions.mapIdx fun i f => f.valid ⟨index, i⟩).all id

def Session.outsideInstrs (s : Session) (index : Nat) : List Instr :=
  s.strays ++ (s.modules.eraseIdx index).flatMap Module.instrs

/-- The module at `index` is valid, and nothing outside refers to it. -/
def Session.verify (s : Session) (index : Nat) (m : Module) : Bool :=
  m.valid index && m.addressesValid index s.castFns &&
    (s.outsideInstrs index).all fun i => index ∉ i.modules

end QuantumIR
