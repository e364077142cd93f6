import QuantumIR.Printer.View
import QuantumIR.Double

/-! # Printed values

Symbols, blocks and values without a name are printed by number, and so are metadata nodes. A symbol
has a number only as seen from its own module; a parameter or result is numbered in its own
function.
-/

namespace QuantumIR

/-- What is printed for something that has neither a name nor a number. -/
def unresolved : String := "<badref>"

def Cast.text : Cast → String
  | .bits => "bitcast"
  | .space => "addrspacecast"
  | .number => "ptrtoint"

namespace Session

/-- A symbol: its name, or its number where it has one. -/
def symbolText (scope : Scope) (module : Nat) (name : String) (slot : Nat) : String :=
  if name ≠ "" then "@" ++ Name.quoted name
  else if scope.sees module then "@" ++ toString slot
  else unresolved

def fnText (s : Session) (scope : Scope) (r : FnRef) : String :=
  match s.module? r.module, s.fn? r with
  | some m, some f => symbolText scope r.module f.name (m.functionSlot r.index)
  | _, _ => unresolved

def globalText (s : Session) (scope : Scope) (r : GlobalRef) : String :=
  match s.module? r.module, s.global? r with
  | some m, some g => symbolText scope r.module g.name (m.globalSlot r.index)
  | _, _ => unresolved

def constantText (s : Session) (scope : Scope) : Constant → String
  | .int 1 n => if n = 0 then "false" else "true"
  | .int bits n => toString (signed bits n)
  | .double bits => Double.text bits
  | .null _ => "null"
  | .zero _ => "zeroinitializer"
  | .address n t => "inttoptr (i64 " ++ toString (signed 64 n.toNat) ++ " to " ++ t.text ++ ")"
  | .fn r _ => s.fnText scope r
  | .global r _ => s.globalText scope r
  | .cast kind base t =>
    kind.text ++ " (" ++ base.ty.text ++ " " ++ s.constantText scope base ++ " to " ++ t.text ++ ")"
  | .element inBounds base is _ =>
    "getelementptr " ++ (if inBounds then "inbounds " else "") ++ "(" ++ base.pointee.text ++
      ", " ++ base.ty.text ++ " " ++ s.constantText scope base ++
      String.join (is.map fun i => ", " ++ i.text) ++ ")"

def typedConstantText (s : Session) (scope : Scope) (c : Constant) : String :=
  c.ty.text ++ " " ++ s.constantText scope c

def resultText (s : Session) (site : Site) : String :=
  match site with
  | .stray _ => unresolved
  | .placed r =>
    match s.fn? r.block.fn with
    | none => unresolved
    | some f => "%" ++ toString (f.resultSlot r.block.index r.index)

/-- A parameter or result without its type. A call that gives nothing has no number. -/
def localText (s : Session) : Local → String
  | .param _ i _ => "%" ++ toString i
  | .result site t => if t = .void then unresolved else s.resultText site

mutual

/-- Metadata: a node by its number, or written out if it has none. -/
def metadataText (s : Session) (view : View) : Metadata → String
  | .str data => "!\"" ++ Escape.bytes data ++ "\""
  | .const c => s.typedConstantText view.scope c
  | .bound l => l.ty.text ++ " " ++ s.localText l
  | .node ms =>
    match view.nodeNumber? (.node ms) with
    | some n => "!" ++ toString n
    | none => "!\x7b" ++ ", ".intercalate (s.metadataTexts view ms) ++ "\x7d"

def metadataTexts (s : Session) (view : View) : List Metadata → List String
  | [] => []
  | m :: ms => s.metadataText view m :: s.metadataTexts view ms

end

/-- A node written out, with its operands by their numbers. -/
def nodeText (s : Session) (view : View) (ms : List Metadata) : String :=
  "!\x7b" ++ ", ".intercalate (s.metadataTexts view ms) ++ "\x7d"

def valueText (s : Session) (view : View) : Value → String
  | .const c => s.constantText view.scope c
  | .bound l => s.localText l
  | .metadata m => s.metadataText view m

def typedValueText (s : Session) (view : View) (v : Value) : String :=
  v.ty.text ++ " " ++ s.valueText view v

def blockText (s : Session) (r : BlockRef) : String :=
  match s.fn? r.fn, s.block? r with
  | some f, some b =>
    if b.name ≠ [] then "%" ++ Name.quotedBytes b.name
    else "%" ++ toString (f.slotsBefore r.index)
  | _, _ => unresolved

def sourceText (s : Session) : Source → String
  | .block r => s.blockText r
  | .loose name => if name ≠ [] then "%" ++ Name.quotedBytes name else unresolved
  | .nowhere => "<null operand!>"

/-- An instruction. The site is where it stands; outside every function a call names the address
space of what it calls. -/
def instrText (s : Session) (view : View) (site : Site) (i : Instr) : String :=
  match i with
  | .call callee sig args =>
    (if i.hasResult then s.resultText site ++ " = " else "") ++ "call " ++
      (if view.scope = .outside then "addrspace(0) " else "") ++ sig.ret.text ++ " " ++
      s.fnText view.scope callee ++ "(" ++
      ", ".intercalate (args.map (s.typedValueText view)) ++ ")"
  | .ret none => "ret void"
  | .ret (some v) => "ret " ++ s.typedValueText view v
  | .br target => "br label " ++ s.blockText target
  | .condBr condition ifTrue ifFalse =>
    "br " ++ s.typedValueText view condition ++ ", label " ++ s.blockText ifTrue ++ ", label " ++
      s.blockText ifFalse

def lastInstrText? (s : Session) : Option String :=
  s.lastInstr?.map fun (site, i) => s.instrText (s.viewOf site i) site i

end Session

end QuantumIR
