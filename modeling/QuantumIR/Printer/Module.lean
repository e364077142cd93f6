import QuantumIR.Printer.Value
import QuantumIR.Survey

/-! # Printed modules

The text of a module has sections, each after an empty line: structs, globals, one section for each
function, attribute groups, and metadata.
-/

namespace QuantumIR

def distinct {α : Type} [DecidableEq α] (as : List α) : List α :=
  as.foldl (fun seen a => if a ∈ seen then seen else seen ++ [a]) []

/-- The attribute groups of a module, in the order of their first use. -/
def Module.attrGroups (m : Module) : List AttrSet :=
  distinct ((m.functions.map fun f => f.attrs.get .function).filter fun a => !a.isEmpty)

def Linkage.text : Linkage → String
  | .external => ""
  | .internal => "internal "
  | .privateSymbol => "private "
  | .weak => "weak "

namespace Session

/-- The lines at the head of a module. A name with a line break cannot stand in a comment. -/
def headLines (m : Module) : List String :=
  (if m.name = "" ∨ '\n' ∈ m.name.toList then [] else ["; ModuleID = '" ++ m.name ++ "'"]) ++
    if m.name = "" then [] else ["source_filename = \"" ++ Escape.text m.name ++ "\""]

def globalLine (s : Session) (scope : Scope) (r : GlobalRef) (g : Global) : String :=
  s.globalText scope r ++ " = " ++
    match g.data with
    | none => "external global " ++ g.ty.text
    | some data =>
      "internal constant " ++ g.ty.text ++
        if data.all (· = 0) then " zeroinitializer" else " c\"" ++ Escape.bytes data ++ "\""

/-- A parameter: its type, its attributes, and its number if the function has blocks. -/
def paramText (f : Fn) (i : Nat) (t : Ty) : String :=
  let attrs := f.attrs.get (.param (i + 1))
  t.text ++ (if attrs.isEmpty then "" else " " ++ attrs.text) ++
    if f.blocks.isEmpty then "" else " %" ++ toString i

def signatureLine (s : Session) (scope : Scope) (groups : List AttrSet) (r : FnRef) (f : Fn) :
    String :=
  let own := f.attrs.get .function
  let ret := f.attrs.get .ret
  (if f.blocks.isEmpty then "declare " else "define ") ++ f.linkage.text ++
    (if ret.isEmpty then "" else ret.text ++ " ") ++ f.sig.ret.text ++ " " ++ s.fnText scope r ++
    "(" ++ ", ".intercalate (f.sig.params.mapIdx (paramText f)) ++ ")" ++
    (if own.isEmpty then "" else " #" ++ toString (groups.idxOf own)) ++
    if f.blocks.isEmpty then "" else " \x7b"

/-- The column at which the predecessors of a block are listed. -/
def commentColumn : Nat := 50

/-- The label of a block and its predecessors. The first block has none, and no label unless it has
a name. -/
def labelLines (s : Session) (f : Fn) (i : Nat) (b : Block) : List String :=
  let label := (if b.name ≠ [] then Name.quotedBytes b.name else toString (f.slotsBefore i)) ++ ":"
  if i = 0 then if b.name ≠ [] then [label] else []
  else
    let gap := max 1 (commentColumn - label.length)
    let preds :=
      if b.sources.isEmpty then "; No predecessors!"
      else "; preds = " ++ ", ".intercalate (b.sources.map s.sourceText)
    ["", label ++ String.ofList (List.replicate gap ' ') ++ preds]

def blockLines (s : Session) (view : View) (r : FnRef) (f : Fn) (i : Nat) (b : Block) :
    List String :=
  s.labelLines f i b ++
    b.body.mapIdx fun j instr => "  " ++ s.instrText view (.placed ⟨⟨r, i⟩, j⟩) instr

def markLines (f : Fn) : List String :=
  match (f.attrs.get .function).marks with
  | [] => []
  | marks => ["; Function Attrs: " ++ " ".intercalate (marks.map Mark.text)]

def functionLines (s : Session) (view : View) (groups : List AttrSet) (r : FnRef) (f : Fn) :
    List String :=
  markLines f ++ s.signatureLine view.scope groups r f ::
    if f.blocks.isEmpty then []
    else (f.blocks.mapIdx (s.blockLines view r f)).flatten ++ ["\x7d"]

def attrGroupLine (i : Nat) (a : AttrSet) : String :=
  "attributes #" ++ toString i ++ " = \x7b " ++ a.text ++ " \x7d"

def nodeLine (s : Session) (view : View) (m : Metadata) : String :=
  match m with
  | .node ms => s.metadataText view m ++ " = " ++ s.nodeText view ms
  | m => s.metadataText view m

/-- The two sections of metadata: the list of flags and the nodes. -/
def metadataSections (s : Session) (view : View) (m : Module) : List (List String) :=
  let flags := m.flags.map fun f => s.metadataText view f.toMetadata
  [if flags.isEmpty then []
    else ["!llvm.module.flags = !\x7b" ++ ", ".intercalate flags ++ "\x7d"],
    view.nodes.map (s.nodeLine view)]

def sections (s : Session) (index : Nat) (m : Module) : List (List String) :=
  let view := s.moduleView index
  let groups := m.attrGroups
  [(m.usedStructs s.structs).map StructDef.text,
      m.globals.mapIdx fun i g => s.globalLine view.scope ⟨index, i⟩ g] ++
    (m.functions.mapIdx fun i f => s.functionLines view groups ⟨index, i⟩ f) ++
    [groups.mapIdx attrGroupLine] ++ s.metadataSections view m

def unlines (lines : List String) : String := String.join (lines.map (· ++ "\n"))

/-- Printed text ends at its first zero character; the keys of attributes may hold one. -/
def untilZero (text : String) : String := String.ofList (text.toList.takeWhile (· ≠ Char.ofNat 0))

def moduleText (s : Session) (index : Nat) (m : Module) : String :=
  untilZero <| unlines (headLines m) ++
    String.join (((s.sections index m).filter fun lines => !lines.isEmpty).map fun lines =>
      "\n" ++ unlines lines)

def showType (s : Session) (t : Ty) : String :=
  match t with
  | .struct name => ((s.struct? name).map StructDef.text).getD t.text
  | t => t.text

/-- A value on its own: a function, global or node as it is defined, a result as the instruction
that gives it, anything else with its type. -/
def showValue (s : Session) (v : Value) : String :=
  let home : View := ⟨.home, []⟩
  match v with
  | .const (.fn r sig) =>
    match s.module? r.module, s.fn? r with
    | some m, some f =>
      untilZero (unlines (s.functionLines (s.moduleView r.module) m.attrGroups r f))
    | _, _ => s.typedValueText home (.const (.fn r sig))
  | .const (.global r ty) =>
    match s.global? r with
    | some g => s.globalLine (.module r.module) r g
    | none => s.typedValueText home (.const (.global r ty))
  | .bound (.result site ty) =>
    match s.instr? site with
    | some i => s.instrText (s.viewOf site i) site i
    | none => s.typedValueText home (.bound (.result site ty))
  | .metadata m => s.nodeLine (s.metadataView m) m
  | v => s.typedValueText home v

end Session

end QuantumIR
