import QuantumIR.Session
import QuantumIR.Layout

/-! # The structs that a module uses

A printed module defines the structs that occur in it. They are found by walking through its types
with a stack: the parts of a type are put on the stack from the last to the first, each unless it
has been put there before. A part that occurs twice in a type thus counts at its last place.
-/

namespace QuantumIR

def Ty.parts (structs : List StructDef) : Ty → List Ty
  | .ptr pointee _ => [pointee]
  | .array elem _ => [elem]
  | .struct name => (Ty.body? structs name).getD []
  | .function ret params => ret :: params
  | _ => []

/-- The types seen so far, and the names of the structs among them that have been reached. -/
structure Survey where
  seen : List Ty := []
  found : List String := []

namespace Survey

/-- Put a type on the stack unless it has been seen. -/
def push (t : Ty) (work : List Ty × List Ty) : List Ty × List Ty :=
  if t ∈ work.2 then work else (t :: work.1, t :: work.2)

/-- Work the stack off. Each step takes a type that was put there once, so as many steps are enough
as there are types. -/
def walk (structs : List StructDef) : Nat → List Ty → Survey → Survey
  | 0, _, s => s
  | _ + 1, [], s => s
  | n + 1, t :: stack, s =>
    let found := match t with
      | .struct name => s.found ++ [name]
      | _ => s.found
    let (stack, seen) := (t.parts structs).foldr push (stack, s.seen)
    walk structs n stack ⟨seen, found⟩

def add (structs : List StructDef) (s : Survey) (t : Ty) : Survey :=
  if t ∈ s.seen then s
  else
    walk structs (t.stepBound structs) [t] { s with seen := t :: s.seen }

end Survey

/-- The types in a constant, its own first. Functions and globals are visited where they stand. -/
def Constant.types : Constant → List Ty
  | .fn _ _ => []
  | .global _ _ => []
  | .cast _ base t => t :: base.types
  | .element _ base _ t => t :: base.types
  | c => [c.ty]

mutual

def Metadata.types : Metadata → List Ty
  | .str _ => []
  | .const c => c.types
  | .bound _ => []
  | .node ms => Metadata.typesAll ms

def Metadata.typesAll : List Metadata → List Ty
  | [] => []
  | m :: ms => m.types ++ Metadata.typesAll ms

end

def Value.types : Value → List Ty
  | .const c => c.types
  | .metadata m => m.types
  | _ => []

def Instr.types (i : Instr) : List Ty := i.ty :: i.operands.flatMap Value.types

def Fn.types (f : Fn) : List Ty :=
  f.sig.ty :: f.blocks.flatMap fun b => b.body.flatMap Instr.types

def Module.types (m : Module) : List Ty :=
  m.globals.map Global.ty ++ m.functions.flatMap Fn.types ++
    m.flags.flatMap fun f => f.toMetadata.types

/-- The structs that a module uses, in the order in which they are defined in its text. -/
def Module.usedStructs (m : Module) (structs : List StructDef) : List StructDef :=
  (m.types.foldl (Survey.add structs) {}).found.filterMap fun name =>
    structs.find? (·.name = name)

end QuantumIR
