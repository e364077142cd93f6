import QuantumIR.Module

/-! # Valid attributes

Most keys may have any value. Some are switches, one chooses which functions keep a frame pointer,
and some are numbers of thirty-two bits. Attributes stand at parameters that exist. Most marks of a
parameter say something about a pointer; a number that has to be written has no other attribute, and
a parameter that is returned has the type of the result.
-/

namespace QuantumIR

def switchKeys : List String :=
  ["approx-func-fp-math", "less-precise-fpmad", "no-infs-fp-math", "no-inline-line-tables",
    "no-jump-tables", "no-nans-fp-math", "no-signed-zeros-fp-math", "profile-sample-accurate",
    "unsafe-fp-math", "use-sample-profile"]

/-- The keys of numbers; they count at the function itself only. -/
def numberKeys : List String :=
  ["patchable-function-entry", "patchable-function-prefix", "warn-stack-size"]

def oneOf (texts : List String) (value : Bytes) : Bool := value ∈ texts.map Bytes.ofString

/-- A switch is on, off, or left out. -/
def isSwitch (value : Bytes) : Bool := oneOf ["", "true", "false"] value

/-- The frame pointer is kept in every function, in those that call others, or in none. -/
def isFramePointer (value : Bytes) : Bool := oneOf ["all", "non-leaf", "none"] value

/-- A number is written in digits and has thirty-two bits. -/
def isWord (value : Bytes) : Bool :=
  value ≠ [] && value.all Name.isDigitByte &&
    value.foldl (fun n b => n * 10 + (b.toNat - 48)) 0 < Nat.pow 2 32

def AttrSet.switchesValid (a : AttrSet) : Bool :=
  a.strings.all fun (key, value) => !oneOf switchKeys key || isSwitch value

def AttrSet.functionValid (a : AttrSet) : Bool :=
  a.strings.all fun (key, value) =>
    (!oneOf ["frame-pointer"] key || isFramePointer value) &&
      (!oneOf numberKeys key || isWord value)

def Ty.standsFor (t u : Ty) : Bool := t = u || (t.isPtr && t.space? = u.space?)

/-- A mark of a parameter fits its type and what the function returns. -/
def Mark.fits (ret t : Ty) (m : Mark) : Bool :=
  (!m.ofPtr || t.isPtr) && (m ≠ .returned || t.standsFor ret)

def AttrSet.paramValid (ret t : Ty) (a : AttrSet) : Bool :=
  a.marks.all (·.fits ret t) && (.immArg ∉ a.marks || a.toList.length = 1)

def Fn.attrValid (f : Fn) : AttrIndex × AttrSet → Bool
  | (.function, a) => a.switchesValid && a.functionValid
  | (.ret, a) => a.switchesValid
  | (.param n, a) =>
    match f.sig.params[n - 1]? with
    | none => a.isEmpty
    | some t => a.switchesValid && a.paramValid f.sig.ret t

end QuantumIR
