import QuantumIR.Text.Escape

/-! # Attributes of functions

A function has a set of attributes at each index: for itself, for what it returns, and for each
parameter. A set holds marks and string attributes, one value for each key, ordered by the bytes of
the key.
-/

namespace QuantumIR

/-- The index of an attribute set; parameters count from one. -/
inductive AttrIndex
  | function
  | ret
  | param (position : Nat)
  deriving DecidableEq

def AttrIndex.ofNat : Nat → AttrIndex
  | 0 => .ret
  | n => .param n

/-- Attributes without a value: what a function does with memory and control, and how it uses a
parameter. -/
inductive Mark
  | argMemOnly
  | cold
  | convergent
  | immArg
  | inaccessibleMemOnly
  | inaccessibleMemOrArgMemOnly
  | noAlias
  | noCapture
  | noDuplicate
  | noFree
  | noMerge
  | noReturn
  | noSync
  | noUndef
  | noUnwind
  | readNone
  | readOnly
  | returned
  | speculatable
  | willReturn
  | writeOnly
  deriving DecidableEq

namespace Mark

def text : Mark → String
  | .argMemOnly => "argmemonly"
  | .cold => "cold"
  | .convergent => "convergent"
  | .immArg => "immarg"
  | .inaccessibleMemOnly => "inaccessiblememonly"
  | .inaccessibleMemOrArgMemOnly => "inaccessiblemem_or_argmemonly"
  | .noAlias => "noalias"
  | .noCapture => "nocapture"
  | .noDuplicate => "noduplicate"
  | .noFree => "nofree"
  | .noMerge => "nomerge"
  | .noReturn => "noreturn"
  | .noSync => "nosync"
  | .noUndef => "noundef"
  | .noUnwind => "nounwind"
  | .readNone => "readnone"
  | .readOnly => "readonly"
  | .returned => "returned"
  | .speculatable => "speculatable"
  | .willReturn => "willreturn"
  | .writeOnly => "writeonly"

/-- All marks, in the order in which they are written. -/
def all : List Mark :=
  [.argMemOnly, .cold, .convergent, .immArg, .inaccessibleMemOnly, .inaccessibleMemOrArgMemOnly,
    .noAlias, .noCapture, .noDuplicate, .noFree, .noMerge, .noReturn, .noSync, .noUndef, .noUnwind,
    .readNone, .readOnly, .returned, .speculatable, .willReturn, .writeOnly]

def ofPtr : Mark → Bool
  | .noAlias | .noCapture | .readNone | .readOnly | .writeOnly => true
  | _ => false

end Mark

inductive Attr
  | mark (m : Mark)
  | string (key value : Bytes)
  deriving DecidableEq

/-- The attributes at one index. The marks stand in the order in which they are written. -/
structure AttrSet where
  marks : List Mark := []
  strings : List (Bytes × Bytes) := []
  deriving DecidableEq

def AttrSet.insertSorted (key value : Bytes) : List (Bytes × Bytes) → List (Bytes × Bytes)
  | [] => [(key, value)]
  | (k, v) :: rest =>
    if key < k then (key, value) :: (k, v) :: rest
    else if key = k then (key, value) :: rest
    else (k, v) :: insertSorted key value rest

namespace AttrSet

/-- Add an attribute; a key that is present gets the new value. -/
def insert (s : AttrSet) : Attr → AttrSet
  | .mark m => { s with marks := Mark.all.filter fun k => k = m || k ∈ s.marks }
  | .string key value => { s with strings := insertSorted key value s.strings }

def get? (s : AttrSet) (key : Bytes) : Option Bytes :=
  (s.strings.find? (·.1 = key)).map (·.2)

/-- The attributes in order: marks first, then strings by key. -/
def toList (s : AttrSet) : List Attr :=
  s.marks.map .mark ++ s.strings.map fun (k, v) => .string k v

def size (s : AttrSet) : Nat := s.marks.length + s.strings.length

def isEmpty (s : AttrSet) : Bool := s.toList.isEmpty

end AttrSet

/-- An attribute as text: its key and value, or nothing for a mark. The value is read before the
key. -/
def Attr.read : Attr → Except Utf8.Error (Option (String × String))
  | .mark _ => .ok none
  | .string key value => do
    let value ← Utf8.decode value
    let key ← Utf8.decode key
    return some (key, value)

def AttrSet.read (s : AttrSet) : Except Utf8.Error (List (Option (String × String))) :=
  s.toList.mapM Attr.read

/-- The printed attribute. The value is escaped and the key is not; an empty value is left out. -/
def Attr.text : Attr → String
  | .mark m => m.text
  | .string key value =>
    "\"" ++ Utf8.display key ++ "\"" ++
      if value = [] then "" else "=\"" ++ Escape.bytes value ++ "\""

def AttrSet.text (s : AttrSet) : String := " ".intercalate (s.toList.map Attr.text)

/-- The attribute sets of a function; an index that is absent has the empty set. -/
abbrev AttrTable := List (AttrIndex × AttrSet)

namespace AttrTable

def get (t : AttrTable) (i : AttrIndex) : AttrSet := (List.lookup i t).getD {}

/-- Add an attribute at an index. -/
def insert (t : AttrTable) (i : AttrIndex) (a : Attr) : AttrTable :=
  match t with
  | [] => [(i, AttrSet.insert {} a)]
  | (j, s) :: rest => if i = j then (j, s.insert a) :: rest else (j, s) :: insert rest i a

end AttrTable

end QuantumIR
