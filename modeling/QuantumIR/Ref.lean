/-! # References

Functions, globals, blocks and instructions are referred to by their places in the module list and
in the lists inside a module. Those lists only grow, so a place keeps its meaning.
-/

namespace QuantumIR

/-- A function: the place of its module and its place in the module. -/
structure FnRef where
  module : Nat
  index : Nat
  deriving DecidableEq

structure GlobalRef where
  module : Nat
  index : Nat
  deriving DecidableEq

structure BlockRef where
  fn : FnRef
  index : Nat
  deriving DecidableEq

structure InstrRef where
  block : BlockRef
  index : Nat
  deriving DecidableEq

/-- Where a call stands: in a block of a function, or among those that are in no function. -/
inductive Site
  | placed (ref : InstrRef)
  | stray (index : Nat)
  deriving DecidableEq

end QuantumIR
