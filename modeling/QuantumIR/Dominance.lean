import QuantumIR.Module

/-! # Dominance

Control enters a function at its first block and leaves a block through its last instruction. A
block dominates another if control cannot come to the other without passing through it, and the
result of a call is available where the call has been carried out whenever control comes there.
-/

namespace QuantumIR

def Block.successors (b : Block) : List BlockRef := (b.body.getLast?.map Instr.targets).getD []

/-- Visit what can be reached from the top of a stack, each thing once. The things visited so far
are in `seen`. -/
def visit (next : Nat → List Nat) : Nat → List Nat → List Nat → List Nat
  | 0, _, seen => seen
  | _ + 1, [], seen => seen
  | n + 1, b :: stack, seen =>
    if b ∈ seen then visit next n stack seen else visit next n (next b ++ stack) (b :: seen)

namespace Fn

def successors (r : FnRef) (f : Fn) (b : Nat) : List Nat :=
  ((f.blocks[b]?).map fun blk => (blk.successors.filter (·.fn = r)).map BlockRef.index).getD []

/-- The blocks to which control can come without entering those in `closed`. A block has at most two
successors, which bounds the number of steps. -/
def entered (r : FnRef) (f : Fn) (closed : List Nat) : List Nat :=
  visit (fun b => (f.successors r b).filter (· ∉ closed)) (2 * f.blocks.length + 1)
    ([0].filter (· ∉ closed)) []

/-- Control comes to block `u` only through block `d`. -/
def dominates (r : FnRef) (f : Fn) (d u : Nat) : Bool := u ∉ f.entered r [d]

/-- The result of the call at `site` may be used by instruction `i` of block `b`: the call stands
earlier in the block or in a block that dominates it. Where control never comes, everything may be
used. -/
def available (r : FnRef) (f : Fn) (b i : Nat) (site : Site) : Bool :=
  match site with
  | .placed ⟨⟨owner, d⟩, j⟩ =>
    (owner = r && d = b && j < i) || b ∉ f.entered r [] ||
      (owner = r && d ≠ b && d ∈ f.entered r [] && f.dominates r d b)
  | .stray _ => b ∉ f.entered r []

end Fn

end QuantumIR
