import Stylesheet.Sheet.Basic

/-!
This module contains the changes to a sheet. Positions that are given to a removal count from
before it; what is left keeps its order.
-/

namespace Stylesheet

namespace Sheet

def add (s : Sheet) (b : Block) : Sheet :=
  ⟨s.blocks ++ [b]⟩

/--
A sheet without the blocks at the given positions.
-/
def remove (s : Sheet) (indices : List Nat) : Sheet :=
  ⟨s.blocks.zipIdx.filterMap fun (b, index) => if index ∈ indices then none else some b⟩

/--
How many blocks a removal takes away; no position counts twice.
-/
def removalCount (s : Sheet) (indices : List Nat) : Nat :=
  (indices.filter (· < s.length)).eraseDups.length

end Sheet

/--
The notices about positions that a sheet does not have.
-/
def Notice.ofRemoval (s : Sheet) (indices : List Nat) : List Notice :=
  (indices.filter (s.length ≤ ·)).map fun index => .ignoredIndex index s.length

namespace Sheet

@[simp]
theorem length_add (s : Sheet) (b : Block) : (s.add b).length = s.length + 1 := by
  simp [length, add]

@[simp]
theorem remove_nil (s : Sheet) : s.remove [] = s := by
  simp [remove]

end Sheet

end Stylesheet
