import Mathlib.Data.List.Induction
import Stylesheet.Sheet.Edit
import Stylesheet.Sheet.Query

/-!
This module contains what adding a block to the end of a sheet does to the positions that a query
finds and to a removal. Since a block keeps its position from then on, facts about positions are
proved by induction on the blocks in the order in which they are added.
-/

namespace Stylesheet
namespace Sheet

@[elab_as_elim]
theorem add_induction {motive : Sheet → Prop} (empty : motive empty)
    (add : ∀ s b, motive s → motive (s.add b)) (s : Sheet) : motive s := by
  rcases s with ⟨blocks⟩
  induction blocks using List.reverseRecOn with
  | nil => exact empty
  | append_singleton blocks b ih => exact add ⟨blocks⟩ b ih

variable (s : Sheet) (b : Block) (q : Query) (indices : List Nat)

theorem block?_add (index : Nat) :
    (s.add b).block? index = if index = s.length then some b else s.block? index := by
  simp only [block?, add, length, List.getElem?_append]
  grind

theorem positions_add :
    (s.add b).positions q =
      s.positions q ++ if b.ruleset?.any q.selects then [s.length] else [] := by
  rw [positions, add, List.zipIdx_append, List.filterMap_append, Nat.zero_add]
  congr 1
  cases h : b.ruleset?.any q.selects <;> simp [h, length]

theorem remove_add :
    (s.add b).remove indices =
      if s.length ∈ indices then s.remove indices else (s.remove indices).add b := by
  rw [remove, add, List.zipIdx_append, List.filterMap_append, Nat.zero_add]
  by_cases h : s.length ∈ indices <;> simp_all [length, remove, add]

end Sheet
end Stylesheet
