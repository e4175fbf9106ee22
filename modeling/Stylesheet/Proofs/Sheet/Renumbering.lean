import Stylesheet.Proofs.Sheet.Query
import Stylesheet.Proofs.Sheet.Removal

/-!
This module contains what a query finds after a removal: what it found before and was not removed,
at the positions to which the blocks have moved.
-/

namespace Stylesheet
namespace Sheet

theorem positions_remove (s : Sheet) (q : Query) (indices : List Nat) :
    (s.remove indices).positions q =
      ((s.positions q).filter (· ∉ indices)).map (shifted indices) := by
  induction s using add_induction with
  | empty => rfl
  | add s b ih =>
    rw [remove_add, positions_add, List.filter_append, List.map_append, ← ih]
    by_cases h : s.length ∈ indices
    . rw [if_pos h]
      split <;> simp [h]
    . rw [if_neg h, positions_add, length_remove]
      split <;> simp [h]

theorem blocks_remove_positions (s : Sheet) (q : Query) :
    (s.remove (s.positions q)).blocks = s.blocks.filter fun b => !b.ruleset?.any q.selects := by
  induction s using add_induction with
  | empty => rfl
  | add s b ih =>
    have hbefore : s.remove ((s.add b).positions q) = s.remove (s.positions q) := by
      apply remove_congr
      intro i hi
      rw [positions_add, List.mem_append, or_iff_left]
      split
      . simpa using Nat.ne_of_lt hi
      . exact List.not_mem_nil
    have hlast : s.length ∉ s.positions q := by
      intro hmem
      have := lt_length_of_mem_positions hmem
      omega
    have hadd : (s.add b).blocks = s.blocks ++ [b] := rfl
    rw [remove_add, hbefore, positions_add, hadd, List.filter_append, ← ih]
    by_cases h : b.ruleset?.any q.selects <;> simp [h, hlast, add]

theorem removalCount_positions (s : Sheet) (q : Query) :
    s.removalCount (s.positions q) = (s.positions q).length := by
  have hnodup : (s.positions q).Nodup := (pairwise_positions s q).imp Nat.ne_of_lt
  have hperm : ((List.range s.length).filter (· ∈ s.positions q)).Perm (s.positions q) := by
    rw [List.perm_ext_iff_of_nodup (List.nodup_range.filter _) hnodup]
    intro i
    have hlt := lt_length_of_mem_positions (s := s) (q := q) (i := i)
    simpa using hlt
  rw [removalCount_eq, removedBelow, List.countP_eq_length_filter, hperm.length_eq]

/--
After a removal a query finds what it found before, but for what was removed, at the positions to
which the blocks have moved. If all that a query finds is removed, then all other blocks stay, and
the query finds nothing more that could be removed.
-/
theorem indicesOf_remove {q : Query} (h : q.IsValid) (s : Sheet) (indices : List Nat) :
    ∃ found, s.indicesOf q = .ok found ∧
      (s.remove indices).indicesOf q =
        .ok ((found.filter (· ∉ indices)).map (shifted indices)) ∧
      s.removalCount found = found.length ∧
      (s.remove found).indicesOf q = .ok [] ∧
      (s.remove found).remove [] = s.remove found ∧
      (s.remove found).blocks = s.blocks.filter fun b => !b.ruleset?.any q.selects := by
  have hcheck := Query.check_eq_ok_iff.2 h
  refine ⟨s.positions q, indicesOf_of_check hcheck, ?_, removalCount_positions s q, ?_,
    remove_nil _, blocks_remove_positions s q⟩
  . rw [indicesOf_of_check hcheck, positions_remove]
  . rw [indicesOf_of_check hcheck, positions_remove]
    simp

theorem indicesOf_remove_className :
    (Query.className ['x']).IsValid ∧
      (ofText "/**/.x{}p{}ul>.x{}".toList).indicesOf (.className ['x']) = .ok [1, 3] ∧
      ((ofText "/**/.x{}p{}ul>.x{}".toList).remove [2, 7, 0]).indicesOf (.className ['x']) =
        .ok [0, 1] := by
  have hvalid : (Query.className ['x']).IsValid := Query.check_eq_ok_iff.1 rfl
  have hfound : (ofText "/**/.x{}p{}ul>.x{}".toList).indicesOf (.className ['x']) =
      .ok [1, 3] := by
    decide
  rcases indicesOf_remove hvalid (ofText "/**/.x{}p{}ul>.x{}".toList) [2, 7, 0] with
    ⟨found, hindices, hremoved, -⟩
  rw [hfound] at hindices
  cases hindices
  exact ⟨hvalid, hfound, hremoved⟩

end Sheet
end Stylesheet
