import Stylesheet.Proofs.Selector.Image

/-!
This module contains the independence of the groups of a selector list. Each of them is read as if
it stood alone; a group that is empty or cannot be read leaves no trace in what is read of the
others.
-/

namespace Stylesheet
namespace Selector

theorem ofGroup?_nil : ofGroup? [] = none := rfl

theorem filterMap_splitOn_cons (t : Text) :
    ((',' :: t).splitOn ',').filterMap ofGroup? = (t.splitOn ',').filterMap ofGroup? := by
  have hsplit := List.splitOn_append_cons_self (a := ',') [] t
  rw [List.nil_append, List.splitOn_nil, List.singleton_append] at hsplit
  rw [hsplit]
  apply List.filterMap_cons_none
  apply ofGroup?_nil

theorem filterMap_splitOn_concat (t : Text) :
    ((t ++ [',']).splitOn ',').filterMap ofGroup? = (t.splitOn ',').filterMap ofGroup? := by
  rw [List.splitOn_append_cons_self, List.splitOn_nil, List.filterMap_append,
    List.filterMap_cons_none ofGroup?_nil]
  simp

/--
Commas that are tolerated at the ends would make empty groups there, which are not read anyway.
-/
theorem filterMap_groups (t : Text) :
    (groups t).filterMap ofGroup? = (t.splitOn ',').filterMap ofGroup? := by
  have htail (u : Text) :
      ((if u.head? = some ',' then u.tail else u).splitOn ',').filterMap ofGroup? =
        (u.splitOn ',').filterMap ofGroup? := by
    split
    . next hhead =>
      rcases List.head?_eq_some_iff.1 hhead with ⟨v, rfl⟩
      rw [filterMap_splitOn_cons, List.tail_cons]
    . rfl
  have hinit (u : Text) :
      ((if u.getLast? = some ',' then u.dropLast else u).splitOn ',').filterMap ofGroup? =
        (u.splitOn ',').filterMap ofGroup? := by
    split
    . next hlast =>
      rcases List.getLast?_eq_some_iff.1 hlast with ⟨v, rfl⟩
      rw [filterMap_splitOn_concat, List.dropLast_concat]
    . rfl
  have hempty (u : Text) :
      (if u = [] then [] else u.splitOn ',').filterMap ofGroup? =
        (u.splitOn ',').filterMap ofGroup? := by
    split
    . next hnil =>
      rw [hnil, List.splitOn_nil, List.filterMap_cons_none ofGroup?_nil]
    . rfl
  unfold groups
  dsimp only
  rw [hempty, hinit, htail]

theorem ofText_eq_filterMap (t : Text) :
    ofText t = (t.splitOn ',').filterMap fun g => ofGroup? (tidy g) := by
  rw [ofText, filterMap_groups, splitOn_tidy, List.filterMap_map]
  rfl

theorem ofText_of_comma_not_mem {g : Text} (h : ',' ∉ g) :
    ofText g = (ofGroup? (tidy g)).toList := by
  rw [ofText_eq_filterMap, List.splitOn_eq_singleton h]
  cases hread : ofGroup? (tidy g) <;> simp [hread]

/--
What is read of two lists with a comma between them is what is read of each, in order. So a list is
read group by group, and of each group one selector or none.
-/
theorem ofText_append_comma (t u : Text) :
    ofText (t ++ ',' :: u) = ofText t ++ ofText u ∧
      ofText t = (t.splitOn ',').flatMap ofText ∧
      ∀ g ∈ t.splitOn ',', ofText g = (ofGroup? (tidy g)).toList := by
  have hgroup : ∀ g ∈ t.splitOn ',', ofText g = (ofGroup? (tidy g)).toList := by
    intro g hg
    apply ofText_of_comma_not_mem
    exact Text.not_mem_of_mem_splitOn hg
  refine ⟨?_, ?_, hgroup⟩
  . simp only [ofText_eq_filterMap]
    rw [List.splitOn_append_cons_self, List.filterMap_append]
  . rw [ofText_eq_filterMap, List.filterMap_eq_flatMap_toList]
    exact (List.flatMap_congr hgroup).symm

end Selector
end Stylesheet
