import Mathlib.Data.List.Induction
import Stylesheet.Declarations.Basic

/-!
This module contains the laws of declaring names one after the other. A name stays where it was
declared first and has the value that it was given last.
-/

namespace Stylesheet
namespace Declarations

section Entries

variable {name other : Text} {value value' : Text} {entries : List (Text × Text)}

theorem insertEntry_insertEntry :
    insertEntry name value (insertEntry name value' entries) = insertEntry name value entries := by
  induction entries with
  | nil => simp [insertEntry]
  | cons entry entries ih =>
    by_cases h : entry.1 = name
    . simp [insertEntry, h]
    . simp [insertEntry, h, ih]

theorem insertEntry_comm (hne : other ≠ name) (h : name ∈ entries.map Prod.fst) :
    insertEntry other value' (insertEntry name value entries) =
      insertEntry name value (insertEntry other value' entries) := by
  induction entries with
  | nil => cases h
  | cons entry entries ih =>
    by_cases hname : entry.1 = name
    . simp [insertEntry, hname, hne.symm]
    . rw [List.map_cons, List.mem_cons] at h
      have hrest := ih (h.resolve_left fun heq => hname heq.symm)
      by_cases hother : entry.1 = other
      . simp [insertEntry, hother, hne]
      . simp [insertEntry, hname, hother, hrest]

end Entries

theorem names_insert (d : Declarations) (name value : Text) :
    (d.insert name value).names = if name ∈ d.names then d.names else d.names ++ [name] := by
  apply map_fst_insertEntry

theorem mem_names_insert {d : Declarations} {name : Text} (h : name ∈ d.names)
    (other value : Text) : name ∈ (d.insert other value).names := by
  rw [names_insert]
  split
  . assumption
  . simp [h]

theorem insert_insert (d : Declarations) (name value value' : Text) :
    (d.insert name value').insert name value = d.insert name value := by
  apply Declarations.ext
  apply insertEntry_insertEntry

theorem insert_comm {d : Declarations} {name other : Text} (hne : other ≠ name)
    (h : name ∈ d.names) (value value' : Text) :
    (d.insert name value).insert other value' = (d.insert other value').insert name value := by
  apply Declarations.ext
  apply insertEntry_comm hne h

theorem insertAll_insert {d : Declarations} {name : Text} (h : name ∈ d.names) (value : Text)
    {pairs : List (Text × Text)} (hpairs : name ∉ pairs.map Prod.fst) :
    (d.insert name value).insertAll pairs = (d.insertAll pairs).insert name value := by
  induction pairs generalizing d with
  | nil => rfl
  | cons pair pairs ih =>
    rw [List.map_cons, List.mem_cons, not_or] at hpairs
    have hrest := ih (mem_names_insert h pair.1 pair.2) hpairs.2
    rw [← insert_comm (Ne.symm hpairs.1) h] at hrest
    exact hrest

/--
A declaration that comes late changes what was collected before it just as it changes a collection
that this is added to.
-/
theorem insertAll_insertEntry (d : Declarations) (name value : Text) {pairs : List (Text × Text)}
    (h : (pairs.map Prod.fst).Nodup) :
    d.insertAll (insertEntry name value pairs) = (d.insertAll pairs).insert name value := by
  induction pairs generalizing d with
  | nil => rfl
  | cons pair pairs ih =>
    rw [List.map_cons, List.nodup_cons] at h
    rw [insertEntry]
    split
    . next heq =>
      subst heq
      have hmem : pair.1 ∈ (d.insert pair.1 pair.2).names := by
        rw [names_insert]
        split
        . assumption
        . simp
      have hlate := insertAll_insert hmem value h.1
      rw [insert_insert] at hlate
      exact hlate
    . exact ih (d.insert pair.1 pair.2) h.2

theorem ofList_concat (pairs : List (Text × Text)) (pair : Text × Text) :
    ofList (pairs ++ [pair]) = (ofList pairs).insert pair.1 pair.2 := by
  apply insertAll_append

theorem insertAll_entries_ofList (d : Declarations) (pairs : List (Text × Text)) :
    d.insertAll (ofList pairs).entries = d.insertAll pairs := by
  induction pairs using List.reverseRecOn with
  | nil => rfl
  | append_singleton pairs pair ih =>
    have hlate := insertAll_insertEntry d pair.1 pair.2 (ofList pairs).nodup_names
    rw [ih] at hlate
    rw [ofList_concat, insertAll_append]
    exact hlate

theorem names_ofList (pairs : List (Text × Text)) :
    (ofList pairs).names = (pairs.map Prod.fst).eraseDups := by
  induction pairs using List.reverseRecOn with
  | nil => rfl
  | append_singleton pairs pair ih =>
    have hmem : pair.1 ∈ (ofList pairs).names ↔ pair.1 ∈ pairs.map Prod.fst := by
      rw [ih, List.mem_eraseDups]
    rw [ofList_concat, names_insert, List.map_append, List.eraseDups_append, ← ih,
      List.map_singleton, List.cons_removeAll]
    by_cases h : pair.1 ∈ pairs.map Prod.fst
    . rw [if_pos (hmem.2 h), if_neg (by simpa using h)]
      simp [List.removeAll]
    . rw [if_neg (mt hmem.1 h), if_pos (by simpa using h)]
      simp [List.removeAll, List.eraseDups_cons]

theorem get?_ofList (pairs : List (Text × Text)) (name : Text) :
    (ofList pairs).get? name = pairs.reverse.lookup name := by
  induction pairs using List.reverseRecOn with
  | nil => rfl
  | append_singleton pairs pair ih =>
    rw [ofList_concat, get?_insert, List.reverse_concat, ih, List.lookup_cons]
    by_cases h : name = pair.1
    . simp [h]
    . simp [h, beq_false_of_ne h]

end Declarations
end Stylesheet
