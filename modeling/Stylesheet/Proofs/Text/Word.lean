import Stylesheet.Proofs.Text.Trim

/-!
This module contains the laws of words at the start of a text, which may be written in upper or
lower case.
-/

namespace Stylesheet
namespace Text

theorem toLower_of_isBlank {c : Char} (h : isBlank c) : c.toLower = c := by
  have hcase : ¬(c.toNat ≥ 65 ∧ c.toNat ≤ 90) := by
    rintro ⟨hlow, hhigh⟩
    unfold isBlank at h
    dsimp only at h
    split at h <;> simp at h <;> omega
  unfold Char.toLower
  split
  . next h => exact absurd h hcase
  . rfl

/--
A text starts with a word if as many of its characters, in lower case, are the word.
-/
theorem afterWord?_eq (word t : Text) :
    afterWord? word t =
      if (t.take word.length).map Char.toLower = word then
        some (t.drop word.length)
      else
        none := by
  induction word generalizing t with
  | nil => simp [afterWord?]
  | cons w word ih =>
    cases t with
    | nil => simp [afterWord?]
    | cons c t =>
      rw [afterWord?, ih]
      by_cases hc : c.toLower = w <;> simp [hc]

theorem map_toLower_of_afterWord? {word t : Text} (h : afterWord? word t = some []) :
    t.map Char.toLower = word := by
  rw [afterWord?_eq] at h
  split at h
  . next hword =>
    have hlength : t.length ≤ word.length := by
      simpa using h
    rwa [List.take_of_length_le hlength] at hword
  . cases h

/--
A word is missing from the start of a text if the text in lower case does not start with it.
-/
theorem afterWord?_eq_none_iff {word t : Text} :
    afterWord? word t = none ↔ ¬word <+: t.map Char.toLower := by
  rw [afterWord?_eq, List.prefix_iff_eq_take, ← List.map_take, eq_comm (a := word)]
  split <;> simp_all

theorem afterWord?_append {word t rest : Text} (h : afterWord? word t = some rest) (u : Text) :
    afterWord? word (t ++ u) = some (rest ++ u) := by
  induction word generalizing t with
  | nil =>
    cases h
    rfl
  | cons w word ih =>
    cases t with
    | nil => cases h
    | cons c t =>
      rw [afterWord?] at h
      rw [List.cons_append, afterWord?]
      split at h
      . next hc => rw [if_pos hc, ih h]
      . cases h

theorem afterWord?_trimEnd_eq_none {word t : Text} (h : afterWord? word t = none) :
    afterWord? word (trimEnd t) = none := by
  rcases exists_trimEnd t with ⟨w, -, ht⟩
  cases hword : afterWord? word (trimEnd t) with
  | none => rfl
  | some rest =>
    have := afterWord?_append hword w
    rw [← ht, h] at this
    cases this

end Text
end Stylesheet
