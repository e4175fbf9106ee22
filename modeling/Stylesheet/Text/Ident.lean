import Stylesheet.Text.Basic

/-!
This module contains the identifiers of selectors and declarations. They are ASCII throughout: a
letter, `_` or `-`, followed by any number of letters, digits, `_` and `-`.
-/

namespace Stylesheet

def isIdentStart (c : Char) : Bool :=
  c.isAlpha || c == '_' || c == '-'

def isIdentChar (c : Char) : Bool :=
  isIdentStart c || c.isDigit

def isIdent : Text → Bool
  | [] => false
  | c :: t => isIdentStart c && t.all isIdentChar

/--
The longest identifier at the start of a text, and the text after it.
-/
def takeIdent? : Text → Option (Text × Text)
  | [] => none
  | c :: t =>
    if isIdentStart c then
      some (c :: t.takeWhile isIdentChar, t.dropWhile isIdentChar)
    else
      none

theorem isIdentChar_of_isIdentStart {c : Char} (h : isIdentStart c) : isIdentChar c := by
  simp [isIdentChar, h]

theorem isIdentChar_of_mem {t : Text} (h : isIdent t) {c : Char} (hc : c ∈ t) :
    isIdentChar c := by
  cases t with
  | nil => simp at hc
  | cons d t =>
    simp only [isIdent, Bool.and_eq_true, List.all_eq_true] at h
    rcases List.mem_cons.1 hc with rfl | hc
    . exact isIdentChar_of_isIdentStart h.1
    . exact h.2 c hc

theorem isIdent_of_takeIdent? {t name rest : Text} (h : takeIdent? t = some (name, rest)) :
    isIdent name ∧ t = name ++ rest := by
  cases t with
  | nil => simp [takeIdent?] at h
  | cons c t =>
    by_cases hc : isIdentStart c
    . simp only [takeIdent?, hc, ↓reduceIte, Option.some.injEq, Prod.mk.injEq] at h
      obtain ⟨rfl, rfl⟩ := h
      simp [isIdent, hc, List.all_takeWhile]
    . simp [takeIdent?, hc] at h

theorem takeIdent?_append {name : Text} (h : isIdent name) {c : Char} (hc : isIdentChar c = false)
    (t : Text) : takeIdent? (name ++ c :: t) = some (name, c :: t) := by
  cases name with
  | nil => simp [isIdent] at h
  | cons d name =>
    simp only [isIdent, Bool.and_eq_true, List.all_eq_true] at h
    simp only [List.cons_append, takeIdent?, h.1, ↓reduceIte]
    rw [List.takeWhile_append_of_pos h.2, List.dropWhile_append_of_pos h.2]
    simp [hc]

theorem isDigit_eq_false_of_isIdentStart {c : Char} (h : isIdentStart c) : c.isDigit = false := by
  delta isIdentStart Char.isAlpha Char.isUpper Char.isLower at h
  delta Char.isDigit
  simp only [Bool.or_eq_true, Bool.and_eq_true, decide_eq_true_eq, beq_iff_eq, ge_iff_le,
    UInt32.le_iff_toNat_le] at h
  rcases h with (h | rfl) | rfl
  . simp only [ge_iff_le, UInt32.le_iff_toNat_le, Bool.and_eq_false_iff, decide_eq_false_iff_not]
    change (65 ≤ c.toNat ∧ c.toNat ≤ 90) ∨ (97 ≤ c.toNat ∧ c.toNat ≤ 122) at h
    change ¬48 ≤ c.toNat ∨ ¬c.toNat ≤ 57
    omega
  . rfl
  . rfl

theorem isBlank_eq_false_of_isIdentChar {c : Char} (h : isIdentChar c) : isBlank c = false := by
  delta isIdentChar isIdentStart Char.isAlpha Char.isUpper Char.isLower Char.isDigit at h
  simp only [Bool.or_eq_true, Bool.and_eq_true, decide_eq_true_eq, beq_iff_eq, ge_iff_le,
    UInt32.le_iff_toNat_le] at h
  change ((((65 ≤ c.toNat ∧ c.toNat ≤ 90) ∨ (97 ≤ c.toNat ∧ c.toNat ≤ 122)) ∨ c = '_') ∨ c = '-')
    ∨ (48 ≤ c.toNat ∧ c.toNat ≤ 57) at h
  have hb (h : 32 < c.toNat ∧ c.toNat < 128) : isBlank c = false := by
    simp only [isBlank, h.2, ↓reduceIte, Bool.or_eq_false_iff, beq_eq_false_iff_ne,
      Bool.and_eq_false_iff, decide_eq_false_iff_not]
    omega
  rcases h with (((h | h) | rfl) | rfl) | h
  . exact hb (by omega)
  . exact hb (by omega)
  . rfl
  . rfl
  . exact hb (by omega)

end Stylesheet
