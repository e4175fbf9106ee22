import Stylesheet.Text.Blank

/-!
This module contains the text that style sheets are read from and written to, together with the
ways of cutting it that more than one reader needs.
-/

namespace Stylesheet

/--
A text is the list of its code points.
-/
abbrev Text := List Char

namespace Text

def trimStart (t : Text) : Text :=
  t.dropWhile isBlank

def trimEnd (t : Text) : Text :=
  (t.reverse.dropWhile isBlank).reverse

/--
A text without the blanks at either end.
-/
def trim (t : Text) : Text :=
  trimEnd (trimStart t)

def blank (t : Text) : Bool :=
  t.all isBlank

@[simp]
theorem trim_nil : trim [] = [] := rfl

theorem trimStart_eq_nil {t : Text} : trimStart t = [] ↔ blank t := by
  induction t with
  | nil => simp [trimStart, blank]
  | cons c t ih =>
    simp only [trimStart, blank] at ih
    by_cases h : isBlank c <;> simp [trimStart, blank, h, ih]

theorem trimEnd_eq_nil {t : Text} : trimEnd t = [] ↔ blank t := by
  rw [trimEnd, List.reverse_eq_nil_iff]
  apply (trimStart_eq_nil (t := t.reverse)).trans
  simp [blank]

/--
The text before the first `sep`, and the text after it if `sep` occurs.
-/
def cut (sep : Char) : Text → Text × Option Text
  | [] => ([], none)
  | c :: t =>
    if c = sep then
      ([], some t)
    else
      let (before, after?) := cut sep t
      (c :: before, after?)

theorem not_mem_cut_fst (sep : Char) (t : Text) : sep ∉ (cut sep t).1 := by
  induction t with
  | nil => simp [cut]
  | cons c t ih =>
    by_cases h : c = sep
    . simp [cut, h]
    . simpa [cut, h, ih] using fun h' => h h'.symm

@[simp]
theorem cut_append_cons {sep : Char} {before after : Text} (h : sep ∉ before) :
    cut sep (before ++ sep :: after) = (before, some after) := by
  induction before with
  | nil => simp [cut]
  | cons c before ih =>
    simp only [List.mem_cons, not_or] at h
    simp [cut, Ne.symm h.1, ih h.2]

theorem cut_of_not_mem {sep : Char} {t : Text} (h : sep ∉ t) : cut sep t = (t, none) := by
  induction t with
  | nil => rfl
  | cons c t ih =>
    simp only [List.mem_cons, not_or] at h
    simp [cut, Ne.symm h.1, ih h.2]

theorem eq_of_cut_eq_some {sep : Char} {t before after : Text}
    (h : cut sep t = (before, some after)) : t = before ++ sep :: after := by
  induction t generalizing before with
  | nil => simp [cut] at h
  | cons c t ih =>
    unfold cut at h
    split at h
    . simp_all
    . simp only [Prod.mk.injEq] at h
      rw [ih (Prod.ext rfl h.2), ← h.1, List.cons_append]

theorem eq_of_cut_eq_none {sep : Char} {t before : Text} (h : cut sep t = (before, none)) :
    t = before := by
  induction t generalizing before with
  | nil => simpa [cut] using h
  | cons c t ih =>
    unfold cut at h
    split at h
    . simp at h
    . simp only [Prod.mk.injEq] at h
      exact h.1 ▸ congrArg (c :: ·) (ih (Prod.ext rfl h.2))

/--
The rest of a text that starts with `word`, which is given in lower case; the text may write it
in upper or lower case.
-/
def afterWord? : (word t : Text) → Option Text
  | [], t => some t
  | _ :: _, [] => none
  | w :: word, c :: t => if c.toLower = w then afterWord? word t else none

/--
The items of a comma separated list, without the blanks around them and without empty ones.
-/
def commaList (t : Text) : List Text :=
  ((t.splitOn ',').map trim).filter (· ≠ [])

def ofCommaList (items : List Text) : Text :=
  [',', ' '].intercalate items

theorem ne_nil_of_mem_commaList {t item : Text} (h : item ∈ commaList t) : item ≠ [] := by
  simpa using (List.mem_filter.1 h).2

end Text

end Stylesheet
