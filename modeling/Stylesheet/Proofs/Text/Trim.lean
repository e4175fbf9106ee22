import Stylesheet.Text.Basic

/-!
This module contains the laws of blanks at the ends of a text: which ones trimming takes away, and
when there are none.
-/

namespace Stylesheet
namespace Text

@[simp]
theorem blank_nil : blank [] = true := rfl

@[simp]
theorem blank_cons (c : Char) (t : Text) : blank (c :: t) = (isBlank c && blank t) := rfl

@[simp]
theorem blank_append (a b : Text) : blank (a ++ b) = (blank a && blank b) := by
  simp [blank, List.all_append]

theorem isBlank_of_mem {t : Text} (h : blank t) {c : Char} (hc : c ∈ t) : isBlank c := by
  simp only [blank, List.all_eq_true] at h
  exact h c hc

theorem trimStart_blank_append {w : Text} (h : blank w) (t : Text) :
    trimStart (w ++ t) = trimStart t := by
  unfold trimStart
  apply List.dropWhile_append_of_pos
  intro c hc
  exact isBlank_of_mem h hc

theorem exists_trimStart (t : Text) : ∃ w, blank w ∧ t = w ++ trimStart t :=
  ⟨t.takeWhile isBlank, List.all_takeWhile, List.takeWhile_append_dropWhile.symm⟩

theorem exists_trimEnd (t : Text) : ∃ w, blank w ∧ t = trimEnd t ++ w := by
  rcases exists_trimStart t.reverse with ⟨w, hw, ht⟩
  refine ⟨w.reverse, by simpa [blank] using hw, ?_⟩
  have := congrArg List.reverse ht
  rwa [List.reverse_reverse, List.reverse_append] at this

theorem trimStart_eq_self {t : Text} (h : ∀ c ∈ t.head?, isBlank c = false) : trimStart t = t := by
  cases t with
  | nil => rfl
  | cons c t =>
    have hc := h c rfl
    simp [trimStart, hc]

theorem trimStart_append (t u : Text) :
    trimStart (t ++ u) = if blank t then trimStart u else trimStart t ++ u := by
  split
  . next h => exact trimStart_blank_append h u
  . next h =>
    unfold trimStart
    rw [List.dropWhile_append]
    have : t.dropWhile isBlank ≠ [] := fun h' => h (trimStart_eq_nil.1 h')
    simp [this]

theorem trimEnd_append_blank {w : Text} (h : blank w) (t : Text) :
    trimEnd (t ++ w) = trimEnd t := by
  have hw : blank w.reverse := by simpa [blank] using h
  unfold trimEnd
  rw [List.reverse_append]
  have := trimStart_blank_append hw t.reverse
  unfold trimStart at this
  rw [this]

theorem trimEnd_eq_self {t : Text} (h : ∀ c ∈ t.getLast?, isBlank c = false) : trimEnd t = t := by
  unfold trimEnd
  have : t.reverse.dropWhile isBlank = t.reverse := by
    apply trimStart_eq_self
    intro c hc
    apply h
    simpa using hc
  rw [this, List.reverse_reverse]

theorem trim_blank_append {w : Text} (h : blank w) (t : Text) : trim (w ++ t) = trim t := by
  unfold trim
  rw [trimStart_blank_append h]

theorem trim_append_blank {w : Text} (h : blank w) (t : Text) : trim (t ++ w) = trim t := by
  unfold trim
  rw [trimStart_append]
  split
  . next ht =>
    have hw' : trimStart w = [] := trimStart_eq_nil.2 h
    have ht' : trimStart t = [] := trimStart_eq_nil.2 ht
    rw [hw', ht']
  . rw [trimEnd_append_blank h]

theorem trim_eq_self {t : Text} (hhead : ∀ c ∈ t.head?, isBlank c = false)
    (hlast : ∀ c ∈ t.getLast?, isBlank c = false) : trim t = t := by
  unfold trim
  rw [trimStart_eq_self hhead, trimEnd_eq_self hlast]

theorem getLast?_trimEnd (t : Text) : ∀ c ∈ (trimEnd t).getLast?, isBlank c = false := by
  intro c hc
  rw [trimEnd, List.getLast?_reverse] at hc
  have := List.head?_dropWhile_not isBlank t.reverse
  rw [Option.mem_def.1 hc] at this
  exact this

theorem trimEnd_cons (c : Char) (t : Text) :
    trimEnd (c :: t) = if blank (c :: t) then [] else c :: trimEnd t := by
  split
  . next h => exact trimEnd_eq_nil.2 h
  . next h =>
    rcases exists_trimEnd t with ⟨w, hw, ht⟩
    have hlast : ∀ d ∈ (c :: trimEnd t).getLast?, isBlank d = false := by
      cases hnil : trimEnd t with
      | nil =>
        have hblank : blank t := trimEnd_eq_nil.1 hnil
        simpa [hblank] using h
      | cons d u =>
        rw [← hnil, List.getLast?_cons_of_ne_nil (by simp [hnil])]
        exact getLast?_trimEnd t
    have hsplit : c :: t = (c :: trimEnd t) ++ w := by
      rw [List.cons_append, ← ht]
    rw [hsplit, trimEnd_append_blank hw, trimEnd_eq_self hlast]

theorem trimEnd_append_cons {c : Char} (hc : isBlank c = false) (t u : Text) :
    trimEnd (t ++ c :: u) = t ++ c :: trimEnd u := by
  induction t with
  | nil => simp [trimEnd_cons, hc]
  | cons d t ih => simp [trimEnd_cons, hc, ih]

theorem head?_trimStart (t : Text) : ∀ c ∈ (trimStart t).head?, isBlank c = false := by
  intro c hc
  have := List.head?_dropWhile_not isBlank t
  rw [← trimStart, Option.mem_def.1 hc] at this
  exact this

/--
The first character of a text is kept unless it is blank.
-/
theorem head?_trimEnd {t : Text} {c : Char} (h : t.head? = some c) (hc : isBlank c = false) :
    (trimEnd t).head? = some c := by
  rcases exists_trimEnd t with ⟨w, hw, ht⟩
  cases he : trimEnd t with
  | nil =>
    rw [he, List.nil_append] at ht
    rw [ht] at h
    rw [isBlank_of_mem hw (List.mem_of_head? h)] at hc
    cases hc
  | cons d u =>
    rw [ht, he, List.cons_append, List.head?_cons] at h
    rw [List.head?_cons, h]

theorem head?_trim {t : Text} {c : Char} (h : t.head? = some c) (hc : isBlank c = false) :
    (trim t).head? = some c := by
  have hstart : trimStart t = t := by
    apply trimStart_eq_self
    intro d hd
    rw [h] at hd
    cases hd
    exact hc
  rw [trim, hstart]
  exact head?_trimEnd h hc

theorem trim_trim (t : Text) : trim (trim t) = trim t := by
  apply trim_eq_self
  . intro c hc
    rcases exists_trimEnd (trimStart t) with ⟨w, -, ht⟩
    apply head?_trimStart t
    rw [ht, List.head?_append, ← trim, Option.mem_def.1 hc]
    rfl
  . exact getLast?_trimEnd (trimStart t)

theorem getLast?_of_trim_eq_self {t : Text} (h : trim t = t) :
    ∀ c ∈ t.getLast?, isBlank c = false := by
  rw [← h]
  exact getLast?_trimEnd (trimStart t)

theorem trim_of_blank {t : Text} (h : blank t) : trim t = [] := by
  unfold trim
  rw [trimStart_eq_nil.2 h]
  rfl

theorem mem_of_mem_trim {t : Text} {c : Char} (h : c ∈ trim t) : c ∈ t := by
  rcases exists_trimStart t with ⟨v, -, ht⟩
  rcases exists_trimEnd (trimStart t) with ⟨w, -, hstart⟩
  rw [ht, hstart, List.mem_append, List.mem_append]
  exact .inr (.inl h)

theorem trimStart_append_congr {t u : Text} (h : trimStart t = trimStart u) (v : Text) :
    trimStart (t ++ v) = trimStart (u ++ v) := by
  have hblank : blank t = blank u := by
    rw [Bool.eq_iff_iff, ← trimStart_eq_nil, ← trimStart_eq_nil, h]
  rw [trimStart_append, trimStart_append, h, hblank]

end Text
end Stylesheet
