import Stylesheet.Proofs.Text.Trim
import Stylesheet.Selector.Spacing

/-!
This module contains the laws of tidying: which blanks are left where two texts meet.
-/

namespace Stylesheet
namespace Selector

theorem isBlank_eq_false_of_isTight {c : Char} (h : isTight c) : isBlank c = false := by
  simp only [isTight, Bool.or_eq_true, beq_iff_eq] at h
  rcases h with ((((((rfl | rfl) | rfl) | rfl) | rfl) | rfl) | rfl) | rfl
  all_goals rfl

theorem startsTight_cons (c : Char) (t : Text) :
    startsTight (c :: t) = (isTight c || (c == '~' || c == '|') && t.head? == some '=') := by
  unfold startsTight
  split
  . simp_all
  . simp_all
  . simp_all
  . next htilde hbar _ heq =>
    rcases List.cons.inj heq with ⟨rfl, rfl⟩
    cases t with
    | nil => simp
    | cons d t => by_cases hd : d = '=' <;> simp_all

theorem startsTight_append {t u : Text} (ht : t ≠ []) (hu : u.head? ≠ some '=') :
    startsTight (t ++ u) = startsTight t := by
  cases t with
  | nil => contradiction
  | cons c t =>
    rw [List.cons_append, startsTight_cons, startsTight_cons]
    cases t with
    | nil => simp [hu]
    | cons d t => rfl

theorem startsTight_trimStart_append {t u : Text} (ht : Text.blank t = false)
    (hu : u.head? ≠ some '=') :
    startsTight (Text.trimStart (t ++ u)) = startsTight (Text.trimStart t) := by
  rw [Text.trimStart_append, ht]
  apply startsTight_append _ hu
  rw [ne_eq, Text.trimStart_eq_nil, ht]
  simp

theorem tidyAfter_blank_append {w : Text} (hw : Text.blank w) (tight : Bool) (t : Text) :
    tidyAfter tight (w ++ t) =
      if tight || startsTight (Text.trimStart t) then
        tidyAfter tight t
      else
        w ++ tidyAfter tight t := by
  induction w with
  | nil => simp
  | cons c w ih =>
    simp only [Text.blank_cons, Bool.and_eq_true] at hw
    rw [List.cons_append, tidyAfter, Text.trimStart_blank_append hw.2, ih hw.2]
    simp only [hw.1, ↓reduceIte]
    split <;> rfl

@[simp]
theorem tidy_blank_append {w : Text} (hw : Text.blank w) (t : Text) : tidy (w ++ t) = tidy t := by
  simp [tidy, tidyAfter_blank_append hw]

theorem mem_of_mem_tidyAfter {tight : Bool} {t : Text} {c : Char} (h : c ∈ tidyAfter tight t) :
    c ∈ t := by
  induction t generalizing tight with
  | nil => exact h
  | cons d t ih =>
    rw [tidyAfter] at h
    split at h
    . split at h
      . exact List.mem_cons_of_mem d (ih h)
      . rcases List.mem_cons.1 h with rfl | h
        . exact List.mem_cons_self
        . exact List.mem_cons_of_mem d (ih h)
    . rcases List.mem_cons.1 h with rfl | h
      . exact List.mem_cons_self
      . exact List.mem_cons_of_mem d (ih h)

theorem tidyAfter_of_blank {w : Text} (hw : Text.blank w) (tight : Bool) :
    tidyAfter tight w = [] := by
  have := tidyAfter_blank_append hw tight []
  simpa [Text.trimStart, startsTight, tidyAfter] using this

theorem tidyAfter_append_blank {w : Text} (hw : Text.blank w) (tight : Bool) (t : Text) :
    tidyAfter tight (t ++ w) = tidyAfter tight t := by
  induction t generalizing tight with
  | nil => exact tidyAfter_of_blank hw tight
  | cons c t ih =>
    have htight : startsTight (Text.trimStart (t ++ w)) = startsTight (Text.trimStart t) := by
      cases ht : Text.blank t with
      | true =>
        have htw : Text.blank (t ++ w) := by
          simp [ht, hw]
        rw [Text.trimStart_eq_nil.2 ht, Text.trimStart_eq_nil.2 htw]
      | false =>
        apply startsTight_trimStart_append ht
        cases w with
        | nil => simp
        | cons d w =>
          intro h
          simp only [List.head?_cons, Option.some.injEq] at h
          subst h
          simp [isBlank] at hw
    rw [List.cons_append, tidyAfter, tidyAfter, htight, ih, ih]

@[simp]
theorem tidy_append_blank {w : Text} (hw : Text.blank w) (t : Text) : tidy (t ++ w) = tidy t :=
  tidyAfter_append_blank hw true t

theorem tidy_trim (t : Text) : tidy (Text.trim t) = tidy t := by
  rcases Text.exists_trimStart t with ⟨v, hv, ht⟩
  rcases Text.exists_trimEnd (Text.trimStart t) with ⟨w, hw, htrim⟩
  have hstart := tidy_blank_append hv (Text.trimStart t)
  have hend := tidy_append_blank hw (Text.trimEnd (Text.trimStart t))
  rw [← ht] at hstart
  rw [← htrim] at hend
  rw [hstart, hend]
  rfl

theorem tidyAfter_append_tight {d : Char} (hd : isTight d) (hne : d ≠ '=') (tight : Bool)
    (t u : Text) : tidyAfter tight (t ++ d :: u) = tidyAfter tight t ++ d :: tidyAfter true u := by
  induction t generalizing tight with
  | nil => simp [tidyAfter, isBlank_eq_false_of_isTight hd, hd]
  | cons c t ih =>
    have htight : startsTight (Text.trimStart (t ++ d :: u)) = startsTight (Text.trimStart t) := by
      cases ht : Text.blank t with
      | true =>
        rw [Text.trimStart_blank_append ht, Text.trimStart_eq_nil.2 ht, Text.trimStart_eq_self]
        . rw [startsTight_cons, hd]
          rfl
        . simp [isBlank_eq_false_of_isTight hd]
      | false => exact startsTight_trimStart_append ht (by simp [hne])
    rw [List.cons_append, tidyAfter, tidyAfter, htight, ih, ih]
    split
    . split <;> rfl
    . rfl

theorem tidyAfter_append {t u : Text} {c : Char} (ht : t.getLast? = some c)
    (hc : isBlank c = false) (hu : u.head? ≠ some '=') (tight : Bool) :
    tidyAfter tight (t ++ u) = tidyAfter tight t ++ tidyAfter (isTight c) u := by
  induction t generalizing tight with
  | nil => simp at ht
  | cons d t ih =>
    by_cases hne : t = []
    . subst hne
      have hd : d = c := by
        simpa using ht
      subst hd
      simp [tidyAfter, hc]
    . have hlast : t.getLast? = some c := by
        rwa [List.getLast?_cons_of_ne_nil hne] at ht
      have hblank : Text.blank t = false := by
        rw [Bool.eq_false_iff]
        intro h
        have := Text.isBlank_of_mem h (List.mem_of_getLast? hlast)
        simp [hc] at this
      rw [List.cons_append, tidyAfter, tidyAfter, startsTight_trimStart_append hblank hu,
        ih hlast, ih hlast]
      split
      . split <;> rfl
      . rfl

theorem tidyAfter_eq_self {t : Text} (h : ∀ c ∈ t, isBlank c = false) (tight : Bool) :
    tidyAfter tight t = t := by
  induction t generalizing tight with
  | nil => rfl
  | cons c t ih =>
    simp only [List.mem_cons, forall_eq_or_imp] at h
    simp [tidyAfter, h.1, ih h.2]

theorem getLast?_tidyAfter_concat {c : Char} (hc : isBlank c = false) (tight : Bool) (t : Text) :
    (tidyAfter tight (t ++ [c])).getLast? = some c := by
  induction t generalizing tight with
  | nil => simp [tidyAfter, hc]
  | cons d t ih =>
    rw [List.cons_append, tidyAfter]
    split
    . split
      . apply ih
      . simp [List.getLast?_cons, ih]
    . simp [List.getLast?_cons, ih]

theorem getLast?_tidyAfter {t : Text} {c : Char} (ht : t.getLast? = some c)
    (hc : isBlank c = false) (tight : Bool) : (tidyAfter tight t).getLast? = some c := by
  rcases List.getLast?_eq_some_iff.1 ht with ⟨t', rfl⟩
  exact getLast?_tidyAfter_concat hc tight t'

end Selector
end Stylesheet
