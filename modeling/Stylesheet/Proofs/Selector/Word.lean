import Stylesheet.Proofs.Selector.Chain
import Stylesheet.Proofs.Selector.Form
import Stylesheet.Proofs.Selector.Spacing

/-!
This module contains what becomes of the text of a selector without combinators when it is written
after other text: after blanks, which may be taken for blanks that mean nothing, and after the sign
of a combinator.
-/

namespace Stylesheet
namespace Selector

def startsLossy (t : Text) : Bool :=
  t.head?.any fun c => c == '.' || c == '#' || c == '['

def endsLossy (t : Text) : Bool :=
  t.getLast?.any fun c => c == '#' || c == '.' || c == '[' || c == ']' || c == '='

/--
Whether a text is in one piece, and starts as a selector does.
-/
structure IsWord (t : Text) : Prop where
  ne_nil : t ≠ []
  inner : ∀ c ∈ t, isSeparator c = false
  head : ∀ c ∈ t.head?, isIdentChar c ∨ c = '*' ∨ c = '.' ∨ c = '#' ∨ c = '['

theorem isWord_render {s : Selector} (h : s.isAtomic) : IsWord s.render :=
  ⟨render_ne_nil h, fun _ => isSeparator_of_mem_render h, head?_render h⟩

theorem isTight_sign? {combinator : Combinator} {d : Char} (h : combinator.sign? = some d) :
    isTight d ∧ d ≠ '=' ∧ d ≠ ',' := by
  cases combinator with
  | descendant => cases h
  | _ =>
    cases h
    decide

theorem isTight_getLast {t : Text} {c : Char} (hc : t.getLast? = some c)
    (hsep : isSeparator c = false) : isTight c = endsLossy t := by
  rw [isSeparator_eq_false_iff] at hsep
  simp only [isTight, endsLossy, hc, Option.any_some]
  grind

namespace IsWord

variable {u : Text}

theorem startsTight_eq (h : IsWord u) : startsTight u = startsLossy u := by
  have hhead := h.head
  have hsep := h.inner
  cases u with
  | nil => exact absurd rfl h.ne_nil
  | cons c t =>
    have hc := isSeparator_eq_false_iff.1 (hsep c (by simp))
    rw [startsTight_cons]
    rcases hhead c rfl with hident | rfl | rfl | rfl | rfl
    . have hout : c ≠ '#' ∧ c ≠ '.' ∧ c ≠ '[' ∧ c ≠ ']' ∧ c ≠ '=' ∧ c ≠ '~' ∧ c ≠ '|' := by
        refine ⟨?_, ?_, ?_, ?_, ?_, ?_, ?_⟩
        all_goals
          intro heq
          subst heq
          revert hident
          decide
      simp only [isTight, startsLossy, List.head?_cons, Option.any_some]
      grind
    all_goals rfl

theorem isBlank_of_mem (h : IsWord u) : ∀ c ∈ u, isBlank c = false := by
  intro c hc
  exact (isSeparator_eq_false_iff.1 (h.inner c hc)).1

theorem not_joint_of_mem (h : IsWord u) : ∀ c ∈ u, isBlank c = false ∧ c ≠ '>' ∧ c ≠ '+' := by
  intro c hc
  have := isSeparator_eq_false_iff.1 (h.inner c hc)
  exact ⟨this.1, this.2.2.2, this.2.2.1⟩

theorem comma_not_mem (h : IsWord u) : ',' ∉ u := by
  intro hc
  have := h.inner ',' hc
  cases this

theorem exists_getLast? (h : IsWord u) : ∃ c, u.getLast? = some c ∧ isSeparator c = false :=
  ⟨_, List.getLast?_eq_some_getLast h.ne_nil, h.inner _ (List.getLast_mem _)⟩

theorem tidy_eq (h : IsWord u) : tidy u = u :=
  tidyAfter_eq_self h.isBlank_of_mem true

theorem chain_eq (h : IsWord u) : chain u = (u, []) :=
  chain_eq_self h.not_joint_of_mem

variable {t v w : Text} {c d : Char}

theorem tidy_blanks_append (h : IsWord u) (ht : t.getLast? = some c) (hc : isSeparator c = false)
    (hne : w ≠ []) (hw : Text.blank w) :
    tidy (t ++ (w ++ u)) = tidy t ++ if startsLossy u || endsLossy t then u else w ++ u := by
  have hhead : (w ++ u).head? ≠ some '=' := by
    cases w with
    | nil => contradiction
    | cons d w =>
      intro hd
      have heq : d = '=' := by
        simpa using hd
      subst heq
      simp [isBlank] at hw
  have hstart : Text.trimStart u = u := by
    apply Text.trimStart_eq_self
    intro d hd
    exact h.isBlank_of_mem d (List.mem_of_head? hd)
  rw [tidy, tidyAfter_append ht (isSeparator_eq_false_iff.1 hc).1 hhead, tidyAfter_blank_append hw,
    tidyAfter_eq_self h.isBlank_of_mem, hstart, h.startsTight_eq, isTight_getLast ht hc,
    Bool.or_comm]
  rfl

theorem tidy_sign_append (h : IsWord u) {combinator : Combinator} (hd : combinator.sign? = some d)
    (hv : Text.blank v) (hw : Text.blank w) :
    tidy (t ++ v ++ d :: (w ++ u)) = tidy t ++ d :: u := by
  have htight := isTight_sign? hd
  rw [tidy, tidyAfter_append_tight htight.1 htight.2.1, tidyAfter_append_blank hv,
    tidyAfter_blank_append hw, tidyAfter_eq_self h.isBlank_of_mem]
  rfl

theorem chain_blanks_append (h : IsWord u) (ht : t.getLast? = some c)
    (hc : isSeparator c = false) (hne : w ≠ []) (hw : Text.blank w)
    (hlossy : (startsLossy u || endsLossy t) = false) :
    chain (tidy (t ++ (w ++ u))) =
      ((chain (tidy t)).1, (chain (tidy t)).2 ++ [(.descendant, u)]) := by
  have hhead : u.head?.any isBlank = false := by
    rw [Option.any_eq_false]
    intro c hc
    simp [h.isBlank_of_mem c (List.mem_of_head? hc)]
  have hblank := (isSeparator_eq_false_iff.1 hc).1
  have hlast : ∀ d ∈ (tidy t).getLast?, isBlank d = false := by
    rw [tidy, getLast?_tidyAfter ht hblank]
    simpa using hblank
  have hjoint := chain_blank_append hw hne hhead
  rw [h.tidy_blanks_append ht hc hne hw, hlossy]
  simp only [Bool.false_eq_true, ↓reduceIte]
  rw [chain_append (by rw [hjoint]) (fun _ => hlast), hjoint, h.chain_eq]

theorem chain_sign_append (h : IsWord u) {combinator : Combinator} (hd : combinator.sign? = some d)
    (hv : Text.blank v) (hw : Text.blank w) :
    chain (tidy (t ++ v ++ d :: (w ++ u))) =
      ((chain (tidy t)).1, (chain (tidy t)).2 ++ [(combinator, u)]) := by
  have hjoint := chain_sign hd u
  have hhead : ¬(d :: u).head?.any isBlank := by
    simp [Combinator.isBlank_sign? hd]
  rw [h.tidy_sign_append hd hv hw, chain_append (by rw [hjoint]) (absurd · hhead), hjoint,
    h.chain_eq]

end IsWord

end Selector
end Stylesheet
