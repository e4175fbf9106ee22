import Stylesheet.Proofs.Selector.Word

/-!
This module contains the ways of writing a chain of selectors, which differ in their blanks, and
what is read from them. A chain is read back unless the blanks of a descendant combinator touch a
delimiter, since these are then taken for blanks that mean nothing.
-/

namespace Stylesheet
namespace Selector

def isLossy (left : Selector) (combinator : Combinator) (right : Selector) : Bool :=
  combinator == .descendant && (startsLossy right.render || endsLossy left.render)

/--
Whether somewhere in a chain the blanks of a descendant combinator touch a delimiter.
-/
def hasLossyJoint : Selector → Bool
  | joined left combinator right => isLossy left combinator right || left.hasLossyJoint
  | _ => false

/--
A text of a chain, with some blanks for a descendant combinator and any number of them around the
sign of another one.
-/
inductive Spelling : Selector → Text → Prop
  | atomic {s : Selector} (h : s.isAtomic) : Spelling s s.render
  | descendant {left right : Selector} {t w : Text} (h : Spelling left t) (hright : right.isAtomic)
      (hne : w ≠ []) (hw : Text.blank w) :
      Spelling (joined left .descendant right) (t ++ (w ++ right.render))
  | signed {left right : Selector} {combinator : Combinator} {d : Char} {t v w : Text}
      (h : Spelling left t) (hright : right.isAtomic) (hd : combinator.sign? = some d)
      (hv : Text.blank v) (hw : Text.blank w) :
      Spelling (joined left combinator right) (t ++ v ++ d :: (w ++ right.render))

/--
A text of a chain with any blanks around it.
-/
def Padded (s : Selector) (t : Text) : Prop :=
  ∃ v u w, Text.blank v ∧ Spelling s u ∧ Text.blank w ∧ t = v ++ u ++ w

theorem isLossy_sign {combinator : Combinator} {d : Char} (h : combinator.sign? = some d)
    (left right : Selector) : isLossy left combinator right = false := by
  cases combinator with
  | descendant => cases h
  | _ => rfl

namespace Spelling

theorem last {s : Selector} {t : Text} (h : Spelling s t) :
    ∃ c, s.render.getLast? = some c ∧ t.getLast? = some c ∧ isSeparator c = false := by
  cases h with
  | atomic h =>
    rcases (isWord_render h).exists_getLast? with ⟨c, hc, hsep⟩
    exact ⟨c, hc, hc, hsep⟩
  | descendant h hright hne hw =>
    rcases (isWord_render hright).exists_getLast? with ⟨c, hc, hsep⟩
    exact ⟨c, by simp [render, hc], by simp [hc], hsep⟩
  | signed h hright hd hv hw =>
    rcases (isWord_render hright).exists_getLast? with ⟨c, hc, hsep⟩
    exact ⟨c, by simp [render, hc], by simp [List.getLast?_cons, hc], hsep⟩

theorem endsLossy_eq {s : Selector} {t : Text} (h : Spelling s t) :
    endsLossy t = endsLossy s.render := by
  rcases h.last with ⟨c, hs, ht, -⟩
  rw [endsLossy, endsLossy, hs, ht]

theorem comma_not_mem {s : Selector} {t : Text} (h : Spelling s t) : ',' ∉ t := by
  have hblank {w : Text} (hw : Text.blank w) : ',' ∉ w := by
    intro hc
    have := Text.isBlank_of_mem hw hc
    cases this
  induction h with
  | atomic h => exact (isWord_render h).comma_not_mem
  | descendant h hright hne hw ih => simp [ih, (isWord_render hright).comma_not_mem, hblank hw]
  | signed h hright hd hv hw ih =>
    simp [ih, (isWord_render hright).comma_not_mem, hblank hv, hblank hw,
      (isTight_sign? hd).2.2.symm]

variable {left right : Selector} {t v w : Text}

theorem chain_descendant (h : Spelling left t) (hright : right.isAtomic) (hne : w ≠ [])
    (hw : Text.blank w) (hlossy : isLossy left .descendant right = false) :
    chain (tidy (t ++ (w ++ right.render))) =
      ((chain (tidy t)).1, (chain (tidy t)).2 ++ [(.descendant, right.render)]) := by
  rcases h.last with ⟨c, -, ht, hsep⟩
  apply (isWord_render hright).chain_blanks_append ht hsep hne hw
  rw [h.endsLossy_eq]
  exact hlossy

theorem length_chain_descendant (h : Spelling left t) (hright : right.isAtomic) (hne : w ≠ [])
    (hw : Text.blank w) (hlossy : isLossy left .descendant right) :
    (chain (tidy (t ++ (w ++ right.render)))).2.length = (chain (tidy t)).2.length := by
  rcases h.last with ⟨c, -, ht, hsep⟩
  have hword := isWord_render hright
  have hseam : startsLossy right.render || endsLossy t := by
    rw [h.endsLossy_eq]
    exact hlossy
  rw [hword.tidy_blanks_append ht hsep hne hw, if_pos hseam]
  exact length_chain_append hword.not_joint_of_mem (tidy t)

theorem chain_signed {combinator : Combinator} {d : Char} (hright : right.isAtomic)
    (hd : combinator.sign? = some d) (hv : Text.blank v) (hw : Text.blank w) :
    chain (tidy (t ++ v ++ d :: (w ++ right.render))) =
      ((chain (tidy t)).1, (chain (tidy t)).2 ++ [(combinator, right.render)]) :=
  (isWord_render hright).chain_sign_append hd hv hw

theorem ofGroup?_tidy {s : Selector} (h : Spelling s t) (hs : s.hasLossyJoint = false) :
    ofGroup? (tidy t) = some s := by
  induction h with
  | @atomic s h =>
    have hword := isWord_render h
    rw [hword.tidy_eq, ofGroup?_eq, hword.chain_eq, ofAtom?_render h]
    rfl
  | descendant h hright hne hw ih =>
    simp only [hasLossyJoint, Bool.or_eq_false_iff] at hs
    rw [ofGroup?_of_chain_concat (chain_descendant h hright hne hw hs.1), ih hs.2]
    simp [link?, ofAtom?_render hright]
  | signed h hright hd hv hw ih =>
    simp only [hasLossyJoint, Bool.or_eq_false_iff] at hs
    rw [ofGroup?_of_chain_concat (chain_signed hright hd hv hw), ih hs.2]
    simp [link?, ofAtom?_render hright]

theorem length_chain_le {s : Selector} (h : Spelling s t) :
    (chain (tidy t)).2.length + s.hasLossyJoint.toNat ≤ s.joints := by
  induction h with
  | @atomic s h =>
    have hword := isWord_render h
    rw [hword.tidy_eq, hword.chain_eq]
    cases s with
    | joined left combinator right => cases h
    | _ => simp [hasLossyJoint]
  | @descendant left right t w h hright hne hw ih =>
    rw [hasLossyJoint, joints]
    cases hlossy : isLossy left .descendant right with
    | true =>
      rw [length_chain_descendant h hright hne hw hlossy]
      simp only [Bool.true_or, Bool.toNat_true]
      omega
    | false =>
      rw [chain_descendant h hright hne hw hlossy]
      simp only [List.length_append, List.length_singleton, Bool.false_or]
      omega
  | @signed left right combinator d t v w h hright hd hv hw ih =>
    rw [hasLossyJoint, joints, isLossy_sign hd, chain_signed hright hd hv hw]
    simp only [List.length_append, List.length_singleton, Bool.false_or]
    omega

theorem ofGroup?_tidy_iff {s : Selector} (h : Spelling s t) :
    ofGroup? (tidy t) = some s ↔ s.hasLossyJoint = false := by
  refine ⟨?_, h.ofGroup?_tidy⟩
  intro hread
  -- A chain with a lossy joint has more combinators than its text is cut at.
  have hle := h.length_chain_le
  rw [← joints_of_ofGroup? hread] at hle
  cases hs : s.hasLossyJoint with
  | false => rfl
  | true =>
    rw [hs, Bool.toNat_true] at hle
    omega

end Spelling

theorem Padded.exists_spelling {s : Selector} {t : Text} (h : Padded s t) :
    ∃ u, Spelling s u ∧ tidy t = tidy u := by
  rcases h with ⟨v, u, w, hv, hu, hw, rfl⟩
  refine ⟨u, hu, ?_⟩
  rw [tidy, tidyAfter_append_blank hw]
  exact tidy_blank_append hv u

theorem Padded.comma_not_mem_tidy {s : Selector} {t : Text} (h : Padded s t) : ',' ∉ tidy t := by
  rcases h.exists_spelling with ⟨u, hu, htidy⟩
  rw [htidy]
  intro hc
  exact hu.comma_not_mem (mem_of_mem_tidyAfter hc)

theorem Padded.tidy_ne_nil {s : Selector} {t : Text} (h : Padded s t) : tidy t ≠ [] := by
  rcases h.exists_spelling with ⟨u, hu, htidy⟩
  rcases hu.last with ⟨c, -, hlast, hsep⟩
  have := getLast?_tidyAfter hlast (isSeparator_eq_false_iff.1 hsep).1 true
  rw [htidy]
  intro hnil
  rw [tidy] at hnil
  simp [hnil] at this

theorem Padded.ofGroup?_tidy_iff {s : Selector} {t : Text} (h : Padded s t) :
    ofGroup? (tidy t) = some s ↔ s.hasLossyJoint = false := by
  rcases h.exists_spelling with ⟨u, hu, htidy⟩
  rw [htidy]
  exact hu.ofGroup?_tidy_iff

end Selector
end Stylesheet
