import Stylesheet.Proofs.Selector.Image

/-!
This module contains what the text of a selector tells about it. Two selectors that are read from
texts have the same text only if they are the same: the sign after the first name tells what kind of
simple selector it is, the first colon where the name of a pseudo-class starts, and the blanks where
the last selector of a chain does. Other selectors may share their text, since no qualifier and an
empty one are written alike, and so are chains however they associate.
-/

namespace Stylesheet
namespace Selector

def isTagChar (c : Char) : Bool :=
  isIdentChar c || c == '*'

/--
What stands before the sign of a simple selector; the name of an element has none.
-/
def tagPart : Selector → Text
  | element name => name
  | byClass _ q => q.getD []
  | byId _ q => q.getD []
  | byAttribute _ _ _ q => q.getD []
  | _ => []

/--
A simple selector from its sign on.
-/
def signPart : Selector → Text
  | byClass name _ => '.' :: name
  | byId name _ => '#' :: name
  | byAttribute name operator value _ => '[' :: (name ++ (renderValue operator value ++ [']']))
  | _ => []

theorem isTagChar_of_isTag {t : Text} (h : isTag t) : ∀ c ∈ t, isTagChar c := by
  intro c hc
  simp only [isTag, Bool.or_eq_true, beq_iff_eq] at h
  rcases h with h | rfl
  . simp [isTagChar, isIdentChar_of_mem h hc]
  . simp [isTagChar, List.mem_singleton.1 hc]

theorem isTagChar_of_isQualifier {q : Option Text} (h : isQualifier q) :
    ∀ c ∈ q.getD [], isTagChar c := by
  cases q with
  | none => exact List.forall_mem_nil _
  | some t => exact isTagChar_of_isTag h

section Simple

variable {s s' : Selector}

theorem isTagChar_of_mem_tagPart (h : s.unquoted.isSimple) : ∀ c ∈ s.tagPart, isTagChar c := by
  cases s with
  | element name => exact isTagChar_of_isTag h
  | byClass name q =>
    simp only [unquoted, isSimple, Bool.and_eq_true] at h
    exact isTagChar_of_isQualifier h.2
  | byId name q =>
    simp only [unquoted, isSimple, Bool.and_eq_true] at h
    exact isTagChar_of_isQualifier h.2
  | byAttribute name operator value q =>
    simp only [unquoted, isSimple, Bool.and_eq_true] at h
    exact isTagChar_of_isQualifier h.2
  | pseudo inner name => cases h
  | joined left combinator right => cases h

theorem takeWhile_render (h : s.unquoted.isSimple) :
    s.render.takeWhile isTagChar = s.tagPart ∧ s.render.dropWhile isTagChar = s.signPart := by
  have htext : s.render = s.tagPart ++ s.signPart := by
    cases s with
    | element name => simp [render, tagPart, signPart]
    | byAttribute name operator value q => exact render_byAttribute name operator value q
    | pseudo inner name => cases h
    | joined left combinator right => cases h
    | _ => rfl
  have hsign : s.signPart.takeWhile isTagChar = [] ∧
      s.signPart.dropWhile isTagChar = s.signPart := by
    cases s <;> exact ⟨rfl, rfl⟩
  have htag := isTagChar_of_mem_tagPart h
  rw [htext, List.takeWhile_append_of_pos htag, List.dropWhile_append_of_pos htag, hsign.1,
    hsign.2, List.append_nil]
  exact ⟨rfl, rfl⟩

theorem getD_inj {q q' : Option Text} (h : isQualifier q) (h' : isQualifier q')
    (heq : q.getD [] = q'.getD []) : q = q' := by
  have hread := qualifier?_getD h
  rw [heq, qualifier?_getD h'] at hread
  exact (Option.some.inj hread).symm

theorem renderValue_inj {operator operator' : Operator} {value value' : Option Text}
    (h : operator = .present ↔ value = none) (h' : operator' = .present ↔ value' = none)
    (heq : renderValue operator value ++ [']'] = renderValue operator' value' ++ [']']) :
    operator = operator' ∧ value = value' := by
  rw [List.append_left_inj] at heq
  cases value with
  | none =>
    cases value' with
    | none => exact ⟨(h.2 rfl).trans (h'.2 rfl).symm, rfl⟩
    | some v' => simp [renderValue] at heq
  | some v =>
    cases value' with
    | none => simp [renderValue] at heq
    | some v' =>
      cases operator <;> cases operator' <;> simp_all [renderValue, Operator.symbol]

theorem eq_of_render_eq_simple (h : s.unquoted.isSimple) (h' : s'.unquoted.isSimple)
    (heq : s.render = s'.render) : s = s' := by
  have htag : s.tagPart = s'.tagPart := by
    rw [← (takeWhile_render h).1, ← (takeWhile_render h').1, heq]
  have hsign : s.signPart = s'.signPart := by
    rw [← (takeWhile_render h).2, ← (takeWhile_render h').2, heq]
  cases s with
  | element name =>
    cases s' with
    | element name' => exact congrArg element htag
    | pseudo inner name' => cases h'
    | joined left combinator right => cases h'
    | _ => simp [signPart] at hsign
  | byClass name q =>
    cases s' with
    | byClass name' q' =>
      simp only [unquoted, isSimple, Bool.and_eq_true] at h h'
      rw [(List.cons.inj hsign).2, getD_inj h.2 h'.2 htag]
    | _ => simp [signPart] at hsign
  | byId name q =>
    cases s' with
    | byId name' q' =>
      simp only [unquoted, isSimple, Bool.and_eq_true] at h h'
      rw [(List.cons.inj hsign).2, getD_inj h.2 h'.2 htag]
    | _ => simp [signPart] at hsign
  | byAttribute name operator value q =>
    cases s' with
    | byAttribute name' operator' value' q' =>
      simp only [unquoted, isSimple, Bool.and_eq_true] at h h'
      have hpresent := present_iff_of_isTest h.1.2
      have hpresent' := present_iff_of_isTest h'.1.2
      rw [Option.map_eq_none_iff] at hpresent hpresent'
      have hrest := takeIdent?_append_renderValue h.1.1 operator value
      rw [(List.cons.inj hsign).2, takeIdent?_append_renderValue h'.1.1 operator' value',
        Option.some.injEq, Prod.mk.injEq] at hrest
      rcases renderValue_inj hpresent' hpresent hrest.2 with ⟨rfl, rfl⟩
      rw [hrest.1, getD_inj h.2 h'.2 htag]
    | _ => simp [signPart] at hsign
  | pseudo inner name => cases h
  | joined left combinator right => cases h

end Simple

theorem eq_of_render_eq_atomic {s s' : Selector} (h : s.unquoted.isAtomic)
    (h' : s'.unquoted.isAtomic) (heq : s.render = s'.render) : s = s' := by
  rcases unquoted_isAtomic_cases h with hs | ⟨inner, name, rfl, hinner⟩
  . rcases unquoted_isAtomic_cases h' with hs' | ⟨inner', name', rfl, hinner'⟩
    . exact eq_of_render_eq_simple hs hs' heq
    . have hcolon := colon_not_mem_render hs
      rw [heq] at hcolon
      simp [render] at hcolon
  . rcases unquoted_isAtomic_cases h' with hs' | ⟨inner', name', rfl, hinner'⟩
    . have hcolon := colon_not_mem_render hs'
      rw [← heq] at hcolon
      simp [render] at hcolon
    . have hcut := congrArg (Text.cut ':') heq
      rw [render, render, Text.cut_append_cons (colon_not_mem_render hinner),
        Text.cut_append_cons (colon_not_mem_render hinner'), Prod.mk.injEq,
        Option.some.injEq] at hcut
      rw [eq_of_render_eq_simple hinner hinner' hcut.1, hcut.2]

theorem chain_tidy_of_unquoted {s : Selector} (h : s.unquoted.isAtomic) :
    chain (tidy s.render) = (s.render, []) := by
  have hword := isWord_render_of_unquoted h
  rw [hword.tidy_eq, hword.chain_eq]

theorem eq_of_chain_tidy_eq_atomic {s s' : Selector} (h : s.unquoted.isAtomic)
    (h' : s'.unquoted.isChain) (hjoints' : s'.hasLossyJoint = false)
    (heq : chain (tidy s.render) = chain (tidy s'.render)) : s = s' := by
  rw [chain_tidy_of_unquoted h] at heq
  cases s' with
  | joined left combinator right =>
    rw [unquoted, isChain, Bool.and_eq_true] at h'
    rw [hasLossyJoint, Bool.or_eq_false_iff] at hjoints'
    rw [chain_tidy_joined h'.1 h'.2 hjoints'.1] at heq
    simp at heq
  | _ =>
    rw [chain_tidy_of_unquoted h', Prod.mk.injEq] at heq
    exact eq_of_render_eq_atomic h h' heq.1

/--
A chain is told by the texts between its combinators.
-/
theorem eq_of_chain_tidy_eq {s s' : Selector} (h : s.unquoted.isChain)
    (hjoints : s.hasLossyJoint = false) (h' : s'.unquoted.isChain)
    (hjoints' : s'.hasLossyJoint = false)
    (heq : chain (tidy s.render) = chain (tidy s'.render)) : s = s' := by
  induction s generalizing s' with
  | joined left combinator right ihleft ihright =>
    cases s' with
    | joined left' combinator' right' =>
      rw [unquoted, isChain, Bool.and_eq_true] at h h'
      rw [hasLossyJoint, Bool.or_eq_false_iff] at hjoints hjoints'
      rw [chain_tidy_joined h.1 h.2 hjoints.1, chain_tidy_joined h'.1 h'.2 hjoints'.1,
        Prod.mk.injEq] at heq
      rcases List.append_inj' heq.2 rfl with ⟨hinit, hlast⟩
      rw [List.cons.injEq, Prod.mk.injEq] at hlast
      have hleft := ihleft h.1 hjoints.2 h'.1 hjoints'.2 (Prod.ext heq.1 hinit)
      have hright := eq_of_render_eq_atomic h.2 h'.2 hlast.1.2
      rw [hleft, hlast.1.1, hright]
    | _ => exact (eq_of_chain_tidy_eq_atomic h' h hjoints heq.symm).symm
  | _ => exact eq_of_chain_tidy_eq_atomic h h' hjoints' heq

theorem render_inj_of_mem_ofText {t t' : Text} {s s' : Selector} (h : s ∈ ofText t)
    (h' : s' ∈ ofText t') : s.render = s'.render ↔ s = s' := by
  rcases isChain_of_mem_ofText h with ⟨hchain, hjoints⟩
  rcases isChain_of_mem_ofText h' with ⟨hchain', hjoints'⟩
  refine ⟨?_, fun heq => by rw [heq]⟩
  intro heq
  exact eq_of_chain_tidy_eq hchain hjoints hchain' hjoints' (by rw [heq])

theorem not_blank_of_mem_ofText {t : Text} {s : Selector} (h : s ∈ ofText t) :
    Text.blank s.render = false := by
  rcases exists_getLast?_render (isChain_of_mem_ofText h).1 with ⟨c, hc, hsep⟩
  rw [Bool.eq_false_iff]
  intro hblank
  have hc := Text.isBlank_of_mem hblank (List.mem_of_getLast? hc)
  rw [(isSeparator_eq_false_iff.1 hsep).1] at hc
  cases hc

end Selector
end Stylesheet
