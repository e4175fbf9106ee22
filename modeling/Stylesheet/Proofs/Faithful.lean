import Stylesheet.Proofs.Canonical

/-!
This module contains faithful sheets: canonical ones whose rulesets hold names only, and none of the
signs that would have to stand inside of a string.
-/

namespace Stylesheet

namespace Selector

/--
Whether a selector is that of an element, a class or an identifier.
-/
def isNamed : Selector → Bool
  | element name => isTag name
  | byClass name q => isIdent name && isQualifier q
  | byId name q => isIdent name && isQualifier q
  | _ => false

/--
Whether the text of a named selector starts with a name.
-/
def isQualified : Selector → Bool
  | element _ => true
  | byClass _ q => q.isSome
  | byId _ q => q.isSome
  | _ => false

/--
Whether a selector is a chain of named ones, in which nothing but a name stands after a descendant
combinator.
-/
def isNamedChain : Selector → Bool
  | joined left combinator right =>
    left.isNamedChain && right.isNamed && (combinator != .descendant || right.isQualified)
  | s => s.isNamed

theorem isAtomic_of_isNamed {s : Selector} (h : s.isNamed) : s.isAtomic := by
  cases s <;> first | exact h | cases h

theorem isIdentChar_of_mem_tag {t : Text} (h : isTag t) {c : Char} (hc : c ∈ t) :
    isIdentChar c ∨ c = '*' := by
  simp only [isTag, Bool.or_eq_true, beq_iff_eq] at h
  rcases h with h | rfl
  . exact .inl (isIdentChar_of_mem h hc)
  . exact .inr (List.mem_singleton.1 hc)

theorem beq_eq_false_of_isIdentChar {c d : Char} (hc : isIdentChar c) (hd : isIdentChar d = false) :
    (c == d) = false := by
  rw [beq_eq_false_iff_ne]
  rintro rfl
  rw [hc] at hd
  cases hd

theorem isIdentChar_of_mem_qualifier {q : Option Text} (h : isQualifier q) {c : Char}
    (hc : c ∈ q.getD []) : isIdentChar c ∨ c = '*' := by
  cases q with
  | none => cases hc
  | some t => exact isIdentChar_of_mem_tag h hc

theorem mem_render_of_isNamed {s : Selector} (h : s.isNamed) {c : Char} (hc : c ∈ s.render) :
    isIdentChar c ∨ c ∈ ['*', '.', '#'] := by
  have hsigned {name : Text} {q : Option Text} (hs : isIdent name ∧ isQualifier q) (sign : Char)
      (hc : c ∈ q.getD [] ++ sign :: name) : isIdentChar c ∨ c = '*' ∨ c = sign := by
    rw [List.mem_append, List.mem_cons] at hc
    rcases hc with hc | rfl | hc
    . exact (isIdentChar_of_mem_qualifier hs.2 hc).imp_right .inl
    . exact .inr (.inr rfl)
    . exact .inl (isIdentChar_of_mem hs.1 hc)
  cases s with
  | element name =>
    have := isIdentChar_of_mem_tag h hc
    grind
  | byClass name q =>
    have := hsigned (by simpa [isNamed] using h) '.' hc
    grind
  | byId name q =>
    have := hsigned (by simpa [isNamed] using h) '#' hc
    grind
  | _ => cases h

theorem startsLossy_of_isQualified {s : Selector} (h : s.isNamed) (hq : s.isQualified) :
    startsLossy s.render = false := by
  have hstart {t : Text} (ht : isTag t) (u : Text) : startsLossy (t ++ u) = false := by
    cases t with
    | nil => exact absurd rfl (ne_nil_of_isTag ht)
    | cons c t =>
      rcases isIdentChar_of_mem_tag ht List.mem_cons_self with hc | rfl
      . have hne {d : Char} := beq_eq_false_of_isIdentChar hc (d := d)
        rw [startsLossy, List.cons_append, List.head?_cons, Option.any_some, hne rfl, hne rfl,
          hne rfl]
        rfl
      . rfl
  have hqualified {q : Option Text} (hq : isQualifier q) (hsome : q.isSome) (u : Text) :
      startsLossy (q.getD [] ++ u) = false := by
    cases q with
    | none => cases hsome
    | some t => exact hstart hq u
  cases s with
  | element name =>
    have hname := hstart h []
    rwa [List.append_nil] at hname
  | byClass name q =>
    simp only [isNamed, Bool.and_eq_true] at h
    exact hqualified h.2 hq _
  | byId name q =>
    simp only [isNamed, Bool.and_eq_true] at h
    exact hqualified h.2 hq _
  | _ => cases h

theorem endsLossy_of_isNamed {s : Selector} (h : s.isNamed) (t : Text) :
    endsLossy (t ++ s.render) = false := by
  have hend {name : Text} (hname : isTag name) (u : Text) : endsLossy (u ++ name) = false := by
    have hlast := List.getLast?_eq_some_getLast (ne_nil_of_isTag hname)
    rw [endsLossy, List.getLast?_append, hlast, Option.some_or, Option.any_some]
    rcases isIdentChar_of_mem_tag hname (List.mem_of_getLast? hlast) with hc | hc
    . have hne {d : Char} := beq_eq_false_of_isIdentChar hc (d := d)
      rw [hne rfl, hne rfl, hne rfl, hne rfl, hne rfl]
      rfl
    . rw [hc]
      rfl
  have hident {name : Text} (hname : isIdent name) : isTag name := by
    rw [isTag, hname, Bool.true_or]
  cases s with
  | element name => exact hend h t
  | byClass name q =>
    simp only [isNamed, Bool.and_eq_true] at h
    simpa [render] using hend (hident h.1) (t ++ q.getD [] ++ ['.'])
  | byId name q =>
    simp only [isNamed, Bool.and_eq_true] at h
    simpa [render] using hend (hident h.1) (t ++ q.getD [] ++ ['#'])
  | _ => cases h

section NamedChain

variable {s : Selector}

theorem isChain_of_isNamedChain (h : s.isNamedChain) : s.isChain := by
  induction s with
  | joined left combinator right ihleft ihright =>
    simp only [isNamedChain, Bool.and_eq_true] at h
    rw [isChain, ihleft h.1.1, isAtomic_of_isNamed h.1.2]
    rfl
  | _ => exact isAtomic_of_isNamed h

theorem endsLossy_of_isNamedChain (h : s.isNamedChain) : endsLossy s.render = false := by
  cases s with
  | joined left combinator right =>
    simp only [isNamedChain, Bool.and_eq_true] at h
    exact endsLossy_of_isNamed h.1.2 (left.render ++ combinator.spelling)
  | _ => exact endsLossy_of_isNamed h []

theorem hasLossyJoint_of_isNamedChain (h : s.isNamedChain) : s.hasLossyJoint = false := by
  induction s with
  | joined left combinator right ihleft ihright =>
    simp only [isNamedChain, Bool.and_eq_true] at h
    rw [hasLossyJoint, ihleft h.1.1, Bool.or_false]
    cases combinator with
    | descendant =>
      have hstart := startsLossy_of_isQualified h.1.2 (by simpa using h.2)
      rw [isLossy, hstart, endsLossy_of_isNamedChain h.1.1]
      rfl
    | _ => rfl
  | _ => rfl

theorem mem_render_of_isNamedChain (h : s.isNamedChain) {c : Char} (hc : c ∈ s.render) :
    isIdentChar c ∨ c ∈ ['*', '.', '#', ' ', '>', '+'] := by
  have hnamed {s : Selector} (h : s.isNamed) (hc : c ∈ s.render) :
      isIdentChar c ∨ c ∈ ['*', '.', '#', ' ', '>', '+'] := by
    have := mem_render_of_isNamed h hc
    grind
  induction s with
  | joined left combinator right ihleft ihright =>
    simp only [isNamedChain, Bool.and_eq_true] at h
    rw [render, List.mem_append, List.mem_append] at hc
    rcases hc with (hc | hc) | hc
    . exact ihleft h.1.1 hc
    . have hspelling : combinator.spelling ⊆ ['*', '.', '#', ' ', '>', '+'] := by
        cases combinator <;> decide
      exact .inr (hspelling hc)
    . exact hnamed h.1.2 hc
  | _ => exact hnamed h hc

theorem isSealed_of_isNamedChain (h : s.isNamedChain) :
    Text.isSealed ['{', '}', '@'] s.render := by
  have hsigns : ∀ c ∈ s.render, c ∉ ['"', '{', '}', '@', '/'] := by
    intro c hc hsign
    have hnone : ['"', '{', '}', '@', '/'].all fun d =>
        !(isIdentChar d || ['*', '.', '#', ' ', '>', '+'].contains d) := rfl
    have hd := List.all_eq_true.1 hnone c hsign
    rcases mem_render_of_isNamedChain h hc with hc | hc
    . simp [hc] at hd
    . simp [hc] at hd
  apply Text.isSealed_of_signs (by simp) hsigns
  intro hcomment
  exact hsigns '/' (hcomment.subset List.mem_cons_self) (by decide)

end NamedChain

end Selector

/--
The selectors are named chains. In the values of declarations there are no blanks around, and no
signs that end a declaration or a ruleset, start a string or start a comment.
-/
structure Ruleset.IsFaithful (r : Ruleset) : Prop where
  media : ∀ types ∈ r.media, types ≠ [] ∧ ∀ t ∈ types, Media.IsType t
  chains : ∀ s ∈ r.selectors, s.isNamedChain
  names : ∀ entry ∈ r.declarations.entries, isIdent entry.1
  trimmed : ∀ entry ∈ r.declarations.entries, Text.trim entry.2 = entry.2
  signs : ∀ entry ∈ r.declarations.entries, ∀ c ∈ entry.2, c ∉ ['"', '{', '}', ';']
  noComment : ∀ entry ∈ r.declarations.entries, ¬['/', '*'] <:+: entry.2

/--
Comments are comments indeed, not at-rules; all else is as in canonical blocks.
-/
def Block.IsFaithful : Block → Prop
  | comment t => ∃ body : Text, ¬['*', '/'] <:+: body ∧ body.getLast? ≠ some '/' ∧
      t = '/' :: '*' :: (body ++ ['*', '/'])
  | importRule i => i.IsCanonical
  | charset name => '"' ∉ name ∧ Text.escapes name = false
  | ruleset r => r.IsFaithful

def Sheet.IsFaithful (s : Sheet) : Prop :=
  ∀ b ∈ s.blocks, b.IsFaithful

theorem Ruleset.IsFaithful.isCanonical {r : Ruleset} (h : r.IsFaithful) : r.IsCanonical := by
  refine ⟨h.media, ?_, ?_, ?_, ?_, ?_⟩
  . intro s hs
    exact Selector.isChain_of_isNamedChain (h.chains s hs)
  . intro s hs
    exact Selector.hasLossyJoint_of_isNamedChain (h.chains s hs)
  . intro s hs
    exact Selector.isSealed_of_isNamedChain (h.chains s hs)
  . intro entry hentry
    have hsemicolon : ';' ∉ entry.2 := by
      intro hmem
      exact h.signs entry hentry ';' hmem (by decide)
    simp [Declarations.isReadable, h.names entry hentry, h.trimmed entry hentry, hsemicolon]
  . intro entry hentry
    exact Text.isSealed_of_signs (by simp) (h.signs entry hentry) (h.noComment entry hentry)

theorem Block.IsFaithful.isCanonical {b : Block} (h : b.IsFaithful) : b.IsCanonical := by
  cases b with
  | comment t =>
    rcases h with ⟨body, hclose, hlast, rfl⟩
    exact .comment hclose hlast
  | ruleset r => exact Ruleset.IsFaithful.isCanonical h
  | _ => exact h

theorem Sheet.IsFaithful.isCanonical {s : Sheet} (h : s.IsFaithful) : s.IsCanonical := by
  intro b hb
  exact (h b hb).isCanonical

end Stylesheet
