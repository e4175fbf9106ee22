import Stylesheet.Proofs.Selector.Form

/-!
This module contains what is read from the text of attribute selectors. Their values may hold
anything but the double quotes that end them, as far as the text goes. The reader looks for a colon
before it looks for anything else, and for the signs of classes and ids before it looks for the
bracket, so it loses exactly the selectors with one of these signs in their value.
-/

namespace Stylesheet
namespace Selector

/--
Whether a value holds one of the signs that are looked for before the bracket.
-/
def holdsSign (value : Option Text) : Bool :=
  value.any fun v => v.contains ':' || v.contains '.' || v.contains '#'

theorem value?_of_not_mem {t : Text} (h : '"' ∉ t) : value? ('"' :: t) = none := by
  rw [value?, Text.cut_of_not_mem h]

section Attribute

variable {name : Text} {operator : Operator} {value q : Option Text}

theorem mem_render_byAttribute_iff {c : Char} (hident : isIdentChar c = false)
    (hsign : c ∉ ['*', '[', ']', '"', '=', '~', '|']) (hname : isIdent name)
    (hq : isQualifier q) :
    c ∈ (byAttribute name operator value q).render ↔ ∃ v ∈ value, c ∈ v := by
  simp only [List.mem_cons, not_or] at hsign
  have hvalue : c ∈ renderValue operator value ↔ ∃ v ∈ value, c ∈ v :=
    mem_renderValue_iff (by simp [hsign])
  rw [render_byAttribute, ← hvalue]
  constructor
  . intro hc
    by_contra hrest
    exact not_mem_bracket hident (by simp [hsign]) hq hname (by simp [hrest, hsign]) hc
  . intro hc
    simp [hc]

/--
Without a sign in its value an attribute selector is read back, with one of a class or an id it is
lost.
-/
theorem ofSimple?_render_byAttribute (hname : isIdent name) (hq : isQualifier q)
    (hpresent : operator = .present ↔ value = none) (hquote : ∀ v ∈ value, '"' ∉ v) :
    ofSimple? (byAttribute name operator value q).render =
      if ∃ v ∈ value, '.' ∈ v ∨ '#' ∈ v then none else some (byAttribute name operator value q) := by
  have hread := ofSimple?_bracket hq hname (takeIdent?_append_renderValue hname operator value)
  have hmem {c : Char} (hsign : c ∉ ['"', '=', '~', '|', ']']) :
      c ∈ renderValue operator value ++ [']'] ↔ ∃ v ∈ value, c ∈ v := by
    simp only [List.mem_cons, not_or] at hsign
    rw [List.mem_append, mem_renderValue_iff (by simp [hsign])]
    simp [hsign]
  have hsign : ('.' ∈ renderValue operator value ++ [']'] ∨
      '#' ∈ renderValue operator value ++ [']']) ↔ ∃ v ∈ value, '.' ∈ v ∨ '#' ∈ v := by
    rw [hmem (by decide), hmem (by decide)]
    simp only [and_or_left, exists_or]
  simp only [test?_renderValue hpresent hquote, Option.map_some, hsign] at hread
  rw [render_byAttribute, hread]

/--
The text of an attribute selector up to a colon in its value has no quote that ends the value.
-/
theorem ofAtom?_bracket_colon (hname : isIdent name) (hq : isQualifier q)
    (hop : operator ≠ .present) {before : Text} (hcolon : ':' ∉ before) (hquote : '"' ∉ before)
    {after : Text} (hafter : after ≠ []) :
    ofAtom? (q.getD [] ++ '[' :: (name ++ (operator.symbol ++ '"' :: before)) ++ ':' :: after) =
      none := by
  have hsymbol : ':' ∉ operator.symbol ++ '"' :: before := by
    cases operator <;> simp [Operator.symbol, hcolon]
  have hident : takeIdent? (name ++ (operator.symbol ++ '"' :: before)) =
      some (name, operator.symbol ++ '"' :: before) := by
    cases operator <;> exact takeIdent?_append hname (by decide) _
  have hbefore := not_mem_bracket outside_colon.ident (by decide) hq hname hsymbol
  rw [ofAtom?_append_colon hbefore, if_neg hafter, ofSimple?_bracket hq hname hident,
    test?_symbol_append hop, value?_of_not_mem hquote, Option.map_none, Option.map_none, ite_self]
  rfl

theorem ofAtom?_render_append (hname : isIdent name) (hq : isQualifier q)
    (hpresent : operator = .present ↔ value = none) (hquote : ∀ v ∈ value, '"' ∉ v)
    {v : Text} (hv : v ∈ value) (hcolon : ':' ∈ v) (t : Text) :
    ofAtom? ((byAttribute name operator value q).render ++ t) = none := by
  rcases List.eq_append_cons_of_mem hcolon with ⟨before, after, rfl, hbefore⟩
  have hop : operator ≠ .present := by
    intro h
    rw [hpresent.1 h] at hv
    cases hv
  have hnoquote := hquote _ hv
  rw [List.mem_append, not_or] at hnoquote
  rw [Option.mem_def] at hv
  have htext : (byAttribute name operator value q).render ++ t =
      q.getD [] ++ '[' :: (name ++ (operator.symbol ++ '"' :: before)) ++
        ':' :: (after ++ '"' :: ']' :: t) := by
    simp [hv, render, renderValue]
  rw [htext]
  exact ofAtom?_bracket_colon hname hq hop hbefore hnoquote.1 (by simp)

/--
An attribute selector is read back from its text, alone and with a pseudo-class or pseudo-element
after it, if its value holds no colon, `.` or `#`; otherwise nothing is read.
-/
theorem ofAtom?_render_byAttribute (hname : isIdent name) (hq : isQualifier q)
    (hpresent : operator = .present ↔ value = none) (hquote : ∀ v ∈ value, '"' ∉ v) :
    (ofAtom? (byAttribute name operator value q).render =
        if holdsSign value then none else some (byAttribute name operator value q)) ∧
      ∀ pseudoName ≠ [], ofAtom? (pseudo (byAttribute name operator value q) pseudoName).render =
        if holdsSign value then
          none
        else
          some (pseudo (byAttribute name operator value q) pseudoName) := by
  by_cases hcolon : ∃ v ∈ value, ':' ∈ v
  . have hsign : holdsSign value := by
      rcases hcolon with ⟨v, rfl, hmem⟩
      simp [holdsSign, hmem]
    rcases hcolon with ⟨v, hv, hmem⟩
    have hnone := ofAtom?_render_append hname hq hpresent hquote hv hmem
    simp only [hsign, ↓reduceIte]
    constructor
    . simpa using hnone []
    . intro pseudoName _
      exact hnone (':' :: pseudoName)
  . have hsign : holdsSign value ↔ ∃ v ∈ value, '.' ∈ v ∨ '#' ∈ v := by
      cases value <;> simp_all [holdsSign]
    have hrender : ':' ∉ (byAttribute name operator value q).render := by
      rwa [mem_render_byAttribute_iff outside_colon.ident outside_colon.sign hname hq]
    have hread := ofSimple?_render_byAttribute hname hq hpresent hquote
    simp only [← hsign] at hread
    refine ⟨by rw [ofAtom?_of_not_mem hrender, hread], ?_⟩
    intro pseudoName hne
    rw [render, ofAtom?_append_colon hrender, if_neg hne, hread]
    split <;> rfl

theorem ofAtom?_render_byAttribute_blank :
    isIdent ['a'] ∧ isQualifier (some ['*']) ∧ '"' ∉ "b, ]'".toList ∧
      ofAtom? (pseudo (byAttribute ['a'] .includes (some "b, ]'".toList) (some ['*'])) [' ']).render =
        some (pseudo (byAttribute ['a'] .includes (some "b, ]'".toList) (some ['*'])) [' ']) := by
  have h := @ofAtom?_render_byAttribute ['a'] .includes (some "b, ]'".toList) (some ['*'])
    (by decide) (by decide) (by decide) (by simp)
  exact ⟨by decide, by decide, by decide, h.2 [' '] (by decide)⟩

/--
A value that names a file is lost, although nothing in it ends the value.
-/
theorem ofAtom?_render_dotted :
    isIdent ['a'] ∧ '"' ∉ "b.c".toList ∧
      (byAttribute ['a'] .equals (some "b.c".toList) none).render = "[a=\"b.c\"]".toList ∧
      ofAtom? "[a=\"b.c\"]".toList = none := by
  decide

end Attribute

end Selector
end Stylesheet
