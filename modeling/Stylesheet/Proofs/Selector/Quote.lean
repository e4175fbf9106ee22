import Stylesheet.Proofs.Selector.Grammar
import Stylesheet.Proofs.Selector.Word

/-!
This module contains the selectors that are read from texts without combinators. They are atomic but
for the double quotes in their values, and exactly those that hold such a quote are not read back
from their own text.
-/

namespace Stylesheet
namespace Selector

/--
Whether a double quote is in one of the values of a selector.
-/
def holdsQuote : Selector → Bool
  | byAttribute _ _ value _ => value.any fun v => v.contains '"'
  | pseudo inner _ => inner.holdsQuote
  | joined left _ right => left.holdsQuote || right.holdsQuote
  | _ => false

/--
A selector without the double quotes in its values.
-/
def unquoted : Selector → Selector
  | byAttribute name operator value q =>
    byAttribute name operator (value.map fun v => v.filter fun c => c != '"') q
  | pseudo inner name => pseudo inner.unquoted name
  | joined left combinator right => joined left.unquoted combinator right.unquoted
  | s => s

theorem unquoted_eq_self {s : Selector} (h : s.holdsQuote = false) : s.unquoted = s := by
  induction s with
  | byAttribute name operator value q =>
    cases value with
    | none => rfl
    | some v =>
      have hv : '"' ∉ v := by
        simpa [holdsQuote] using h
      have hfilter : (v.filter fun c => c != '"') = v := by
        rw [List.filter_eq_self]
        intro c hc
        rw [bne_iff_ne]
        rintro rfl
        exact hv hc
      rw [unquoted, Option.map_some, hfilter]
  | pseudo inner name ih => rw [unquoted, ih h]
  | joined left combinator right ihleft ihright =>
    simp only [holdsQuote, Bool.or_eq_false_iff] at h
    rw [unquoted, ihleft h.1, ihright h.2]
  | _ => rfl

theorem mem_render_unquoted {s : Selector} {c : Char} (hc : c ∈ s.render) (hquote : c ≠ '"') :
    c ∈ s.unquoted.render := by
  induction s with
  | byAttribute name operator value q =>
    cases value with
    | none => exact hc
    | some v =>
      simp only [render, renderValue, unquoted, Option.map_some, List.mem_append, List.mem_cons,
        List.mem_filter, bne_iff_ne] at hc ⊢
      grind
  | pseudo inner name ih =>
    simp only [render, unquoted, List.mem_append] at hc ⊢
    exact hc.imp_left ih
  | joined left combinator right ihleft ihright =>
    simp only [render, unquoted, List.mem_append] at hc ⊢
    exact hc.imp (Or.imp_left ihleft) ihright
  | _ => exact hc

theorem head?_render_unquoted (s : Selector) : s.unquoted.render.head? = s.render.head? := by
  induction s with
  | byAttribute name operator value q => simp [unquoted, render, List.head?_append]
  | pseudo inner name ih => rw [unquoted, render, render, List.head?_append, List.head?_append, ih]
  | joined left combinator right ihleft ihright =>
    simp only [unquoted, render, List.append_assoc, List.head?_append, ihleft, ihright]
  | _ => rfl

theorem isWord_render_of_unquoted {s : Selector} (h : s.unquoted.isAtomic) : IsWord s.render := by
  have hword := isWord_render h
  constructor
  . intro hnil
    have hhead := head?_render_unquoted s
    rw [hnil, List.head?_nil, List.head?_eq_none_iff] at hhead
    exact hword.ne_nil hhead
  . intro c hc
    by_cases hquote : c = '"'
    . rw [hquote]
      decide
    . exact hword.inner c (mem_render_unquoted hc hquote)
  . rw [← head?_render_unquoted]
    exact hword.head

/--
What is read from a text in one piece: an atomic selector but for the double quotes in its values,
whose own text starts and ends as the text does.
-/
structure ReadFrom (t : Text) (s : Selector) : Prop where
  atomic : s.unquoted.isAtomic
  head : s.render.head? = t.head?
  last : s.render.getLast? = t.getLast?

theorem isTest_unquoted {operator : Operator} {value : Option Text}
    (hpresent : operator = .present ↔ value = none)
    (hvalue : ∀ v ∈ value, ∀ c ∈ v, isSeparator c = false ∧ c ≠ '.' ∧ c ≠ '#' ∧ c ≠ ':') :
    isTest operator (value.map fun v => v.filter fun c => c != '"') := by
  cases value with
  | none =>
    rw [hpresent.2 rfl]
    rfl
  | some v =>
    have hall : (v.filter fun c => c != '"').all isValueChar := by
      rw [List.all_eq_true]
      intro c hc
      rw [List.mem_filter] at hc
      have hv := hvalue v rfl c hc.1
      simpa [isValueChar, hv] using hc.2
    cases operator with
    | present =>
      have hnone := hpresent.1 rfl
      cases hnone
    | _ => exact hall

theorem readFrom_of_spelling {quotes? : Option Quotes} {t : Text} {s : Selector}
    (h : SimpleSpelling quotes? s t) (ht : ∀ c ∈ t, isSeparator c = false) (hcolon : ':' ∉ t)
    (hsign : ∀ v ∈ s.valueOf, '.' ∉ v ∧ '#' ∉ v) : s.unquoted.isSimple ∧ ReadFrom t s := by
  have hatomic {s : Selector} (hs : s.isSimple) : s.isAtomic := by
    cases s <;> first | exact hs | cases hs
  cases h with
  | element h => exact ⟨h, hatomic h, rfl, rfl⟩
  | @byClass name q hname hq =>
    have hsimple : (byClass name q).isSimple := by
      simp [isSimple, hname, hq]
    exact ⟨hsimple, hatomic hsimple, rfl, rfl⟩
  | @byId name q hname hq =>
    have hsimple : (byId name q).isSimple := by
      simp [isSimple, hname, hq]
    exact ⟨hsimple, hatomic hsimple, rfl, rfl⟩
  | @byAttribute quotes? name test operator value q hname hq htest =>
    have hvalue : isTest operator (value.map fun v => v.filter fun c => c != '"') := by
      apply isTest_unquoted htest.present_iff
      intro v hv c hc
      have hmem : c ∈ q.getD [] ++ '[' :: (name ++ (test ++ [']'])) := by
        simp [htest.mem_of_mem v hv c hc]
      refine ⟨ht c hmem, ?_, ?_, ?_⟩
      . exact ne_of_mem_of_not_mem hc (hsign v hv).1
      . exact ne_of_mem_of_not_mem hc (hsign v hv).2
      . exact ne_of_mem_of_not_mem hmem hcolon
    have hsimple : (byAttribute name operator value q).unquoted.isSimple := by
      simp [unquoted, isSimple, hname, hvalue, hq]
    refine ⟨hsimple, hatomic hsimple, ?_, ?_⟩
    . simp [render_byAttribute, List.head?_append]
    . simp [render_byAttribute, List.getLast?_cons]

theorem readFrom_ofAtom? {t : Text} (ht : ∀ c ∈ t, isSeparator c = false) {s : Selector}
    (h : ofAtom? t = some s) : ReadFrom t s := by
  rcases ofAtom?_eq_some_iff.1 h with ⟨⟨quotes?, hspelling⟩, hsign⟩
  cases hspelling with
  | simple hsimple hcolon => exact (readFrom_of_spelling hsimple ht hcolon hsign).2
  | @pseudo inner u name hsimple hcolon hname =>
    have hu : ∀ c ∈ u, isSeparator c = false :=
      fun c hc => ht c (List.mem_append_left _ hc)
    rcases readFrom_of_spelling hsimple hu hcolon hsign with ⟨hinner, hread⟩
    have hall : name.all (!isSeparator ·) := by
      rw [List.all_eq_true]
      intro c hc
      have hsep := ht c (by simp [hc])
      rw [hsep]
      rfl
    refine ⟨?_, ?_, ?_⟩
    . simp [unquoted, isAtomic, hinner, hname, hall]
    . rw [render, List.head?_append, List.head?_append, hread.head]
    . simp [render, List.getLast?_cons]

theorem value?_of_mem {v : Text} (h : '"' ∈ v) : value? ('"' :: (v ++ ['"', ']'])) = none := by
  rcases List.eq_append_cons_of_mem h with ⟨before, after, rfl, hbefore⟩
  rw [List.append_assoc, List.cons_append, value?, Text.cut_append_cons hbefore]
  cases after with
  | nil => rfl
  | cons c after => cases after <;> simp

theorem ofSimple?_render_of_holdsQuote {s : Selector} (hs : s.unquoted.isSimple)
    (h : s.holdsQuote) : ofSimple? s.render = none := by
  cases s with
  | byAttribute name operator value q =>
    cases value with
    | none => cases h
    | some v =>
      have hquote : '"' ∈ v := by
        simpa [holdsQuote] using h
      simp only [unquoted, isSimple, Option.map_some, Bool.and_eq_true] at hs
      have htest : test? (renderValue operator (some v) ++ [']']) = none := by
        by_cases hop : operator = .present
        . subst hop
          rfl
        . rw [renderValue_some_append, test?_symbol_append hop, value?_of_mem hquote,
            Option.map_none]
      have hread := takeIdent?_append_renderValue hs.1.1 operator (some v)
      rw [render_byAttribute, ofSimple?_bracket hs.2 hs.1.1 hread, htest, Option.map_none, ite_self]
  | pseudo inner name => cases hs
  | joined left combinator right => cases hs
  | _ => cases h

theorem unquoted_isAtomic_cases {s : Selector} (h : s.unquoted.isAtomic) :
    s.unquoted.isSimple ∨ ∃ inner name, s = pseudo inner name ∧ inner.unquoted.isSimple := by
  cases s with
  | pseudo inner name =>
    simp only [unquoted, isAtomic, Bool.and_eq_true] at h
    exact .inr ⟨inner, name, rfl, h.1.1⟩
  | joined left combinator right => cases h
  | _ => exact .inl h

theorem colon_not_mem_render {s : Selector} (h : s.unquoted.isSimple) : ':' ∉ s.render := by
  intro hmem
  exact outside_colon.not_mem_render (by decide) (by decide) h
    (mem_render_unquoted hmem (by decide))

theorem ofAtom?_render_unquoted {s : Selector} (hs : s.unquoted.isAtomic) :
    ofAtom? s.render = if s.holdsQuote then none else some s := by
  cases h : s.holdsQuote with
  | false =>
    have hself := unquoted_eq_self h
    rw [hself] at hs
    exact ofAtom?_render hs
  | true =>
    rcases unquoted_isAtomic_cases hs with hsimple | ⟨inner, name, rfl, hinner⟩
    . rw [ofAtom?_of_not_mem (colon_not_mem_render hsimple)]
      exact ofSimple?_render_of_holdsQuote hsimple h
    . rw [render, ofAtom?_append_colon (colon_not_mem_render hinner)]
      simp [ofSimple?_render_of_holdsQuote hinner h]

end Selector
end Stylesheet
