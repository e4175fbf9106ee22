import Stylesheet.Proofs.Selector.Attribute
import Stylesheet.Proofs.Selector.Quote

/-!
This module contains the selectors without combinators by their texts. What is read is what the text
spells, and it is read back from its own text exactly if that text spells it too.
-/

namespace Stylesheet
namespace Selector

/--
Whether a value is written as `render` writes it.
-/
def Quotes.isRendered (quotes? : Option Quotes) : Bool :=
  quotes? != some single && quotes? != some bare

namespace TestSpelling

variable {quotes? : Option Quotes} {operator : Operator} {value : Option Text} {test : Text}

theorem renderValue_eq_iff (h : TestSpelling quotes? operator value test) :
    renderValue operator value = test ↔ Quotes.isRendered quotes? := by
  cases h with
  | present => simp [renderValue, Quotes.isRendered]
  | @valued operator quotes v hop hv =>
    rw [renderValue, List.append_assoc, List.append_cancel_left_eq, List.cons_append]
    cases quotes with
    | double => simp [Quotes.enclose, Quotes.isRendered]
    | single => simp [Quotes.enclose, Quotes.isRendered]
    | bare =>
      have hlength : '"' :: (v ++ ['"']) ≠ v := by
        intro heq
        have hlength := congrArg List.length heq
        simp only [List.length_cons, List.length_append, List.length_nil] at hlength
        omega
      simpa [Quotes.enclose, Quotes.isRendered] using hlength

theorem quote_not_mem (h : TestSpelling quotes? operator value test)
    (hrendered : Quotes.isRendered quotes?) : ∀ v ∈ value, '"' ∉ v := by
  cases h with
  | present => simp
  | @valued operator quotes v hop hv =>
    cases quotes with
    | double =>
      rintro _ ⟨⟩
      exact hv
    | _ => cases hrendered

theorem exists_renderValue (h : TestSpelling quotes? operator value test)
    (hquote : ∀ v ∈ value, '"' ∉ v) :
    ∃ quotes?, TestSpelling quotes? operator value (renderValue operator value) := by
  cases h with
  | present => exact ⟨none, .present⟩
  | @valued operator quotes v hop hv =>
    have hdouble : Quotes.double.Admits v := hquote v rfl
    refine ⟨some .double, ?_⟩
    rw [renderValue, List.append_assoc]
    exact .valued hop hdouble

end TestSpelling

namespace SimpleSpelling

variable {quotes? : Option Quotes} {s : Selector} {t : Text}

theorem render_eq_iff (h : SimpleSpelling quotes? s t) :
    s.render = t ↔ Quotes.isRendered quotes? := by
  cases h with
  | byAttribute hname hq htest =>
    rw [render_byAttribute, ← htest.renderValue_eq_iff]
    simp
  | _ => exact ⟨fun _ => rfl, fun _ => rfl⟩

theorem holdsQuote_eq_false (h : SimpleSpelling quotes? s t)
    (hrendered : Quotes.isRendered quotes?) : s.holdsQuote = false := by
  cases h with
  | byAttribute hname hq htest =>
    have hquote := htest.quote_not_mem hrendered
    rw [holdsQuote, Option.any_eq_false]
    simpa using hquote
  | _ => rfl

/--
A value without a double quote can be written as `render` writes it.
-/
theorem exists_render (h : SimpleSpelling quotes? s t) (hquote : s.holdsQuote = false) :
    ∃ quotes?, SimpleSpelling quotes? s s.render := by
  cases h with
  | element h => exact ⟨none, .element h⟩
  | byClass hname hq => exact ⟨none, .byClass hname hq⟩
  | byId hname hq => exact ⟨none, .byId hname hq⟩
  | byAttribute hname hq htest =>
    rw [holdsQuote, Option.any_eq_false] at hquote
    rcases htest.exists_renderValue (by simpa using hquote) with ⟨quotes?, htest'⟩
    exact ⟨quotes?, render_byAttribute _ _ _ _ ▸ .byAttribute hname hq htest'⟩

theorem colon_not_mem_render (h : SimpleSpelling quotes? s t) (hcolon : ':' ∉ t) :
    ':' ∉ s.render := by
  cases h with
  | @byAttribute quotes? name test operator value q hname hq htest =>
    rw [mem_render_byAttribute_iff (by decide) (by decide) hname hq,
      ← htest.mem_iff (by decide)]
    intro hmem
    exact hcolon (by simp [hmem])
  | _ => exact hcolon

end SimpleSpelling

namespace AtomSpelling

variable {quotes? : Option Quotes} {s : Selector} {t : Text}

theorem render_eq_iff (h : AtomSpelling quotes? s t) :
    s.render = t ↔ Quotes.isRendered quotes? := by
  cases h with
  | simple h hcolon => exact h.render_eq_iff
  | pseudo h hcolon hname => rw [render, List.append_left_inj, h.render_eq_iff]

theorem holdsQuote_eq_false_iff (h : AtomSpelling quotes? s t) :
    s.holdsQuote = false ↔ ∃ quotes?, AtomSpelling quotes? s s.render := by
  constructor
  . intro hquote
    cases h with
    | simple h hcolon =>
      rcases h.exists_render hquote with ⟨quotes?, hrender⟩
      exact ⟨quotes?, .simple hrender (h.colon_not_mem_render hcolon)⟩
    | pseudo h hcolon hname =>
      rcases h.exists_render hquote with ⟨quotes?, hrender⟩
      exact ⟨quotes?, .pseudo hrender (h.colon_not_mem_render hcolon) hname⟩
  . rintro ⟨quotes?, hrender⟩
    have hrendered := hrender.render_eq_iff.1 rfl
    generalize s.render = u at hrender
    cases hrender with
    | simple hsimple hcolon => exact hsimple.holdsQuote_eq_false hrendered
    | pseudo hsimple hcolon hname => exact hsimple.holdsQuote_eq_false hrendered

end AtomSpelling

/--
What is read is what the text spells, and every text that spells a selector without combinators is
read, unless its value holds the sign of a class or an id. The text of what is read is the same but
for the quotes around a value, and is read back exactly if no value holds a double quote.
-/
theorem ofAtom?_spelling (t : Text) (s : Selector) :
    (ofAtom? t = some s ↔
        (∃ quotes?, AtomSpelling quotes? s t) ∧ ∀ v ∈ s.valueOf, '.' ∉ v ∧ '#' ∉ v) ∧
      (ofAtom? t = some s →
        (∀ quotes?, AtomSpelling quotes? s t → (s.render = t ↔ Quotes.isRendered quotes?)) ∧
          (ofAtom? s.render = some s ↔ s.holdsQuote = false)) := by
  refine ⟨ofAtom?_eq_some_iff, ?_⟩
  intro h
  refine ⟨fun quotes? hspelling => hspelling.render_eq_iff, ?_⟩
  rcases ofAtom?_eq_some_iff.1 h with ⟨⟨quotes?, hspelling⟩, hsign⟩
  rw [ofAtom?_eq_some_iff, hspelling.holdsQuote_eq_false_iff]
  exact and_iff_left hsign

/--
A double quote between single ones is read, and comes out between double quotes.
-/
theorem ofAtom?_spelling_single :
    ofAtom? "*[a~='\"c']:x y".toList =
        some (pseudo (byAttribute ['a'] .includes (some ['"', 'c']) (some ['*'])) "x y".toList) ∧
      (∃ quotes?, AtomSpelling quotes?
        (pseudo (byAttribute ['a'] .includes (some ['"', 'c']) (some ['*'])) "x y".toList)
        "*[a~='\"c']:x y".toList) ∧
      ofAtom? "*[a~=\"\"c\"]:x y".toList ≠
        some (pseudo (byAttribute ['a'] .includes (some ['"', 'c']) (some ['*'])) "x y".toList) := by
  have hread : ofAtom? "*[a~='\"c']:x y".toList =
      some (pseudo (byAttribute ['a'] .includes (some ['"', 'c']) (some ['*'])) "x y".toList) := by
    decide
  have h := ofAtom?_spelling "*[a~='\"c']:x y".toList
    (pseudo (byAttribute ['a'] .includes (some ['"', 'c']) (some ['*'])) "x y".toList)
  refine ⟨hread, (h.1.1 hread).1, ?_⟩
  intro hback
  have hquote := (h.2 hread).2.1 hback
  cases hquote

end Selector
end Stylesheet
