import Stylesheet.Proofs.Selector.Chain
import Stylesheet.Proofs.Selector.Form

/-!
This module contains the grammar of selectors without combinators, in which a value may be written
in three ways. The reader accepts the texts of the grammar and no others, but for those whose value
holds the sign of a class or an id.
-/

namespace Stylesheet
namespace Selector

/--
What stands around the value of an attribute selector.
-/
inductive Quotes where
  | double
  | single
  | bare
deriving DecidableEq, Repr

namespace Quotes

def enclose (v : Text) : Quotes → Text
  | double => '"' :: (v ++ ['"'])
  | single => '\'' :: (v ++ ['\''])
  | bare => v

/--
Whether a value may stand there: it must not hold the quote that ends it, and has to be an
identifier if there is none.
-/
def Admits (v : Text) : Quotes → Prop
  | double => '"' ∉ v
  | single => '\'' ∉ v
  | bare => isIdent v

end Quotes

/--
The operator of an attribute selector and its value, with the quotes around it, if there is one.
-/
inductive TestSpelling : Option Quotes → Operator → Option Text → Text → Prop
  | present : TestSpelling none .present none []
  | valued {operator : Operator} {quotes : Quotes} {v : Text} (hop : operator ≠ .present)
      (hv : quotes.Admits v) :
      TestSpelling (some quotes) operator (some v) (operator.symbol ++ quotes.enclose v)

/--
The text of a simple selector.
-/
inductive SimpleSpelling : Option Quotes → Selector → Text → Prop
  | element {name : Text} (h : isTag name) : SimpleSpelling none (element name) name
  | byClass {name : Text} {q : Option Text} (hname : isIdent name) (hq : isQualifier q) :
      SimpleSpelling none (byClass name q) (q.getD [] ++ '.' :: name)
  | byId {name : Text} {q : Option Text} (hname : isIdent name) (hq : isQualifier q) :
      SimpleSpelling none (byId name q) (q.getD [] ++ '#' :: name)
  | byAttribute {quotes? : Option Quotes} {name test : Text} {operator : Operator}
      {value q : Option Text} (hname : isIdent name) (hq : isQualifier q)
      (htest : TestSpelling quotes? operator value test) :
      SimpleSpelling quotes? (byAttribute name operator value q)
        (q.getD [] ++ '[' :: (name ++ (test ++ [']'])))

/--
The text of a selector without combinators. What is before the first colon is the simple selector,
and all after it the name of a pseudo-class or pseudo-element.
-/
inductive AtomSpelling : Option Quotes → Selector → Text → Prop
  | simple {quotes? : Option Quotes} {s : Selector} {t : Text} (h : SimpleSpelling quotes? s t)
      (hcolon : ':' ∉ t) : AtomSpelling quotes? s t
  | pseudo {quotes? : Option Quotes} {s : Selector} {t name : Text}
      (h : SimpleSpelling quotes? s t) (hcolon : ':' ∉ t) (hname : name ≠ []) :
      AtomSpelling quotes? (pseudo s name) (t ++ ':' :: name)

/--
The value of the attribute that a selector without combinators asks for.
-/
def valueOf : Selector → Option Text
  | byAttribute _ _ value _ => value
  | pseudo inner _ => inner.valueOf
  | _ => none

theorem eq_of_qualifier? {t : Text} {q : Option Text} (h : qualifier? t = some q) :
    q.getD [] = t ∧ isQualifier q := by
  rw [qualifier?_eq_some_iff] at h
  refine ⟨h.1, ?_⟩
  cases q with
  | none => rfl
  | some u => exact h.2 u rfl

theorem value?_eq_some_iff {t v : Text} :
    value? t = some v ↔ ∃ quotes : Quotes, quotes.Admits v ∧ t = quotes.enclose v ++ [']'] := by
  constructor
  . intro h
    have hcut {quote : Char} {u : Text} (hu : Text.cut quote u = (v, some [']'])) :
        quote ∉ v ∧ u = v ++ [quote, ']'] := by
      have hmem := Text.not_mem_cut_fst quote u
      rw [hu] at hmem
      exact ⟨hmem, Text.eq_of_cut_eq_some hu⟩
    unfold value? at h
    split at h
    . split at h
      . next hu =>
        cases h
        exact ⟨.double, (hcut hu).1, by simp [Quotes.enclose, (hcut hu).2]⟩
      . cases h
    . split at h
      . next hu =>
        cases h
        exact ⟨.single, (hcut hu).1, by simp [Quotes.enclose, (hcut hu).2]⟩
      . cases h
    . split at h
      . next hu =>
        cases h
        exact ⟨.bare, isIdent_of_takeIdent? hu⟩
      . cases h
  . rintro ⟨quotes, hv, rfl⟩
    cases quotes with
    | double =>
      rw [Quotes.enclose, List.cons_append, List.append_assoc]
      exact value?_append hv
    | single =>
      have hcut : Text.cut '\'' (v ++ ['\'', ']']) = (v, some [']']) := Text.cut_append_cons hv
      simp [Quotes.enclose, value?, hcut]
    | bare =>
      have hread := takeIdent?_append (c := ']') hv (by decide) []
      have hquote : '"' ∉ v ∧ '\'' ∉ v :=
        ⟨not_mem_of_isIdent (by decide) hv, not_mem_of_isIdent (by decide) hv⟩
      rw [Quotes.enclose, value?]
      . simp [hread]
      . intro u hu
        cases v with
        | nil => simp at hu
        | cons c v => simp_all
      . intro u hu
        cases v with
        | nil => simp at hu
        | cons c v => simp_all

namespace TestSpelling

variable {quotes? : Option Quotes} {operator : Operator} {value : Option Text} {test : Text}

theorem present_iff (h : TestSpelling quotes? operator value test) :
    operator = .present ↔ value = none := by
  cases h with
  | present => simp
  | valued hop hv => simp [hop]

theorem mem_of_mem (h : TestSpelling quotes? operator value test) :
    ∀ v ∈ value, ∀ c ∈ v, c ∈ test := by
  cases h with
  | present => simp
  | @valued operator quotes v hop hv =>
    rintro _ ⟨⟩ c hc
    cases quotes <;> simp [Quotes.enclose, hc]

theorem mem_iff (h : TestSpelling quotes? operator value test) {c : Char}
    (hsign : c ∉ ['"', '\'', '=', '~', '|']) : c ∈ test ↔ ∃ v ∈ value, c ∈ v := by
  simp only [List.mem_cons, not_or] at hsign
  cases h with
  | present => simp
  | @valued operator quotes v hop hv =>
    cases operator <;> cases quotes <;> simp [Operator.symbol, Quotes.enclose, hsign]

theorem takeIdent?_append (h : TestSpelling quotes? operator value test) {name : Text}
    (hname : isIdent name) :
    takeIdent? (name ++ (test ++ [']'])) = some (name, test ++ [']']) := by
  cases h with
  | present => exact Stylesheet.takeIdent?_append hname (by decide) []
  | @valued operator quotes v hop hv =>
    cases operator with
    | present => contradiction
    | _ => exact Stylesheet.takeIdent?_append hname (by decide) _

theorem test?_eq (h : TestSpelling quotes? operator value test) :
    test? (test ++ [']']) = some (operator, value) := by
  cases h with
  | present => rfl
  | @valued operator quotes v hop hv =>
    have hvalue := value?_eq_some_iff.2 ⟨quotes, hv, rfl⟩
    rw [List.append_assoc, test?_symbol_append hop, hvalue]
    rfl

theorem exists_of_test? {t : Text} (h : test? t = some (operator, value)) :
    ∃ quotes? test, TestSpelling quotes? operator value test ∧ t = test ++ [']'] := by
  rcases exists_symbol_of_test? h with ⟨rfl, rfl, rfl⟩ | ⟨hop, rest, v, rfl, hv, rfl⟩
  . exact ⟨none, [], .present, rfl⟩
  . rcases value?_eq_some_iff.1 hv with ⟨quotes, hadmits, rfl⟩
    exact ⟨some quotes, _, .valued hop hadmits, by simp⟩

end TestSpelling

namespace SimpleSpelling

variable {quotes? : Option Quotes} {s : Selector} {t : Text}

theorem exists_of_ofSimple? (h : ofSimple? t = some s) :
    (∃ quotes?, SimpleSpelling quotes? s t) ∧ ∀ v ∈ s.valueOf, '.' ∉ v ∧ '#' ∉ v := by
  have habsent {sep : Char} {u : Text} (hcut : Text.cut sep t = (u, none)) : sep ∉ t := by
    have hmem := Text.not_mem_cut_fst sep t
    rwa [hcut, ← Text.eq_of_cut_eq_none hcut] at hmem
  unfold ofSimple? at h
  split at h
  . next qualifier name hcut =>
    rcases eq_of_named? h with ⟨q, rfl, hq, hname⟩
    rcases eq_of_qualifier? hq with ⟨rfl, hqualifier⟩
    rw [Text.eq_of_cut_eq_some hcut]
    exact ⟨⟨none, .byClass hname hqualifier⟩, by simp [valueOf]⟩
  next hdot =>
  split at h
  . next qualifier name hcut =>
    rcases eq_of_named? h with ⟨q, rfl, hq, hname⟩
    rcases eq_of_qualifier? hq with ⟨rfl, hqualifier⟩
    rw [Text.eq_of_cut_eq_some hcut]
    exact ⟨⟨none, .byId hname hqualifier⟩, by simp [valueOf]⟩
  next hhash =>
  split at h
  . next qualifier rest hcut =>
    rcases eq_of_bracketed? h with ⟨name, operator, value, q, rest', rfl, hq, hname, htest⟩
    rcases eq_of_qualifier? hq with ⟨rfl, hqualifier⟩
    rcases isIdent_of_takeIdent? hname with ⟨hident, rfl⟩
    rcases TestSpelling.exists_of_test? htest with ⟨quotes?, test, hspelling, rfl⟩
    have htext := Text.eq_of_cut_eq_some hcut
    refine ⟨⟨quotes?, htext ▸ .byAttribute hident hqualifier hspelling⟩, ?_⟩
    -- A sign in the value would have been found before the bracket.
    intro v hv
    have hmem {c : Char} (hsign : c ∉ ['"', '\'', '=', '~', '|']) (hc : c ∈ v) : c ∈ t := by
      rw [htext]
      simp [(hspelling.mem_iff hsign).2 ⟨v, hv, hc⟩]
    exact ⟨fun hc => habsent hdot (hmem (by decide) hc),
      fun hc => habsent hhash (hmem (by decide) hc)⟩
  next hbracket =>
  split at h
  . next htag =>
    cases h
    exact ⟨⟨none, .element htag⟩, by simp [valueOf]⟩
  . cases h

theorem ofSimple?_eq (h : SimpleSpelling quotes? s t)
    (hsign : ∀ v ∈ s.valueOf, '.' ∉ v ∧ '#' ∉ v) : ofSimple? t = some s := by
  cases h with
  | element h => exact ofSimple?_render (s := .element t) h
  | @byClass name q hname hq =>
    have h : (Selector.byClass name q).isSimple := by
      simp [isSimple, hname, hq]
    exact ofSimple?_render h
  | @byId name q hname hq =>
    have h : (Selector.byId name q).isSimple := by
      simp [isSimple, hname, hq]
    exact ofSimple?_render h
  | @byAttribute quotes? name test operator value q hname hq htest =>
    have hdot : '.' ∉ test ++ [']'] := by
      rw [List.mem_append, htest.mem_iff (by decide)]
      rintro (⟨v, hv, hc⟩ | hc)
      . exact (hsign v hv).1 hc
      . simp at hc
    have hhash : '#' ∉ test ++ [']'] := by
      rw [List.mem_append, htest.mem_iff (by decide)]
      rintro (⟨v, hv, hc⟩ | hc)
      . exact (hsign v hv).2 hc
      . simp at hc
    rw [ofSimple?_bracket hq hname (htest.takeIdent?_append hname), htest.test?_eq,
      if_neg (not_or.2 ⟨hdot, hhash⟩)]
    rfl

end SimpleSpelling

namespace AtomSpelling

variable {quotes? : Option Quotes} {s : Selector} {t : Text}

theorem exists_of_ofAtom? (h : ofAtom? t = some s) :
    (∃ quotes?, AtomSpelling quotes? s t) ∧ ∀ v ∈ s.valueOf, '.' ∉ v ∧ '#' ∉ v := by
  have hcolon := Text.not_mem_cut_fst ':' t
  unfold ofAtom? at h
  split at h
  . next simple hcut =>
    rw [hcut, ← Text.eq_of_cut_eq_none hcut] at hcolon
    rw [← Text.eq_of_cut_eq_none hcut] at h
    rcases SimpleSpelling.exists_of_ofSimple? h with ⟨⟨quotes?, hsimple⟩, hsign⟩
    exact ⟨⟨quotes?, .simple hsimple hcolon⟩, hsign⟩
  . next simple name hcut =>
    rw [hcut] at hcolon
    rw [Text.eq_of_cut_eq_some hcut]
    split at h
    . cases h
    next hname =>
    rcases Option.map_eq_some_iff.1 h with ⟨inner, hinner, rfl⟩
    rcases SimpleSpelling.exists_of_ofSimple? hinner with ⟨⟨quotes?, hsimple⟩, hsign⟩
    exact ⟨⟨quotes?, .pseudo hsimple hcolon hname⟩, hsign⟩

theorem ofAtom?_eq (h : AtomSpelling quotes? s t)
    (hsign : ∀ v ∈ s.valueOf, '.' ∉ v ∧ '#' ∉ v) : ofAtom? t = some s := by
  cases h with
  | simple h hcolon => rw [ofAtom?_of_not_mem hcolon, h.ofSimple?_eq hsign]
  | pseudo h hcolon hname =>
    rw [ofAtom?_append_colon hcolon, if_neg hname, h.ofSimple?_eq hsign]
    rfl

end AtomSpelling

theorem ofAtom?_eq_some_iff {t : Text} {s : Selector} :
    ofAtom? t = some s ↔
      (∃ quotes?, AtomSpelling quotes? s t) ∧ ∀ v ∈ s.valueOf, '.' ∉ v ∧ '#' ∉ v := by
  constructor
  . exact AtomSpelling.exists_of_ofAtom?
  . rintro ⟨⟨quotes?, h⟩, hsign⟩
    exact h.ofAtom?_eq hsign

end Selector
end Stylesheet
