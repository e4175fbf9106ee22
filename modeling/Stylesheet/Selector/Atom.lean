import Stylesheet.Selector.Basic
import Stylesheet.Text.Ident

/-!
This module contains the reader of a selector without combinators: a simple selector, and after
its first colon the name of one pseudo-class or pseudo-element.

What kind of simple selector a text is depends on the first of `.`, `#` and `[` in this order that
occurs anywhere in it; no blanks are allowed.
-/

namespace Stylesheet.Selector

/--
Whether a text names an element or, as `*`, all of them.
-/
def isTag (t : Text) : Bool :=
  isIdent t || t == ['*']

/--
The qualifier before a simple selector; an empty text is none.
-/
def qualifier? (t : Text) : Option (Option Text) :=
  if t = [] then
    some none
  else if isTag t then
    some (some t)
  else
    none

/--
The value of an attribute selector, with the bracket after it: between double quotes, between
single quotes, or an identifier.
-/
def value? : Text → Option Text
  | '"' :: t =>
    match Text.cut '"' t with
    | (value, some [']']) => some value
    | _ => none
  | '\'' :: t =>
    match Text.cut '\'' t with
    | (value, some [']']) => some value
    | _ => none
  | t =>
    match takeIdent? t with
    | some (value, [']']) => some value
    | _ => none

/--
The sign of a comparison that a text starts with, and what follows it.
-/
def takeSymbol? : Text → Option (Text × Text)
  | '=' :: t => some (['='], t)
  | '~' :: '=' :: t => some (['~', '='], t)
  | '|' :: '=' :: t => some (['|', '='], t)
  | _ => none

/--
The operator and the value of an attribute selector, with the bracket after them.
-/
def test? (t : Text) : Option (Operator × Option Text) :=
  if t = [']'] then
    some (.present, none)
  else do
    let (symbol, rest) ← takeSymbol? t
    let operator ← Operator.ofSymbol? symbol
    let value ← value? rest
    some (operator, some value)

def named? (make : Text → Option Text → Selector) (qualifier name : Text) : Option Selector := do
  let qualifier ← qualifier? qualifier
  if isIdent name then some (make name qualifier) else none

/--
An attribute selector from its qualifier and what follows the opening bracket.
-/
def bracketed? (qualifier t : Text) : Option Selector := do
  let qualifier ← qualifier? qualifier
  let (name, t) ← takeIdent? t
  let (operator, value) ← test? t
  some (.byAttribute name operator value qualifier)

def ofSimple? (t : Text) : Option Selector :=
  match Text.cut '.' t with
  | (qualifier, some name) => named? .byClass qualifier name
  | (_, none) =>
    match Text.cut '#' t with
    | (qualifier, some name) => named? .byId qualifier name
    | (_, none) =>
      match Text.cut '[' t with
      | (qualifier, some rest) => bracketed? qualifier rest
      | (_, none) => if isTag t then some (.element t) else none

/--
A selector without combinators. All after the first colon is the name of the pseudo-class or
pseudo-element, which must not be empty.
-/
def ofAtom? (t : Text) : Option Selector :=
  match Text.cut ':' t with
  | (simple, none) => ofSimple? simple
  | (simple, some name) =>
    if name = [] then none else (ofSimple? simple).map fun inner => .pseudo inner name

@[simp]
theorem qualifier?_nil : qualifier? [] = some none := rfl

theorem takeSymbol?_append {operator : Operator} (h : operator ≠ .present) (t : Text) :
    takeSymbol? (operator.symbol ++ t) = some (operator.symbol, t) := by
  cases operator with
  | present => contradiction
  | _ => rfl

theorem eq_of_takeSymbol? {t symbol rest : Text} (h : takeSymbol? t = some (symbol, rest)) :
    t = symbol ++ rest := by
  unfold takeSymbol? at h
  split at h <;> cases h <;> rfl

theorem test?_symbol_append {operator : Operator} (h : operator ≠ .present) (t : Text) :
    test? (operator.symbol ++ t) = (value? t).map fun value => (operator, some value) := by
  have hbracket : operator.symbol ++ t ≠ [']'] := by
    cases operator with
    | present => contradiction
    | _ => simp [Operator.symbol]
  have hsymbol := Operator.ofSymbol?_eq_some_iff.2 ⟨h, rfl⟩
  simp only [test?, hbracket, ↓reduceIte, takeSymbol?_append h, hsymbol, Option.bind_eq_bind,
    Option.bind_some]
  cases value? t <;> rfl

theorem exists_symbol_of_test? {t : Text} {operator : Operator} {value : Option Text}
    (h : test? t = some (operator, value)) :
    t = [']'] ∧ operator = .present ∧ value = none ∨
      operator ≠ .present ∧ ∃ rest v,
        t = operator.symbol ++ rest ∧ value? rest = some v ∧ value = some v := by
  unfold test? at h
  split at h
  . next ht =>
    cases h
    exact .inl ⟨ht, rfl, rfl⟩
  . right
    rcases Option.bind_eq_some_iff.1 h with ⟨⟨symbol, rest⟩, htake, hrest⟩
    rcases Option.bind_eq_some_iff.1 hrest with ⟨o, hsymbol, hvalues⟩
    rcases Option.bind_eq_some_iff.1 hvalues with ⟨v, hvalue, heq⟩
    rcases Operator.ofSymbol?_eq_some_iff.1 hsymbol with ⟨hne, rfl⟩
    cases heq
    exact ⟨hne, rest, v, eq_of_takeSymbol? htake, hvalue, rfl⟩

theorem ne_nil_of_isTag {t : Text} (h : isTag t) : t ≠ [] := by
  rintro rfl
  simp [isTag, isIdent] at h

theorem qualifier?_eq_some_iff {t : Text} {qualifier : Option Text} :
    qualifier? t = some qualifier ↔
      qualifier.getD [] = t ∧ ∀ q ∈ qualifier, isTag q := by
  constructor
  . intro h
    by_cases ht : t = []
    . subst ht
      obtain rfl : none = qualifier := by simpa using h
      simp
    . by_cases htag : isTag t
      . obtain rfl : some t = qualifier := by simpa [qualifier?, ht, htag] using h
        simpa using htag
      . simp [qualifier?, ht, htag] at h
  . rintro ⟨rfl, h⟩
    cases qualifier with
    | none => rfl
    | some q =>
      have hq := h q rfl
      simp [qualifier?, ne_nil_of_isTag hq, hq]

end Stylesheet.Selector
