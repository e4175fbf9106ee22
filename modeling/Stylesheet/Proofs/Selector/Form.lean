import Mathlib.Data.List.Basic
import Stylesheet.Selector.Atom
import Stylesheet.Selector.Printer

/-!
This module contains the forms of selectors that have a text of their own: simple selectors whose
names are identifiers, at most one pseudo-class or pseudo-element after them, and chains of these.
The text of a selector without combinators is read back as the selector.
-/

namespace Stylesheet
namespace Selector

/--
The characters that part selectors from each other.
-/
def isSeparator (c : Char) : Bool :=
  isBlank c || c == ',' || c == '+' || c == '>'

theorem isSeparator_eq_false_iff {c : Char} :
    isSeparator c = false ↔ isBlank c = false ∧ c ≠ ',' ∧ c ≠ '+' ∧ c ≠ '>' := by
  simp [isSeparator, and_assoc]

def isQualifier (q : Option Text) : Bool :=
  q.all isTag

def isValueChar (c : Char) : Bool :=
  !isSeparator c && c != '.' && c != '#' && c != ':' && c != '"'

/--
The operator and the value that may stand in an attribute selector.
-/
def isTest (operator : Operator) (value : Option Text) : Bool :=
  match operator, value with
  | .present, none => true
  | operator, some value => operator != .present && value.all isValueChar
  | _, none => false

def isSimple : Selector → Bool
  | element name => isTag name
  | byClass name q => isIdent name && isQualifier q
  | byId name q => isIdent name && isQualifier q
  | byAttribute name operator value q => isIdent name && isTest operator value && isQualifier q
  | _ => false

/--
Whether a selector is simple, or simple with one pseudo-class or pseudo-element.
-/
def isAtomic : Selector → Bool
  | pseudo inner name => inner.isSimple && name != [] && name.all (!isSeparator ·)
  | s => s.isSimple

/--
Whether a selector is a chain of atomic ones that associates to the left.
-/
def isChain : Selector → Bool
  | joined left _ right => left.isChain && right.isAtomic
  | s => s.isAtomic

/--
Whether a character stands neither in a tag or value nor in the signs of an attribute selector.
-/
structure Outside (c : Char) : Prop where
  ident : isIdentChar c = false
  value : isValueChar c = false
  sign : c ∉ ['*', '[', ']', '"', '=', '~', '|']

theorem outside_dot : Outside '.' := ⟨by decide, by decide, by decide⟩

theorem outside_hash : Outside '#' := ⟨by decide, by decide, by decide⟩

theorem outside_colon : Outside ':' := ⟨by decide, by decide, by decide⟩

theorem outside_of_isSeparator {c : Char} (h : isSeparator c) : Outside c := by
  constructor
  . rw [Bool.eq_false_iff]
    intro hident
    simp only [isSeparator, isBlank_eq_false_of_isIdentChar hident, Bool.false_or, Bool.or_eq_true,
      beq_iff_eq] at h
    rcases h with (rfl | rfl) | rfl
    all_goals simp [isIdentChar, isIdentStart] at hident
  . simp [isValueChar, h]
  . intro hmem
    have hsign : ['*', '[', ']', '"', '=', '~', '|'].all fun d => !isSeparator d := rfl
    have := List.all_eq_true.1 hsign c hmem
    rw [h] at this
    cases this

theorem not_mem_of_isIdent {c : Char} (hc : isIdentChar c = false) {t : Text} (h : isIdent t) :
    c ∉ t := by
  intro hmem
  have := isIdentChar_of_mem h hmem
  rw [hc] at this
  cases this

theorem not_mem_of_isTag {c : Char} (hc : isIdentChar c = false) (hstar : c ≠ '*') {t : Text}
    (h : isTag t) : c ∉ t := by
  simp only [isTag, Bool.or_eq_true, beq_iff_eq] at h
  rcases h with h | rfl
  . exact not_mem_of_isIdent hc h
  . simpa using hstar

theorem not_mem_of_isQualifier {c : Char} (hc : isIdentChar c = false) (hstar : c ≠ '*')
    {q : Option Text} (h : isQualifier q) : c ∉ q.getD [] := by
  cases q with
  | none => simp
  | some t => exact not_mem_of_isTag hc hstar h

theorem isValueChar_of_isTest {operator : Operator} {value : Text}
    (h : isTest operator (some value)) {c : Char} (hc : c ∈ value) : isValueChar c := by
  have hall : value.all isValueChar := by
    cases operator with
    | present => cases h
    | _ => exact h
  exact List.all_eq_true.1 hall c hc

theorem mem_renderValue_iff {c : Char} (hsign : c ∉ ['"', '=', '~', '|']) {operator : Operator}
    {value : Option Text} : c ∈ renderValue operator value ↔ ∃ v ∈ value, c ∈ v := by
  simp only [List.mem_cons, not_or] at hsign
  cases value with
  | none => simp [renderValue]
  | some value => cases operator <;> simp [renderValue, Operator.symbol, hsign]

/--
A sign that stands in no identifier is in the text of an attribute selector only where it is after
the name of the attribute.
-/
theorem not_mem_bracket {c : Char} (hident : isIdentChar c = false) (hsign : c ∉ ['*', '['])
    {q : Option Text} (hq : isQualifier q) {name : Text} (hname : isIdent name) {rest : Text}
    (hrest : c ∉ rest) : c ∉ q.getD [] ++ '[' :: (name ++ rest) := by
  simp only [List.mem_cons, not_or] at hsign
  simp [not_mem_of_isQualifier hident hsign.1 hq, not_mem_of_isIdent hident hname, hrest, hsign]

theorem render_byAttribute (name : Text) (operator : Operator) (value q : Option Text) :
    (byAttribute name operator value q).render =
      q.getD [] ++ '[' :: (name ++ (renderValue operator value ++ [']'])) := by
  simp [render]

theorem Outside.not_mem_byAttribute {c : Char} (hc : Outside c) {name : Text}
    {operator : Operator} {value q : Option Text}
    (h : (byAttribute name operator value q).isSimple) :
    c ∉ (byAttribute name operator value q).render := by
  simp only [isSimple, Bool.and_eq_true] at h
  have hsign := hc.sign
  simp only [List.mem_cons, not_or] at hsign
  have hvalue : c ∉ renderValue operator value := by
    rw [mem_renderValue_iff (by simp [hsign])]
    rintro ⟨v, rfl, hmem⟩
    have := isValueChar_of_isTest h.1.2 hmem
    rw [hc.value] at this
    cases this
  rw [render_byAttribute]
  apply not_mem_bracket hc.ident (by simp [hsign]) h.2 h.1.1
  simp [hvalue, hsign]

theorem Outside.not_mem_render {c : Char} (hc : Outside c) (hdot : c ≠ '.') (hhash : c ≠ '#')
    {s : Selector} (h : s.isSimple) : c ∉ s.render := by
  have hstar : c ≠ '*' := by
    have hsign := hc.sign
    simp only [List.mem_cons, not_or] at hsign
    exact hsign.1
  cases s with
  | element name => exact not_mem_of_isTag hc.ident hstar h
  | byClass name q =>
    simp only [isSimple, Bool.and_eq_true] at h
    simp [render, not_mem_of_isQualifier hc.ident hstar h.2, not_mem_of_isIdent hc.ident h.1, hdot]
  | byId name q =>
    simp only [isSimple, Bool.and_eq_true] at h
    simp [render, not_mem_of_isQualifier hc.ident hstar h.2, not_mem_of_isIdent hc.ident h.1,
      hhash]
  | byAttribute name operator value q => exact hc.not_mem_byAttribute h
  | pseudo inner name => cases h
  | joined left combinator right => cases h

theorem qualifier?_getD {q : Option Text} (h : isQualifier q) :
    qualifier? (q.getD []) = some q := by
  rw [qualifier?_eq_some_iff]
  refine ⟨rfl, ?_⟩
  intro t ht
  cases q with
  | none => cases ht
  | some t' =>
    have heq : t' = t := by
      simpa using ht
    subst heq
    exact h

theorem named?_getD {make : Text → Option Text → Selector} {q : Option Text} (hq : isQualifier q)
    {name : Text} (hname : isIdent name) : named? make (q.getD []) name = some (make name q) := by
  simp [named?, qualifier?_getD hq, hname]

theorem takeIdent?_append_renderValue {name : Text} (h : isIdent name) (operator : Operator)
    (value : Option Text) :
    takeIdent? (name ++ (renderValue operator value ++ [']'])) =
      some (name, renderValue operator value ++ [']']) := by
  cases value with
  | none => exact takeIdent?_append h (by decide) []
  | some value => cases operator <;> exact takeIdent?_append h (by decide) _

theorem value?_append {value : Text} (h : '"' ∉ value) :
    value? ('"' :: (value ++ ['"', ']'])) = some value := by
  simp [value?, Text.cut_append_cons h]

theorem renderValue_some_append (operator : Operator) (value : Text) :
    renderValue operator (some value) ++ [']'] =
      operator.symbol ++ '"' :: (value ++ ['"', ']']) := by
  simp [renderValue]

theorem test?_renderValue {operator : Operator} {value : Option Text}
    (hpresent : operator = .present ↔ value = none) (hquote : ∀ v ∈ value, '"' ∉ v) :
    test? (renderValue operator value ++ [']']) = some (operator, value) := by
  cases value with
  | none =>
    rw [hpresent.2 rfl]
    rfl
  | some value =>
    have hne : operator ≠ .present := by
      intro h
      cases hpresent.1 h
    rw [renderValue_some_append, test?_symbol_append hne, value?_append (hquote value rfl)]
    rfl

theorem present_iff_of_isTest {operator : Operator} {value : Option Text}
    (h : isTest operator value) : operator = .present ↔ value = none := by
  cases operator <;> cases value <;> simp_all [isTest]

theorem quote_not_mem_of_isTest {operator : Operator} {value : Option Text}
    (h : isTest operator value) : ∀ v ∈ value, '"' ∉ v := by
  rintro v rfl hmem
  have := isValueChar_of_isTest h hmem
  simp [isValueChar] at this

theorem qualifier?_of_bracket {t : Text} (h : '[' ∈ t) : qualifier? t = none := by
  cases hq : qualifier? t with
  | none => rfl
  | some q =>
    rw [qualifier?_eq_some_iff] at hq
    have hqualifier : isQualifier q := by
      cases q with
      | none => rfl
      | some u => exact hq.2 u rfl
    rw [← hq.1] at h
    exact absurd h (not_mem_of_isQualifier (by decide) (by decide) hqualifier)

/--
A text with a bracket is read as an attribute selector, unless a `.` or `#` makes the reader look
for something else: wherever that stands, it is taken for the sign of a class or an id.
-/
theorem ofSimple?_bracket {q : Option Text} (hq : isQualifier q) {name : Text}
    (hname : isIdent name) {rest : Text}
    (hrest : takeIdent? (name ++ rest) = some (name, rest)) :
    ofSimple? (q.getD [] ++ '[' :: (name ++ rest)) =
      if '.' ∈ rest ∨ '#' ∈ rest then
        none
      else
        (test? rest).map fun test => byAttribute name test.1 test.2 q := by
  have hsplit {c : Char} (hident : isIdentChar c = false) (hsign : c ∉ ['*', '['])
      (hmem : c ∈ rest) : ∃ a b, Text.cut c (q.getD [] ++ '[' :: (name ++ rest)) =
        (q.getD [] ++ '[' :: (name ++ a), some b) := by
    rcases List.eq_append_cons_of_mem hmem with ⟨a, b, rfl, ha⟩
    have htext : q.getD [] ++ '[' :: (name ++ (a ++ c :: b)) =
        q.getD [] ++ '[' :: (name ++ a) ++ c :: b := by
      simp
    exact ⟨a, b, htext ▸ Text.cut_append_cons (not_mem_bracket hident hsign hq hname ha)⟩
  have hnamed (make : Text → Option Text → Selector) (a b : Text) :
      named? make (q.getD [] ++ '[' :: (name ++ a)) b = none := by
    rw [named?, qualifier?_of_bracket (by simp)]
    rfl
  by_cases hdot : '.' ∈ rest
  . rcases hsplit outside_dot.ident (by decide) hdot with ⟨a, b, hcut⟩
    rw [if_pos (.inl hdot), ofSimple?, hcut]
    exact hnamed .byClass a b
  have hnodot := Text.cut_of_not_mem (not_mem_bracket outside_dot.ident (by decide) hq hname hdot)
  by_cases hhash : '#' ∈ rest
  . rcases hsplit outside_hash.ident (by decide) hhash with ⟨a, b, hcut⟩
    rw [if_pos (.inr hhash), ofSimple?, hnodot, hcut]
    exact hnamed .byId a b
  have hnohash :=
    Text.cut_of_not_mem (not_mem_bracket outside_hash.ident (by decide) hq hname hhash)
  have hbracket := not_mem_of_isQualifier (c := '[') (by decide) (by decide) hq
  rw [if_neg (not_or.2 ⟨hdot, hhash⟩), ofSimple?, hnodot, hnohash, Text.cut_append_cons hbracket]
  simp only [bracketed?, qualifier?_getD hq, hrest, bind, Option.bind_some, Option.map_eq_bind]
  rfl

theorem ofSimple?_render {s : Selector} (h : s.isSimple) : ofSimple? s.render = some s := by
  cases s with
  | element name =>
    unfold ofSimple?
    have htag : isTag name := h
    have hcut (c : Char) (hc : isIdentChar c = false) (hstar : c ≠ '*') :
        Text.cut c name = (name, none) :=
      Text.cut_of_not_mem (not_mem_of_isTag hc hstar htag)
    rw [render, hcut '.' (by decide) (by decide), hcut '#' (by decide) (by decide),
      hcut '[' (by decide) (by decide)]
    simp [htag]
  | byClass name q =>
    simp only [isSimple, Bool.and_eq_true] at h
    unfold ofSimple?
    rw [render, Text.cut_append_cons (not_mem_of_isQualifier (by decide) (by decide) h.2)]
    exact named?_getD h.2 h.1
  | byId name q =>
    simp only [isSimple, Bool.and_eq_true] at h
    have hdot : '.' ∉ q.getD [] ++ '#' :: name := by
      simp [not_mem_of_isQualifier outside_dot.ident (by decide) h.2,
        not_mem_of_isIdent outside_dot.ident h.1]
    unfold ofSimple?
    rw [render, Text.cut_of_not_mem hdot,
      Text.cut_append_cons (not_mem_of_isQualifier (by decide) (by decide) h.2)]
    exact named?_getD h.2 h.1
  | byAttribute name operator value q =>
    have hdot := outside_dot.not_mem_byAttribute h
    have hhash := outside_hash.not_mem_byAttribute h
    simp only [isSimple, Bool.and_eq_true] at h
    have hread := ofSimple?_bracket h.2 h.1.1 (takeIdent?_append_renderValue h.1.1 operator value)
    have htest := test?_renderValue (present_iff_of_isTest h.1.2) (quote_not_mem_of_isTest h.1.2)
    rw [render_byAttribute, List.mem_append, List.mem_cons, List.mem_append] at hdot hhash
    rw [htest, if_neg (by simp_all)] at hread
    rw [render_byAttribute]
    exact hread
  | pseudo inner name => cases h
  | joined left combinator right => cases h

theorem ofAtom?_of_not_mem {t : Text} (h : ':' ∉ t) : ofAtom? t = ofSimple? t := by
  rw [ofAtom?, Text.cut_of_not_mem h]

theorem ofAtom?_append_colon {t : Text} (h : ':' ∉ t) (name : Text) :
    ofAtom? (t ++ ':' :: name) =
      if name = [] then none else (ofSimple? t).map fun inner => .pseudo inner name := by
  rw [ofAtom?, Text.cut_append_cons h]

theorem isAtomic_cases {s : Selector} (h : s.isAtomic) :
    s.isSimple ∨ ∃ inner name, s = pseudo inner name ∧ inner.isSimple ∧ name ≠ [] ∧
      ∀ c ∈ name, isSeparator c = false := by
  cases s with
  | pseudo inner name =>
    simp only [isAtomic, Bool.and_eq_true, bne_iff_ne, ne_eq, List.all_eq_true,
      Bool.not_eq_true'] at h
    exact .inr ⟨inner, name, rfl, h.1.1, h.1.2, h.2⟩
  | joined left combinator right => cases h
  | _ => exact .inl h

theorem ofAtom?_render {s : Selector} (h : s.isAtomic) : ofAtom? s.render = some s := by
  rcases isAtomic_cases h with h | ⟨inner, name, rfl, hinner, hname, -⟩
  . rw [ofAtom?_of_not_mem (outside_colon.not_mem_render (by decide) (by decide) h)]
    exact ofSimple?_render h
  . have hcolon := outside_colon.not_mem_render (by decide) (by decide) hinner
    rw [render, ofAtom?_append_colon hcolon, if_neg hname, ofSimple?_render hinner]
    rfl

theorem isSeparator_of_mem_simple {s : Selector} (h : s.isSimple) {c : Char} (hc : c ∈ s.render) :
    isSeparator c = false := by
  rw [Bool.eq_false_iff]
  intro hsep
  apply (outside_of_isSeparator hsep).not_mem_render _ _ h hc
  . intro hdot
    simp [hdot, isSeparator, isBlank] at hsep
  . intro hhash
    simp [hhash, isSeparator, isBlank] at hsep

theorem isSeparator_of_mem_render {s : Selector} (h : s.isAtomic) {c : Char} (hc : c ∈ s.render) :
    isSeparator c = false := by
  rcases isAtomic_cases h with h | ⟨inner, name, rfl, hinner, -, hname⟩
  . exact isSeparator_of_mem_simple h hc
  . simp only [render, List.mem_append, List.mem_cons] at hc
    rcases hc with hc | rfl | hc
    . exact isSeparator_of_mem_simple hinner hc
    . decide
    . exact hname c hc

theorem render_ne_nil {s : Selector} (h : s.isAtomic) : s.render ≠ [] := by
  rcases isAtomic_cases h with h | ⟨inner, name, rfl, -⟩
  . cases s with
    | element name => exact ne_nil_of_isTag h
    | pseudo inner name => cases h
    | joined left combinator right => cases h
    | _ => simp [render]
  . simp [render]

theorem head?_of_isTag {t : Text} (h : isTag t) : ∀ c ∈ t.head?, isIdentChar c ∨ c = '*' := by
  intro c hc
  have hmem := List.mem_of_head? hc
  simp only [isTag, Bool.or_eq_true, beq_iff_eq] at h
  rcases h with h | rfl
  . exact .inl (isIdentChar_of_mem h hmem)
  . exact .inr (by simpa using hmem)

theorem head?_of_isQualifier {q : Option Text} (h : isQualifier q) (d : Char) (t : Text) :
    ∀ c ∈ (q.getD [] ++ d :: t).head?, isIdentChar c ∨ c = '*' ∨ c = d := by
  intro c hc
  cases q with
  | none =>
    simp only [Option.getD_none, List.nil_append, List.head?_cons, Option.mem_def,
      Option.some.injEq] at hc
    exact .inr (.inr hc.symm)
  | some q =>
    have hq : isTag q := h
    rw [Option.getD_some, List.head?_append_of_ne_nil _ (ne_nil_of_isTag hq)] at hc
    rcases head?_of_isTag hq c hc with hident | hstar
    . exact .inl hident
    . exact .inr (.inl hstar)

theorem head?_render {s : Selector} (h : s.isAtomic) :
    ∀ c ∈ s.render.head?, isIdentChar c ∨ c = '*' ∨ c = '.' ∨ c = '#' ∨ c = '[' := by
  have hsimple {s : Selector} (h : s.isSimple) :
      ∀ c ∈ s.render.head?, isIdentChar c ∨ c = '*' ∨ c = '.' ∨ c = '#' ∨ c = '[' := by
    intro c hc
    cases s with
    | element name =>
      have := head?_of_isTag h c hc
      grind
    | byClass name q =>
      simp only [isSimple, Bool.and_eq_true] at h
      have := head?_of_isQualifier h.2 '.' name c hc
      grind
    | byId name q =>
      simp only [isSimple, Bool.and_eq_true] at h
      have := head?_of_isQualifier h.2 '#' name c hc
      grind
    | byAttribute name operator value q =>
      simp only [isSimple, Bool.and_eq_true] at h
      have := head?_of_isQualifier h.2 '[' (name ++ renderValue operator value ++ [']']) c
        (by simpa [render] using hc)
      grind
    | pseudo inner name => cases h
    | joined left combinator right => cases h
  rcases isAtomic_cases h with h | ⟨inner, name, rfl, hinner, -⟩
  . exact hsimple h
  . have hne : inner.render ≠ [] := by
      apply render_ne_nil
      cases inner <;> first | exact hinner | cases hinner
    rw [render, List.head?_append_of_ne_nil _ hne]
    exact hsimple hinner

end Selector
end Stylesheet
