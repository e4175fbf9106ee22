import Stylesheet.Block.Basic

/-!
This module contains the readers of the at-rules that are known: `@import`, `@charset` and the head
of `@media`. Keywords may be written in upper or lower case.
-/

namespace Stylesheet

namespace Keyword

def media : Text :=
  "@media".toList

def importRule : Text :=
  "@import".toList

def charset : Text :=
  "@charset".toList

end Keyword

/--
The media types after `@media`; a list without any stands for no media.
-/
def Media.ofText (t : Text) : Media :=
  if Text.commaList t = [] then none else some (Text.commaList t)

namespace Import

def isUrlChar (c : Char) : Bool :=
  c != '"' && c != '\'' && c != ')'

def dropQuote : Text → Text
  | '"' :: t => t
  | '\'' :: t => t
  | t => t

/--
The address after `url(`, and the text after the closing parenthesis. A quote may stand before or
after the address, or at both ends, and need not be the same one; blanks before a quote at the end
belong to the address.
-/
def bracketed? (t : Text) : Option (Text × Text) :=
  let t := dropQuote (Text.trimStart t)
  let url := t.takeWhile isUrlChar
  match t.dropWhile isUrlChar with
  | [] => none
  | ')' :: rest => some (Text.trimEnd url, rest)
  | _ :: rest =>
    match Text.trimStart rest with
    | ')' :: rest => some (url, rest)
    | _ => none

def quoted? (q : Char) (t : Text) : Option (Text × Text) :=
  match Text.cut q t with
  | (url, some rest) => some (url, rest)
  | (_, none) => none

def url? : Text → Option (Text × Text)
  | '"' :: t => quoted? '"' t
  | '\'' :: t => quoted? '\'' t
  | t => (Text.afterWord? "url(".toList t).bind bracketed?

/--
The text before a semicolon that ends the rule.
-/
def mediaList? (t : Text) : Option Text :=
  match Text.cut ';' t with
  | (types, some []) => some types
  | _ => none

def ofText? (t : Text) : Option Import := do
  let rest ← Text.afterWord? Keyword.importRule t
  let (url, rest) ← url? (Text.trimStart rest)
  let types ← mediaList? rest
  some ⟨url, Text.commaList types⟩

theorem ofText?_eq_some_iff {t : Text} {i : Import} :
    ofText? t = some i ↔ ∃ rest rest' types,
      Text.afterWord? Keyword.importRule t = some rest ∧
        url? (Text.trimStart rest) = some (i.url, rest') ∧ mediaList? rest' = some types ∧
        Text.commaList types = i.mediaTypes := by
  constructor
  . intro h
    rcases Option.bind_eq_some_iff.1 h with ⟨rest, hrest, hparts⟩
    rcases Option.bind_eq_some_iff.1 hparts with ⟨⟨url, rest'⟩, hurl, hlist⟩
    rcases Option.bind_eq_some_iff.1 hlist with ⟨types, htypes, hi⟩
    cases hi
    exact ⟨rest, rest', types, hrest, hurl, htypes, rfl⟩
  . rintro ⟨rest, rest', types, hrest, hurl, htypes, hitems⟩
    simp only [ofText?, hrest, hurl, htypes, hitems, bind, Option.bind]

end Import

namespace Block

/--
The name in `@charset "name";`. A blank has to stand before the quote.
-/
def charset? (t : Text) : Option Text := do
  let rest ← Text.afterWord? Keyword.charset t
  if rest.head?.any isBlank then
    match Text.trimStart rest with
    | '"' :: rest =>
      match Text.cut '"' rest with
      | (name, some rest) => if Text.trimStart rest = [';'] then some name else none
      | (_, none) => none
    | _ => none
  else
    none

end Block

end Stylesheet
