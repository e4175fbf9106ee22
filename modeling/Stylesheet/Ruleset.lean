import Stylesheet.Declarations.Basic
import Stylesheet.Fault
import Stylesheet.Selector.Printer

/-!
This module contains rulesets: selectors, of which there is at least one, their declarations, and
the media types that the ruleset is for.
-/

namespace Stylesheet

/--
The media types of a ruleset inside `@media`; `none` outside of it.
-/
abbrev Media := Option (List Text)

structure Ruleset where
  selectors : List Selector
  declarations : Declarations
  media : Media
  selectors_ne_nil : selectors ≠ []
deriving DecidableEq, Repr

namespace Ruleset

def ofParts (selectors : List Selector) (declarations : Declarations) (media : Media) :
    Except Fault Ruleset :=
  if h : selectors = [] then
    .error .emptySelectorList
  else
    .ok ⟨selectors, declarations, media, h⟩

def first (r : Ruleset) : Selector :=
  r.selectors.head r.selectors_ne_nil

/--
A ruleset goes by the text of its first selector.
-/
def name (r : Ruleset) : Text :=
  r.first.render

/--
All selectors of a ruleset and the selectors inside them.
-/
def parts (r : Ruleset) : List Selector :=
  r.selectors.flatMap Selector.flatten

def renderEntry (indent : Text) (entry : Text × Text) : Text :=
  indent ++ entry.1 ++ [':', ' '] ++ entry.2 ++ [';', '\n']

/--
The text of a ruleset with `indent` before each line, and `step` besides before each declaration.
-/
def render (indent step : Text) (r : Ruleset) : Text :=
  indent ++ Selector.renderList r.selectors ++ [' ', '{', '\n'] ++
    r.declarations.entries.flatMap (renderEntry (indent ++ step)) ++ indent ++ ['}']

/--
Whether two rulesets are equal but for the order of their declarations.
-/
def agrees (r s : Ruleset) : Bool :=
  r.selectors == s.selectors && r.declarations.agrees s.declarations && r.media == s.media

theorem ofParts_eq_ok_iff {selectors : List Selector} {declarations : Declarations} {media : Media}
    {r : Ruleset} :
    ofParts selectors declarations media = .ok r ↔
      r.selectors = selectors ∧ r.declarations = declarations ∧ r.media = media := by
  obtain ⟨selectors', declarations', media', h⟩ := r
  unfold ofParts
  split
  . simp only [reduceCtorEq, false_iff]
    rintro ⟨rfl, -, -⟩
    contradiction
  . simp [eq_comm]

end Ruleset

end Stylesheet
