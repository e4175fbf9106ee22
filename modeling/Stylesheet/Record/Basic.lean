import Stylesheet.Text.Basic

/-!
This module contains the records of a style sheet: its text in pieces, before any piece is read.
-/

namespace Stylesheet

inductive Record where
  /--
  A comment, an at-rule that ends in `;`, or the head of an at-rule with a block.
  -/
  | text (t : Text)
  /--
  The selectors and the declarations of a ruleset.
  -/
  | rule (selectors declarations : Text)
  /--
  A closing brace that ends no ruleset.
  -/
  | groupEnd
deriving DecidableEq, Repr

end Stylesheet
