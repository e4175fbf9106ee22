import Stylesheet.Ruleset

/-!
This module contains the blocks of a sheet.
-/

namespace Stylesheet

/--
A style sheet to be included, for some media types or for all.
-/
structure Import where
  url : Text
  mediaTypes : List Text
deriving DecidableEq, Repr

inductive Block where
  /--
  A comment, or an at-rule of which nothing is known.
  -/
  | comment (t : Text)
  | importRule (i : Import)
  | charset (name : Text)
  | ruleset (r : Ruleset)
deriving DecidableEq, Repr

namespace Block

def ruleset? : Block → Option Ruleset
  | ruleset r => some r
  | _ => none

/--
Whether two blocks are equal but for the order of declarations.
-/
def agrees : Block → Block → Bool
  | ruleset r, ruleset s => r.agrees s
  | ruleset _, _ => false
  | _, ruleset _ => false
  | b, c => b == c

@[simp]
theorem ruleset?_eq_some_iff {b : Block} {r : Ruleset} :
    b.ruleset? = some r ↔ b = ruleset r := by
  cases b <;> simp [ruleset?]

end Block

end Stylesheet
