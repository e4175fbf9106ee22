import Stylesheet.Text.Basic

/-!
This module contains the notices about text that is left out of a document. A notice is kept as its
cause; the wording is in `Notice.message` alone.
-/

namespace Stylesheet

/--
The constructs that can be left open at the end of a text.
-/
inductive Construct where
  | comment
  | string
  | ruleset
  | atRule
deriving DecidableEq, Repr

def Construct.name : Construct → Text
  | comment => "comment".toList
  | string => "string".toList
  | ruleset => "ruleset".toList
  | atRule => "at-rule".toList

inductive Notice where
  /--
  The text ended inside `construct`; `opener` is the place of a delimiter, in code points.
  -/
  | unterminated (construct : Construct) (opener : Nat)
  | malformedImport (t : Text)
  | malformedCharset (t : Text)
  /--
  None of the selectors of a ruleset could be read.
  -/
  | droppedRuleset (selectors : Text)
  | droppedSelector (group : Text)
  /--
  A block was to be removed at a position that the sheet does not have.
  -/
  | ignoredIndex (index length : Nat)
deriving DecidableEq, Repr

namespace Notice

inductive Level where
  | debug
  | trace
deriving DecidableEq, Repr

def level : Notice → Level
  | droppedSelector _ => .trace
  | _ => .debug

def quoted (t : Text) : Text :=
  '`' :: t ++ ['`']

def message : Notice → Text
  | unterminated construct opener =>
    "unterminated ".toList ++ construct.name ++ " opened at character ".toList ++
      Nat.toDigits 10 opener ++ " swallowed the rest of the stylesheet".toList
  | malformedImport t => "dropping malformed @import ".toList ++ quoted t
  | malformedCharset t => "dropping malformed @charset ".toList ++ quoted t
  | droppedRuleset selectors =>
    "dropping ruleset ".toList ++ quoted selectors ++ ": no usable selector".toList
  | droppedSelector group => "dropping selector ".toList ++ quoted group
  | ignoredIndex index length =>
    "ignoring block index ".toList ++ Nat.toDigits 10 index ++ ": stylesheet has ".toList ++
      Nat.toDigits 10 length ++ " blocks".toList

end Notice

end Stylesheet
