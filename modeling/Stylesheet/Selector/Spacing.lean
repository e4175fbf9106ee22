import Stylesheet.Text.Basic

/-!
This module contains the blanks of a selector list that mean nothing: those at either end, and
those beside a delimiter. All other blanks are descendant combinators and stay as they are.
-/

namespace Stylesheet.Selector

/--
The delimiters of one character that blanks do not separate from their neighbours.
-/
def isTight (c : Char) : Bool :=
  c == '#' || c == ',' || c == '.' || c == '+' || c == '>' || c == '[' || c == ']' || c == '='

/--
Whether blanks before a text mean nothing: it ends there or starts with a delimiter, of which `~=`
and `|=` have two characters.
-/
def startsTight : Text → Bool
  | [] => true
  | '~' :: '=' :: _ => true
  | '|' :: '=' :: _ => true
  | c :: _ => isTight c

/--
A text without the blanks that mean nothing; `tight` says whether blanks at its start do not.
-/
def tidyAfter (tight : Bool) : Text → Text
  | [] => []
  | c :: t =>
    if isBlank c then
      if tight || startsTight (Text.trimStart t) then
        tidyAfter tight t
      else
        c :: tidyAfter tight t
    else
      c :: tidyAfter (isTight c) t

/--
A selector list without the blanks that mean nothing.
-/
def tidy (t : Text) : Text :=
  tidyAfter true t

end Stylesheet.Selector
