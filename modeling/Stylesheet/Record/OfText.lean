import Stylesheet.Delimiter.Scan
import Stylesheet.Record.State

/-!
This module contains the records of a whole text. A text that ends inside a comment, a string, a
ruleset or an at-rule yields no record for its end, but a notice.
-/

namespace Stylesheet

/--
The state after all delimiters of a text.
-/
def State.ofText (t : Text) : State :=
  (State.start.run t (Delimiter.scan t)).1

def Record.ofText (t : Text) : List Record :=
  (State.start.run t (Delimiter.scan t)).2

/--
The notice about the end of a text.
-/
def Notice.ofEnd (t : Text) : Option Notice :=
  (State.ofText t).unterminated?

end Stylesheet
