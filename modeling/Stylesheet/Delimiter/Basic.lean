import Stylesheet.Text.Bytes

/-!
This module contains the delimiters of a style sheet: the marks that can begin or end a comment, a
string, a declaration block or an at-rule, each with the place where it stands.
-/

namespace Stylesheet

inductive Mark where
  | commentOpen
  | commentClose
  | quote
  | braceOpen
  | braceClose
  | atSign
  | semicolon
deriving DecidableEq, Repr

namespace Mark

def spelling : Mark → Text
  | commentOpen => ['/', '*']
  | commentClose => ['*', '/']
  | quote => ['"']
  | braceOpen => ['{']
  | braceClose => ['}']
  | atSign => ['@']
  | semicolon => [';']

/--
The mark that the character `c` is by itself.
-/
def ofChar? : Char → Option Mark
  | '"' => some quote
  | '{' => some braceOpen
  | '}' => some braceClose
  | '@' => some atSign
  | ';' => some semicolon
  | _ => none

/--
How many bytes a mark takes; all of its characters are ASCII.
-/
def width : Mark → Nat
  | commentOpen => 2
  | commentClose => 2
  | _ => 1

theorem byteSize_spelling (m : Mark) : m.spelling.byteSize = m.width := by
  cases m <;> rfl

end Mark

/--
A mark at its place in a text, counted in bytes and in code points.
-/
structure Delimiter where
  mark : Mark
  byteOffset : Nat
  charOffset : Nat
deriving DecidableEq, Repr

namespace Delimiter

def stop (d : Delimiter) : Nat :=
  d.byteOffset + d.mark.width

end Delimiter

end Stylesheet
