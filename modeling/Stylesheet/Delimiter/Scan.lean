import Stylesheet.Delimiter.Basic

/-!
This module contains the search for delimiters. It goes from left to right and prefers the two
characters of a comment mark over one; a `/` or `*` that belongs to no comment mark is passed over.

Positions are found in bytes. In an ASCII text they count the code points as well; in any other
text the surplus bytes of the wide characters before a delimiter are subtracted.
-/

namespace Stylesheet

/--
A mark and its position in bytes.
-/
structure Span where
  mark : Mark
  offset : Nat
deriving DecidableEq, Repr

namespace Span

/--
The marks of a text that starts at position `offset`.
-/
def scanFrom (offset : Nat) : Text → List Span
  | [] => []
  | '/' :: '*' :: t => ⟨.commentOpen, offset⟩ :: scanFrom (offset + 2) t
  | '*' :: '/' :: t => ⟨.commentClose, offset⟩ :: scanFrom (offset + 2) t
  | c :: t =>
    match Mark.ofChar? c with
    | some mark => ⟨mark, offset⟩ :: scanFrom (offset + 1) t
    | none => scanFrom (offset + c.utf8Size) t

end Span

/--
A character that takes more than one byte, by its position and the number of bytes beyond one.
-/
structure WideChar where
  offset : Nat
  surplus : Nat
deriving DecidableEq, Repr

namespace WideChar

/--
The wide characters of a text that starts at position `offset`.
-/
def scanFrom (offset : Nat) : Text → List WideChar
  | [] => []
  | c :: t =>
    if 1 < c.utf8Size then
      ⟨offset, c.utf8Size - 1⟩ :: scanFrom (offset + c.utf8Size) t
    else
      scanFrom (offset + c.utf8Size) t

def totalSurplus : List WideChar → Nat
  | [] => 0
  | c :: wide => c.surplus + totalSurplus wide

end WideChar

namespace Delimiter

/--
Goes through spans and wide characters together; `surplus` counts the bytes of the wide characters
that are behind.
-/
def locate (surplus : Nat) (wide : List WideChar) : List Span → List Delimiter
  | [] => []
  | span :: spans =>
    let behind := wide.takeWhile (·.offset < span.offset)
    let ahead := wide.dropWhile (·.offset < span.offset)
    let surplus := surplus + WideChar.totalSurplus behind
    ⟨span.mark, span.offset, span.offset - surplus⟩ :: locate surplus ahead spans

/--
The delimiter of a span in an ASCII text, where bytes and code points agree.
-/
def ofSpan (span : Span) : Delimiter :=
  ⟨span.mark, span.offset, span.offset⟩

/--
The delimiters of a text in order.
-/
def scan (t : Text) : List Delimiter :=
  if t.all (·.toNat < 128) then
    (Span.scanFrom 0 t).map ofSpan
  else
    locate 0 (WideChar.scanFrom 0 t) (Span.scanFrom 0 t)

@[simp]
theorem locate_nil_wide (surplus : Nat) (spans : List Span) :
    locate surplus [] spans = spans.map fun s => ⟨s.mark, s.offset, s.offset - surplus⟩ := by
  induction spans with
  | nil => rfl
  | cons s spans ih => simp [locate, WideChar.totalSurplus, ih]

end Delimiter

end Stylesheet
