import Stylesheet.Proofs.Text.Position
import Stylesheet.Record.OfText

/-!
This module contains cutters: a way of cutting a text into records that keeps one flag for each
construct, and positions and texts that hold their old values while they are out of use. Nothing in
their form keeps flags from being set together where `State` has no such case, or a part of the text
from starting after its end or inside of a character; to take such a part fails.
-/

namespace Stylesheet

namespace Text

/--
The text from position `start` up to position `stop`, as far as these are places of the text, in
order and between its code points.
-/
def slice? (t : Text) (start stop : Nat) : Option Text :=
  if start ≤ stop ∧ stop ≤ t.byteSize ∧ t.IsBoundary start ∧ t.IsBoundary stop then
    some (t.slice start stop)
  else
    none

/--
Whether what stands at position `n` is escaped, as far as the text has so many bytes.
-/
def escapedAt? (t : Text) (n : Nat) : Option Bool :=
  if n ≤ t.byteSize then some (t.escapedAt n) else none

theorem slice?_eq_some {t : Text} {start stop : Nat} (hstart : t.IsBoundary start)
    (hstop : t.IsBoundary stop) (hle : start ≤ stop) :
    t.slice? start stop = some (t.slice start stop) :=
  if_pos ⟨hle, hstop.le_byteSize, hstart, hstop⟩

theorem escapedAt?_eq_some {t : Text} {n : Nat} (h : t.IsBoundary n) :
    t.escapedAt? n = some (t.escapedAt n) :=
  if_pos h.le_byteSize

end Text

structure Cutter where
  inComment : Bool
  inString : Bool
  inRuleset : Bool
  inAtRule : Bool
  /--
  The text collected so far.
  -/
  buffer : Text
  /--
  The position up to which the text is collected.
  -/
  taken : Nat
  /--
  Where the last comment starts.
  -/
  commentStart : Nat
  /--
  Where the `@` of the last at-rule is.
  -/
  atRuleStart : Nat
  /--
  The selectors of the ruleset that is open.
  -/
  selectors : Text
  /--
  The last delimiter that opened anything.
  -/
  opener : Option Delimiter
deriving DecidableEq, Repr

namespace Cutter

def start : Cutter :=
  { inComment := false
    inString := false
    inRuleset := false
    inAtRule := false
    buffer := []
    taken := 0
    commentStart := 0
    atRuleStart := 0
    selectors := []
    opener := none }

/--
Collects the text up to position `n`, if there is any.
-/
def flush? (c : Cutter) (t : Text) (n : Nat) : Option Cutter :=
  if c.taken < n then
    (t.slice? c.taken n).map fun u => { c with buffer := c.buffer ++ u, taken := n }
  else
    some { c with taken := n }

/--
Goes on after position `n` with nothing collected.
-/
def clear (c : Cutter) (n : Nat) : Cutter :=
  { c with buffer := [], taken := n }

def step? (t : Text) (c : Cutter) (d : Delimiter) : Option (Cutter × Option Record) :=
  match d.mark with
  | .quote =>
    if c.inComment then
      some (c, none)
    else
      (t.escapedAt? d.byteOffset).map fun escaped =>
        if escaped then
          (c, none)
        else if c.inString then
          ({ c with inString := false }, none)
        else
          ({ c with inString := true, opener := some d }, none)
  | .commentOpen =>
    if c.inComment || c.inString then
      some (c, none)
    else
      (c.flush? t d.byteOffset).map fun c =>
        ({ c with inComment := true, commentStart := d.byteOffset, opener := some d }, none)
  | .commentClose =>
    if c.inComment then
      (t.slice? c.commentStart d.stop).map fun u =>
        ({ c with inComment := false, taken := d.stop }, some (.text u))
    else
      some (c, none)
  | .atSign =>
    if c.inComment || c.inString || c.inRuleset || c.inAtRule then
      some (c, none)
    else
      some ({ c with inAtRule := true, atRuleStart := d.byteOffset, opener := some d }, none)
  | .semicolon =>
    if c.inAtRule && !c.inComment && !c.inString then
      (t.slice? c.atRuleStart d.stop).map fun u =>
        ({ c.clear d.stop with inAtRule := false }, some (.text (Text.trim u)))
    else
      some (c, none)
  | .braceOpen =>
    if c.inComment || c.inString then
      some (c, none)
    else if c.inAtRule then
      (t.slice? c.atRuleStart d.byteOffset).map fun u =>
        ({ c.clear d.stop with inAtRule := false }, some (.text (Text.trim u)))
    else
      (c.flush? t d.byteOffset).map fun c =>
        let selectors := Text.trim c.buffer
        ({ c.clear d.stop with inRuleset := true, selectors, opener := some d }, none)
  | .braceClose =>
    if c.inComment || c.inString then
      some (c, none)
    else if c.inRuleset then
      (c.flush? t d.byteOffset).map fun c =>
        let record := .rule c.selectors (Text.trim c.buffer)
        ({ c.clear d.stop with inRuleset := false, selectors := [] }, some record)
    else
      some (c.clear d.stop, some .groupEnd)

/--
Takes the delimiters one after the other and lists the records that they complete.
-/
def run? (t : Text) : Cutter → List Delimiter → Option (Cutter × List Record)
  | c, [] => some (c, [])
  | c, d :: ds => do
    let (c, record?) ← c.step? t d
    let (c, records) ← run? t c ds
    return (c, record?.toList ++ records)

/--
The first of the constructs whose flag is set.
-/
def construct? (c : Cutter) : Option Construct :=
  if c.inComment then some .comment
  else if c.inString then some .string
  else if c.inRuleset then some .ruleset
  else if c.inAtRule then some .atRule
  else none

/--
The notice that is due when the text ends here.
-/
def unterminated? (c : Cutter) : Option Notice :=
  match c.construct?, c.opener with
  | some construct, some d => some (.unterminated construct d.charOffset)
  | _, _ => none

/--
The records of a text and the notice about its end.
-/
def ofText? (t : Text) : Option (List Record × Option Notice) :=
  (start.run? t (Delimiter.scan t)).map fun (c, records) => (records, c.unterminated?)

end Cutter

end Stylesheet
