import Stylesheet.Delimiter.Basic
import Stylesheet.Notice
import Stylesheet.Record.Basic

/-!
This module contains the state in which a text is cut into records, and what one delimiter does to
it. A comment ends at the next comment mark that closes, a string at the next quote that is not
escaped, and neither takes notice of anything else. Text outside of comments is collected until a
brace or the end of an at-rule says what it belongs to.
-/

namespace Stylesheet

/--
Whether the text right before the current place is ordinary text, or inside a string, or inside a
comment that starts at position `start`.
-/
inductive Reading where
  | code
  | string
  | comment (start : Nat)
deriving DecidableEq, Repr

/--
What is open besides: nothing, an at-rule whose `@` is at position `start`, or a ruleset with its
selectors.
-/
inductive Scope where
  | outer
  | atRule (start : Nat)
  | ruleset (selectors : Text)
deriving DecidableEq, Repr

structure State where
  reading : Reading
  scope : Scope
  /--
  The text collected so far.
  -/
  buffer : Text
  /--
  The position up to which the text is collected.
  -/
  taken : Nat
  /--
  The last delimiter that opened anything.
  -/
  opener : Option Delimiter
deriving DecidableEq, Repr

namespace State

def start : State :=
  { reading := .code, scope := .outer, buffer := [], taken := 0, opener := none }

/--
Collects the text up to position `n`.
-/
def flush (s : State) (t : Text) (n : Nat) : State :=
  { s with buffer := s.buffer ++ t.slice s.taken n, taken := n }

/--
Goes on after position `n` with nothing collected and nothing open.
-/
def close (s : State) (n : Nat) : State :=
  { s with scope := .outer, buffer := [], taken := n }

/--
What a delimiter in ordinary text does.
-/
def stepCode (t : Text) (s : State) (d : Delimiter) : State × Option Record :=
  match d.mark with
  | .quote =>
    if t.escapedAt d.byteOffset then
      (s, none)
    else
      ({ s with reading := .string, opener := some d }, none)
  | .commentOpen =>
    ({ s.flush t d.byteOffset with reading := .comment d.byteOffset, opener := some d }, none)
  | .commentClose => (s, none)
  | .atSign =>
    match s.scope with
    | .outer => ({ s with scope := .atRule d.byteOffset, opener := some d }, none)
    | _ => (s, none)
  | .semicolon =>
    match s.scope with
    | .atRule start => (s.close d.stop, some (.text (Text.trim (t.slice start d.stop))))
    | _ => (s, none)
  | .braceOpen =>
    match s.scope with
    | .atRule start => (s.close d.stop, some (.text (Text.trim (t.slice start d.byteOffset))))
    | _ =>
      let selectors := Text.trim (s.flush t d.byteOffset).buffer
      ({ s.close d.stop with scope := .ruleset selectors, opener := some d }, none)
  | .braceClose =>
    match s.scope with
    | .ruleset selectors =>
      let declarations := Text.trim (s.flush t d.byteOffset).buffer
      (s.close d.stop, some (.rule selectors declarations))
    | scope => ({ s.close d.stop with scope }, some .groupEnd)

/--
What a delimiter does. A closing brace that ends no ruleset leaves an at-rule before it open.
-/
def step (t : Text) (s : State) (d : Delimiter) : State × Option Record :=
  match s.reading with
  | .code => s.stepCode t d
  | .string =>
    if d.mark = .quote ∧ !t.escapedAt d.byteOffset then
      ({ s with reading := .code }, none)
    else
      (s, none)
  | .comment start =>
    if d.mark = .commentClose then
      ({ s with reading := .code, taken := d.stop }, some (.text (t.slice start d.stop)))
    else
      (s, none)

/--
Takes the delimiters one after the other and lists the records that they complete.
-/
def run (t : Text) : State → List Delimiter → State × List Record
  | s, [] => (s, [])
  | s, d :: ds =>
    let (s, record?) := s.step t d
    let (s, records) := s.run t ds
    (s, record?.toList ++ records)

/--
The innermost construct that is open.
-/
def innermost? (s : State) : Option Construct :=
  match s.reading, s.scope with
  | .comment _, _ => some .comment
  | .string, _ => some .string
  | .code, .ruleset _ => some .ruleset
  | .code, .atRule _ => some .atRule
  | .code, .outer => none

/--
The notice that is due when the text ends in this state.
-/
def unterminated? (s : State) : Option Notice :=
  match s.innermost?, s.opener with
  | some construct, some d => some (.unterminated construct d.charOffset)
  | _, _ => none

@[simp]
theorem run_nil (t : Text) (s : State) : s.run t [] = (s, []) := rfl

theorem run_cons (t : Text) (s : State) (d : Delimiter) (ds : List Delimiter) :
    s.run t (d :: ds) =
      (((s.step t d).1.run t ds).1,
        (s.step t d).2.toList ++ ((s.step t d).1.run t ds).2) := rfl

end State

end Stylesheet
