import Stylesheet.Proofs.Piece
import Stylesheet.Proofs.Text.Trim
import Stylesheet.Record.State

/-!
This module contains drafts: a way of cutting a text into records that reads it piece by piece and
keeps the text that it still needs, where `State` keeps positions and goes back to them.
-/

namespace Stylesheet

namespace Draft

/--
Whether the current place is in ordinary text, or inside a string, or inside a comment, of which the
text is kept.
-/
inductive Reading where
  | code
  | string
  | comment (t : Text)
deriving DecidableEq, Repr

/--
What is open besides: nothing, an at-rule with all its text from the `@` on, or a ruleset with its
selectors.
-/
inductive Scope where
  | outer
  | atRule (t : Text)
  | ruleset (selectors : Text)
deriving DecidableEq, Repr

def Reading.add (t : Text) : Reading → Reading
  | comment u => comment (u ++ t)
  | reading => reading

def Scope.add (t : Text) : Scope → Scope
  | atRule u => atRule (u ++ t)
  | scope => scope

/--
The text outside of comments, when `t` is read.
-/
def Reading.collect (pending t : Text) : Reading → Text
  | comment _ => pending
  | _ => pending ++ t

end Draft

structure Draft where
  reading : Draft.Reading
  scope : Draft.Scope
  /--
  The text outside of comments since the last brace or the end of the last at-rule.
  -/
  pending : Text
  /--
  Whether a quote would be escaped here.
  -/
  escaped : Bool
deriving DecidableEq, Repr

namespace Draft

def start : Draft :=
  { reading := .code, scope := .outer, pending := [], escaped := false }

/--
Keeps a piece wherever text is kept.
-/
def take (d : Draft) (p : Piece) : Draft :=
  { reading := d.reading.add p.text
    scope := d.scope.add p.text
    pending := d.reading.collect d.pending p.text
    escaped := p = .char '\\' && !d.escaped }

def close (d : Draft) : Draft :=
  { d with scope := .outer, pending := [] }

/--
What a mark in ordinary text does.
-/
def stepCode (d : Draft) (m : Mark) : Draft × Option Record :=
  let next := d.take (.mark m)
  match m, d.scope with
  | .quote, _ => if d.escaped then (next, none) else ({ next with reading := .string }, none)
  | .commentOpen, _ => ({ next with reading := .comment m.spelling, pending := d.pending }, none)
  | .atSign, .outer => ({ next with scope := .atRule m.spelling }, none)
  | .semicolon, .atRule t => (next.close, some (.text (Text.trim (t ++ m.spelling))))
  | .braceOpen, .atRule t => (next.close, some (.text (Text.trim t)))
  | .braceOpen, _ => ({ next.close with scope := .ruleset (Text.trim d.pending) }, none)
  | .braceClose, .ruleset selectors => (next.close, some (.rule selectors (Text.trim d.pending)))
  | .braceClose, _ => ({ next.close with scope := next.scope }, some .groupEnd)
  | _, _ => (next, none)

def step (d : Draft) (p : Piece) : Draft × Option Record :=
  match d.reading, p with
  | .code, .mark m => d.stepCode m
  | .string, .mark .quote =>
    if d.escaped then (d.take p, none) else ({ d.take p with reading := .code }, none)
  | .comment t, .mark .commentClose =>
    ({ d.take p with reading := .code }, some (.text (t ++ p.text)))
  | _, _ => (d.take p, none)

def run (d : Draft) : List Piece → Draft × List Record
  | [] => (d, [])
  | p :: ps =>
    let (next, record?) := d.step p
    let (last, records) := next.run ps
    (last, record?.toList ++ records)

/--
Reads a text on from a draft.
-/
def read (d : Draft) (t : Text) : Draft × List Record :=
  d.run (Piece.ofText t)

@[simp]
theorem run_nil (d : Draft) : d.run [] = (d, []) := rfl

theorem run_cons (d : Draft) (p : Piece) (ps : List Piece) :
    d.run (p :: ps) =
      (((d.step p).1.run ps).1, (d.step p).2.toList ++ ((d.step p).1.run ps).2) := rfl

theorem run_append (d : Draft) (ps qs : List Piece) :
    d.run (ps ++ qs) =
      (((d.run ps).1.run qs).1, (d.run ps).2 ++ ((d.run ps).1.run qs).2) := by
  induction ps generalizing d with
  | nil => rfl
  | cons p ps ih => simp [run_cons, ih]

@[simp]
theorem read_nil (d : Draft) : d.read [] = (d, []) := rfl

theorem read_append (d : Draft) {a b : Text} (h : ∀ c ∈ a.getLast?, ¬Piece.joins c b) :
    d.read (a ++ b) =
      (((d.read a).1.read b).1, (d.read a).2 ++ ((d.read a).1.read b).2) := by
  unfold read
  rw [Piece.ofText_append h, run_append]

theorem step_mark_of_string {d : Draft} (h : d.reading = .string) {m : Mark} (hm : m ≠ .quote) :
    d.step (.mark m) = (d.take (.mark m), none) := by
  unfold step
  rw [h]
  cases m with
  | quote => contradiction
  | _ => rfl

theorem step_mark_of_comment {d : Draft} {t : Text} (h : d.reading = .comment t) {m : Mark}
    (hm : m ≠ .commentClose) : d.step (.mark m) = (d.take (.mark m), none) := by
  unfold step
  rw [h]
  cases m with
  | commentClose => contradiction
  | _ => rfl

theorem step_char (d : Draft) (c : Char) : d.step (.char c) = (d.take (.char c), none) := by
  unfold step
  split <;> simp_all

end Draft

end Stylesheet
