import Stylesheet.Proofs.Draft.Basic
import Stylesheet.Proofs.Text.Sealed

/-!
This module contains the places at which a draft keeps a string that it has read. Whatever is read
after the string, the draft goes on in one way for all strings at this place, and no more than one
record holds the string.
-/

namespace Stylesheet

/--
A record but for a string in it, and the text on both sides of the string.
-/
inductive Record.Frame where
  | text (before after : Text)
  | selectors (before after rest : Text)
  | declarations (first before after : Text)
deriving DecidableEq, Repr

def Record.Frame.fill (t : Text) : Frame → Record
  | text before after => .text (before ++ t.quoted ++ after)
  | selectors before after rest => .rule (before ++ t.quoted ++ after) rest
  | declarations first before after => .rule first (before ++ t.quoted ++ after)

namespace Draft

/--
Where a draft keeps a string: nowhere any more, in the text that is collected, in an at-rule or in
the selectors of a ruleset. What is collected in an at-rule is part of no record.
-/
inductive Place where
  | nowhere
  | pending (before after : Text)
  | atRule (before after : Text) (collected : Text → Text)
  | selectors (before after : Text)

namespace Place

/--
The draft that keeps the string of `t` at a place, and is `d` in all else.
-/
def put (t : Text) (d : Draft) : Place → Draft
  | nowhere => d
  | pending before after => { d with pending := before ++ t.quoted ++ after }
  | atRule before after collected =>
    { d with scope := .atRule (before ++ t.quoted ++ after), pending := collected t }
  | selectors before after => { d with scope := .ruleset (before ++ t.quoted ++ after) }

/--
The place after a text is read that leaves the string where it is.
-/
def add (reading : Reading) (u : Text) : Place → Place
  | nowhere => nowhere
  | pending before after => pending before (reading.collect after u)
  | atRule before after collected =>
    atRule before (after ++ u) fun t => reading.collect (collected t) u
  | selectors before after => selectors before after

@[simp]
theorem reading_put (t : Text) (d : Draft) (place : Place) :
    (place.put t d).reading = d.reading := by
  cases place <;> rfl

@[simp]
theorem escaped_put (t : Text) (d : Draft) (place : Place) :
    (place.put t d).escaped = d.escaped := by
  cases place <;> rfl

theorem put_reading (t : Text) (d : Draft) (place : Place) (reading : Reading) :
    { place.put t d with reading } = place.put t { d with reading } := by
  cases place <;> rfl

theorem take_put (t : Text) (d : Draft) (place : Place) (p : Piece) :
    (place.put t d).take p = (place.add d.reading p.text).put t (d.take p) := by
  cases place with
  | nowhere => rfl
  | pending before after => cases h : d.reading <;> simp [put, add, take, h, Reading.collect]
  | atRule before after collected => simp [put, add, take, Scope.add]
  | selectors before after => simp [put, add, take, Scope.add]

end Place

/--
Whether drafts that differ in a string alone differ in it still, and complete the same record if
any; or complete records that differ in it alone, and differ no more.
-/
def Keeps (next : Text → Draft × Option Record) : Prop :=
  (∃ place d record?, ∀ t, next t = (Place.put t d place, record?)) ∨
    ∃ d frame, ∀ t, next t = (d, some (Record.Frame.fill t frame))

theorem keeps_take (place : Place) (d : Draft) (p : Piece) (record? : Option Record) :
    Keeps fun t => ((place.put t d).take p, record?) := by
  refine .inl ⟨place.add d.reading p.text, d.take p, record?, ?_⟩
  intro t
  simp only [Place.take_put]

theorem keeps_take_reading (place : Place) (d : Draft) (p : Piece) (reading : Reading)
    (record? : Option Record) :
    Keeps fun t => ({ (place.put t d).take p with reading }, record?) := by
  refine .inl ⟨place.add d.reading p.text, { d.take p with reading }, record?, ?_⟩
  intro t
  simp only [Place.take_put, Place.put_reading]

theorem keeps_nowhere (d : Draft) (m : Mark) :
    Keeps fun t => (Place.put t d .nowhere).stepCode m := by
  refine .inl ⟨.nowhere, (d.stepCode m).1, (d.stepCode m).2, ?_⟩
  intro t
  rfl

section Code

variable (place : Place) {d : Draft}

theorem keeps_quote : Keeps fun t => (place.put t d).stepCode .quote := by
  cases he : d.escaped with
  | true =>
    have htake := keeps_take place d (.mark .quote) none
    simpa [stepCode, he] using htake
  | false =>
    have hstring := keeps_take_reading place d (.mark .quote) .string none
    simpa [stepCode, he] using hstring

theorem keeps_commentOpen : Keeps fun t => (place.put t d).stepCode .commentOpen := by
  refine .inl ⟨place.add (.comment []) Mark.commentOpen.spelling,
    { d.take (.mark .commentOpen) with
      reading := .comment Mark.commentOpen.spelling, pending := d.pending }, none, ?_⟩
  intro t
  cases place with
  | nowhere => rfl
  | pending before after => simp [stepCode, Place.put, Place.add, take, Reading.collect]
  | atRule before after collected =>
    simp [stepCode, Place.put, Place.add, take, Scope.add, Reading.collect, Piece.text]
  | selectors before after => simp [stepCode, Place.put, Place.add, take, Scope.add]

theorem keeps_atSign (hr : d.reading = .code) :
    Keeps fun t => (place.put t d).stepCode .atSign := by
  have htake := keeps_take place d (.mark .atSign) none
  cases place with
  | nowhere => exact keeps_nowhere d .atSign
  | pending before after =>
    cases hs : d.scope with
    | outer =>
      refine .inl ⟨.pending before (after ++ ['@']),
        { d.take (.mark .atSign) with scope := .atRule ['@'] }, none, ?_⟩
      intro t
      simp [stepCode, Place.put, take, hs, hr, Reading.collect, Piece.text, Mark.spelling]
    | _ => simpa [stepCode, Place.put, hs] using htake
  | _ => simpa [stepCode, Place.put] using htake

theorem keeps_semicolon : Keeps fun t => (place.put t d).stepCode .semicolon := by
  have htake := keeps_take place d (.mark .semicolon) none
  cases place with
  | nowhere => exact keeps_nowhere d .semicolon
  | pending before after =>
    cases hs : d.scope with
    | atRule u =>
      refine .inl ⟨.nowhere, (d.take (.mark .semicolon)).close,
        some (.text (Text.trim (u ++ Mark.semicolon.spelling))), ?_⟩
      intro t
      simp [stepCode, Place.put, take, close, hs]
    | _ => simpa [stepCode, Place.put, hs] using htake
  | atRule before after collected =>
    refine .inr ⟨(d.take (.mark .semicolon)).close,
      .text (Text.trimStart before) (Text.trimEnd (after ++ [';'])), ?_⟩
    intro t
    simp [stepCode, Place.put, take, close, Record.Frame.fill, Mark.spelling, Text.trim_quoted]
  | selectors before after => simpa [stepCode, Place.put] using htake

theorem keeps_braceOpen : Keeps fun t => (place.put t d).stepCode .braceOpen := by
  cases place with
  | nowhere => exact keeps_nowhere d .braceOpen
  | pending before after =>
    cases hs : d.scope with
    | atRule u =>
      refine .inl ⟨.nowhere, (d.take (.mark .braceOpen)).close, some (.text (Text.trim u)), ?_⟩
      intro t
      simp [stepCode, Place.put, take, close, hs]
    | _ =>
      refine .inl ⟨.selectors (Text.trimStart before) (Text.trimEnd after),
        (d.take (.mark .braceOpen)).close, none, ?_⟩
      intro t
      simp [stepCode, Place.put, take, close, hs, Text.trim_quoted]
  | atRule before after collected =>
    refine .inr ⟨(d.take (.mark .braceOpen)).close,
      .text (Text.trimStart before) (Text.trimEnd after), ?_⟩
    intro t
    simp [stepCode, Place.put, take, close, Record.Frame.fill, Text.trim_quoted]
  | selectors before after =>
    refine .inl ⟨.nowhere,
      { (d.take (.mark .braceOpen)).close with scope := .ruleset (Text.trim d.pending) }, none, ?_⟩
    intro t
    simp [stepCode, Place.put, take, close]

theorem keeps_braceClose : Keeps fun t => (place.put t d).stepCode .braceClose := by
  cases place with
  | nowhere => exact keeps_nowhere d .braceClose
  | pending before after =>
    cases hs : d.scope with
    | ruleset selectors =>
      refine .inr ⟨(d.take (.mark .braceClose)).close,
        .declarations selectors (Text.trimStart before) (Text.trimEnd after), ?_⟩
      intro t
      simp [stepCode, Place.put, take, close, hs, Text.trim_quoted, Record.Frame.fill]
    | _ =>
      refine .inl ⟨.nowhere,
        { (d.take (.mark .braceClose)).close with scope := (d.take (.mark .braceClose)).scope },
        some .groupEnd, ?_⟩
      intro t
      simp [stepCode, Place.put, take, close, hs]
  | atRule before after collected =>
    refine .inl ⟨.atRule before (after ++ ['}']) fun _ => [], (d.take (.mark .braceClose)).close,
      some .groupEnd, ?_⟩
    intro t
    simp [stepCode, Place.put, take, close, Scope.add, Piece.text, Mark.spelling]
  | selectors before after =>
    refine .inr ⟨(d.take (.mark .braceClose)).close,
      .selectors before after (Text.trim d.pending), ?_⟩
    intro t
    simp [stepCode, Place.put, take, close, Record.Frame.fill]

theorem keeps_stepCode (hr : d.reading = .code) (m : Mark) :
    Keeps fun t => (place.put t d).stepCode m := by
  cases m with
  | quote => exact keeps_quote place
  | commentOpen => exact keeps_commentOpen place
  | commentClose => exact keeps_take place d (.mark .commentClose) none
  | atSign => exact keeps_atSign place hr
  | semicolon => exact keeps_semicolon place
  | braceOpen => exact keeps_braceOpen place
  | braceClose => exact keeps_braceClose place

end Code

theorem keeps_step (place : Place) (d : Draft) (p : Piece) :
    Keeps fun t => (place.put t d).step p := by
  have htake := keeps_take place d p none
  have hclose := keeps_take_reading place d p .code
  cases p with
  | char c => simpa only [step_char] using htake
  | mark m =>
    cases hr : d.reading with
    | code =>
      have hcode := keeps_stepCode place hr m
      simpa only [step, Place.reading_put, hr] using hcode
    | string =>
      by_cases hm : m = .quote
      . subst hm
        cases he : d.escaped with
        | true => simpa [step, hr, he] using htake
        | false => simpa [step, hr, he] using hclose none
      . have hstep (t : Text) := step_mark_of_string (d := place.put t d) (by simpa using hr) hm
        simpa only [hstep] using htake
    | comment u =>
      by_cases hm : m = .commentClose
      . subst hm
        simpa [step, hr] using hclose (some (.text (u ++ (Piece.mark .commentClose).text)))
      . have hstep (t : Text) := step_mark_of_comment (d := place.put t d) (by simpa using hr) hm
        simpa only [hstep] using htake

theorem exists_run_put (place : Place) (d : Draft) (ps : List Piece) :
    ∃ before frame? after, ∀ t, ((place.put t d).run ps).2 =
      before ++ (Option.map (Record.Frame.fill t) frame?).toList ++ after := by
  induction ps generalizing place d with
  | nil => exact ⟨[], none, [], fun t => rfl⟩
  | cons p ps ih =>
    rcases keeps_step place d p with ⟨place', d', record?, hstep⟩ | ⟨d', frame, hstep⟩
    . rcases ih place' d' with ⟨before, frame?, after, hrun⟩
      refine ⟨record?.toList ++ before, frame?, after, ?_⟩
      intro t
      simp only [run_cons, hstep, hrun, List.append_assoc]
    . refine ⟨[], some frame, (d'.run ps).2, ?_⟩
      intro t
      simp [run_cons, hstep]

end Draft

end Stylesheet
