import Stylesheet.Record.OfText

/-!
This module contains the origins of records: the parts of a text that each of its records is made
of. They are found along with the records, by the positions that a state keeps; only the text that
is collected has to be followed besides.
-/

namespace Stylesheet

/--
The part of a text from position `start` up to position `stop`.
-/
structure Region where
  start : Nat
  stop : Nat
deriving DecidableEq, Repr

def Text.gather (t : Text) (regions : List Region) : Text :=
  regions.flatMap fun r => t.slice r.start r.stop

inductive Origin where
  | comment (region : Region)
  | atRule (region : Region)
  | rule (selectors declarations : List Region)
  | groupEnd (region : Region)
deriving DecidableEq, Repr

/--
Where the text comes from that is collected, and where the selectors of an open ruleset do.
-/
structure Trail where
  buffer : List Region
  selectors : List Region
deriving DecidableEq, Repr

namespace Trail

def start : Trail :=
  { buffer := [], selectors := [] }

def flush (g : Trail) (s : State) (n : Nat) : List Region :=
  g.buffer ++ [⟨s.taken, n⟩]

/--
Follows `State.stepCode`, and gives the origin of the record that it completes.
-/
def stepCode (g : Trail) (s : State) (d : Delimiter) : Trail × Option Origin :=
  match d.mark with
  | .commentOpen => ({ g with buffer := g.flush s d.byteOffset }, none)
  | .semicolon =>
    match s.scope with
    | .atRule start => ({ g with buffer := [] }, some (.atRule ⟨start, d.stop⟩))
    | _ => (g, none)
  | .braceOpen =>
    match s.scope with
    | .atRule start => ({ g with buffer := [] }, some (.atRule ⟨start, d.byteOffset⟩))
    | _ => ({ buffer := [], selectors := g.flush s d.byteOffset }, none)
  | .braceClose =>
    match s.scope with
    | .ruleset _ => (start, some (.rule g.selectors (g.flush s d.byteOffset)))
    | _ => ({ g with buffer := [] }, some (.groupEnd ⟨d.byteOffset, d.stop⟩))
  | _ => (g, none)

def step (g : Trail) (s : State) (d : Delimiter) : Trail × Option Origin :=
  match s.reading with
  | .code => g.stepCode s d
  | .string => (g, none)
  | .comment start =>
    if d.mark = .commentClose then (g, some (.comment ⟨start, d.stop⟩)) else (g, none)

/--
The origins of the records that `State.run` lists.
-/
def run (t : Text) : Trail → State → List Delimiter → List Origin
  | _, _, [] => []
  | g, s, d :: ds => (g.step s d).2.toList ++ run t (g.step s d).1 (s.step t d).1 ds

end Trail

namespace Origin

def ofText (t : Text) : List Origin :=
  Trail.start.run t .start (Delimiter.scan t)

def record (t : Text) : Origin → Record
  | comment r => .text (t.slice r.start r.stop)
  | atRule r => .text (Text.trim (t.slice r.start r.stop))
  | rule selectors declarations =>
    .rule (Text.trim (t.gather selectors)) (Text.trim (t.gather declarations))
  | groupEnd _ => .groupEnd

def regions : Origin → List Region
  | comment r => [r]
  | atRule r => [r]
  | rule selectors declarations => selectors ++ declarations
  | groupEnd r => [r]

/--
Whether the byte at position `n` is part of a record, or of the blanks that are cut off at its ends.
-/
def Uses (o : Origin) (n : Nat) : Prop :=
  ∃ r ∈ o.regions, r.start ≤ n ∧ n < r.stop

def Shares (o o' : Origin) : Prop :=
  ∃ n, o.Uses n ∧ o'.Uses n

/--
Whether an at-rule goes around a comment or around the closing brace of a group.
-/
def Encloses (o o' : Origin) : Prop :=
  ∃ r r', o = atRule r ∧ (o' = comment r' ∨ o' = groupEnd r') ∧
    r.start ≤ r'.start ∧ r'.stop ≤ r.stop

end Origin

namespace Trail

/--
Whether a trail tells where the texts come from that a state keeps.
-/
structure Tracks (g : Trail) (t : Text) (s : State) : Prop where
  buffer : s.buffer = t.gather g.buffer
  selectors : ∀ selectors, s.scope = .ruleset selectors →
    selectors = Text.trim (t.gather g.selectors)

variable {g : Trail} {t : Text} {s : State}

theorem tracks_start (t : Text) : start.Tracks t .start := by
  constructor
  . rfl
  . intro selectors h
    cases h

theorem Tracks.gather_flush (h : g.Tracks t s) (n : Nat) :
    (s.flush t n).buffer = t.gather (g.flush s n) := by
  simp [State.flush, flush, h.buffer, Text.gather]

theorem Tracks.of_same {s' : State} (h : g.Tracks t s) (hbuffer : s'.buffer = s.buffer)
    (hselectors : ∀ selectors, s'.scope = .ruleset selectors → s.scope = .ruleset selectors) :
    g.Tracks t s' := by
  constructor
  . rw [hbuffer, h.buffer]
  . intro selectors hs
    exact h.selectors selectors (hselectors selectors hs)

theorem Tracks.stepCode (h : g.Tracks t s) (d : Delimiter) :
    (g.stepCode s d).1.Tracks t (s.stepCode t d).1 ∧
      (g.stepCode s d).2.map (Origin.record t) = (s.stepCode t d).2 := by
  have hflush := h.gather_flush d.byteOffset
  unfold Trail.stepCode State.stepCode
  cases d.mark with
  | quote =>
    by_cases he : t.escapedAt d.byteOffset
    . simp only [he, ↓reduceIte]
      exact ⟨h, rfl⟩
    . simp only [he]
      exact ⟨h.of_same rfl fun _ hs => hs, rfl⟩
  | commentOpen => exact ⟨⟨hflush, h.selectors⟩, rfl⟩
  | commentClose => exact ⟨h, rfl⟩
  | atSign =>
    cases hs : s.scope with
    | outer => exact ⟨h.of_same rfl (by simp), rfl⟩
    | _ => exact ⟨h, rfl⟩
  | semicolon =>
    cases hs : s.scope with
    | atRule n => exact ⟨⟨rfl, by simp [State.close]⟩, rfl⟩
    | _ => exact ⟨h, rfl⟩
  | braceOpen =>
    cases hs : s.scope with
    | atRule n => exact ⟨⟨rfl, by simp [State.close]⟩, rfl⟩
    | _ => exact ⟨⟨rfl, by simp [hflush]⟩, rfl⟩
  | braceClose =>
    cases hs : s.scope with
    | ruleset selectors =>
      refine ⟨⟨rfl, by simp [State.close]⟩, ?_⟩
      simp [Origin.record, hflush, ← h.selectors selectors hs]
    | _ => exact ⟨⟨rfl, by simp⟩, rfl⟩

theorem Tracks.step (h : g.Tracks t s) (d : Delimiter) :
    (g.step s d).1.Tracks t (s.step t d).1 ∧
      (g.step s d).2.map (Origin.record t) = (s.step t d).2 := by
  unfold Trail.step State.step
  cases hr : s.reading with
  | code => exact h.stepCode d
  | string =>
    dsimp only
    split
    . exact ⟨h.of_same rfl fun _ hs => hs, rfl⟩
    . exact ⟨h, rfl⟩
  | comment n =>
    dsimp only
    split
    . exact ⟨h.of_same rfl fun _ hs => hs, rfl⟩
    . exact ⟨h, rfl⟩

theorem Tracks.run (h : g.Tracks t s) (ds : List Delimiter) :
    (g.run t s ds).map (Origin.record t) = (s.run t ds).2 := by
  induction ds generalizing g s with
  | nil => rfl
  | cons d ds ih =>
    have hstep := h.step d
    rw [Trail.run, List.map_append, ih hstep.1, State.run_cons, ← hstep.2]
    cases (g.step s d).2 <;> rfl

end Trail

theorem Origin.map_record_ofText (t : Text) : (ofText t).map (record t) = Record.ofText t :=
  (Trail.tracks_start t).run (Delimiter.scan t)

end Stylesheet
