import Stylesheet.Proofs.Draft.Basic
import Stylesheet.Proofs.Text.Position
import Stylesheet.Record.OfText

/-!
This module contains the connection of states and drafts: a state together with the text that is
read so far determines a draft, and both take the same steps and complete the same records.
-/

namespace Stylesheet

def Reading.draft (t : Text) : Reading → Draft.Reading
  | code => .code
  | string => .string
  | comment start => .comment (t.dropBytes start)

def Scope.draft (t : Text) : Scope → Draft.Scope
  | outer => .outer
  | atRule start => .atRule (t.dropBytes start)
  | ruleset selectors => .ruleset selectors

namespace State

/--
The draft for a state after the text `t`.
-/
def draft (s : State) (t : Text) : Draft :=
  { reading := s.reading.draft t
    scope := s.scope.draft t
    pending := (s.reading.draft t).collect s.buffer (t.dropBytes s.taken)
    escaped := t.escapes }

/--
Whether all positions of a state are boundaries of the text that is read so far.
-/
structure Fits (s : State) (t : Text) : Prop where
  taken : t.IsBoundary s.taken
  comment : ∀ start, s.reading = .comment start → t.IsBoundary start
  atRule : ∀ start, s.scope = .atRule start → t.IsBoundary start

theorem fits_start : start.Fits [] := by
  constructor
  . apply Text.isBoundary_zero
  . intro n h
    cases h
  . intro n h
    cases h

theorem draft_start : start.draft [] = Draft.start := by
  simp [draft, start, Draft.start, Reading.draft, Scope.draft, Draft.Reading.collect]

theorem Fits.append {s : State} {t : Text} (h : s.Fits t) (u : Text) : s.Fits (t ++ u) := by
  constructor
  . exact h.taken.append u
  . intro n hn
    exact (h.comment n hn).append u
  . intro n hn
    exact (h.atRule n hn).append u

theorem escapes_append_text (t : Text) (p : Piece) :
    (t ++ p.text).escapes = (p = .char '\\' && !t.escapes : Bool) := by
  cases p with
  | char c => by_cases h : c = '\\' <;> simp [Piece.text, Text.escapes_concat, h]
  | mark m =>
    rcases m.spelling_eq_concat with ⟨u, c, hm, hc⟩
    simp [Piece.text, hm, ← List.append_assoc, Text.escapes_concat, hc]

theorem draft_append {s : State} {t : Text} (h : s.Fits t) (p : Piece) :
    s.draft (t ++ p.text) = (s.draft t).take p := by
  have htaken := h.taken.dropBytes_append p.text
  unfold draft Draft.take
  simp only [escapes_append_text, Draft.mk.injEq, and_true]
  refine ⟨?_, ?_, ?_⟩
  . cases hr : s.reading with
    | comment n => simp [Reading.draft, Draft.Reading.add, (h.comment n hr).dropBytes_append]
    | _ => rfl
  . cases hs : s.scope with
    | atRule n => simp [Scope.draft, Draft.Scope.add, (h.atRule n hs).dropBytes_append]
    | _ => rfl
  . cases hr : s.reading with
    | comment n => rfl
    | _ => simp [Reading.draft, Draft.Reading.collect, htaken]

theorem stop_mk (m : Mark) (before : Text) (k : Nat) :
    Delimiter.stop ⟨m, before.byteSize, k⟩ = (before ++ m.spelling).byteSize := by
  simp [Delimiter.stop, Mark.byteSize_spelling]

section Step

variable {s : State} {before : Text}

/--
What a state and its draft do with a mark between `before` and `after`.
-/
def StepsAlike (s : State) (before : Text) (m : Mark) (k : Nat) (after : Text) : Prop :=
  let next := s.step (before ++ m.spelling ++ after) ⟨m, before.byteSize, k⟩
  (next.1.draft (before ++ m.spelling), next.2) = (s.draft before).step (.mark m)

theorem stepsAlike_of_comment (h : s.Fits before) {n : Nat} (hr : s.reading = .comment n)
    (m : Mark) (k : Nat) (after : Text) : StepsAlike s before m k after := by
  have hnext := draft_append h (.mark m)
  have hreading : (s.draft before).reading = .comment (before.dropBytes n) := by
    simp [draft, Reading.draft, hr]
  unfold StepsAlike
  by_cases hm : m = .commentClose
  . have hslice := ((h.comment n hr).append m.spelling).slice_eq after
    rw [(h.comment n hr).dropBytes_append] at hslice
    subst hm
    simp only [step, hr, Draft.step, hreading, ↓reduceIte, stop_mk, hslice, ← hnext]
    simp [draft, Reading.draft, Draft.Reading.collect, hr, Piece.text, -Text.byteSize_append]
  . rw [Draft.step_mark_of_comment hreading hm, ← hnext]
    simp [step, hr, hm, Piece.text]

theorem stepsAlike_of_string (h : s.Fits before) (hr : s.reading = .string) (m : Mark) (k : Nat)
    (after : Text) : StepsAlike s before m k after := by
  have hnext := draft_append h (.mark m)
  have hreading : (s.draft before).reading = .string := by
    simp [draft, Reading.draft, hr]
  have hescaped : (s.draft before).escaped = before.escapes := rfl
  unfold StepsAlike
  by_cases hm : m = .quote
  . subst hm
    cases he : before.escapes with
    | true => simp [step, hr, Draft.step, hreading, hescaped, he, ← hnext, Piece.text]
    | false =>
      simp only [step, hr, Draft.step, hreading, hescaped, he, ← hnext]
      simp [draft, Reading.draft, Draft.Reading.collect, hr, he, Piece.text]
  . rw [Draft.step_mark_of_string hreading hm, ← hnext]
    simp [step, hr, hm, Piece.text]

theorem stepsAlike_of_code (h : s.Fits before) (hr : s.reading = .code) (m : Mark) (k : Nat)
    (after : Text) : StepsAlike s before m k after := by
  have hnext : s.draft (before ++ m.spelling) = (s.draft before).take (.mark m) :=
    draft_append h (.mark m)
  have hreading : (s.draft before).reading = .code := by
    simp [draft, Reading.draft, hr]
  have hscope : (s.draft before).scope = s.scope.draft before := rfl
  have hescaped : (before ++ m.spelling ++ after).escapedAt before.byteSize =
      (s.draft before).escaped := by
    simp [draft]
  have hpending : s.buffer ++ (before ++ m.spelling ++ after).slice s.taken before.byteSize =
      (s.draft before).pending := by
    simp [draft, Reading.draft, Draft.Reading.collect, hr, h.taken.slice_eq]
  have hhead (n : Nat) (hs : s.scope = .atRule n) :
      (before ++ m.spelling ++ after).slice n before.byteSize = before.dropBytes n := by
    rw [List.append_assoc, (h.atRule n hs).slice_eq]
  have hrule (n : Nat) (hs : s.scope = .atRule n) :
      (before ++ m.spelling ++ after).slice n (before ++ m.spelling).byteSize =
        before.dropBytes n ++ m.spelling := by
    rw [((h.atRule n hs).append m.spelling).slice_eq, (h.atRule n hs).dropBytes_append]
  have hstop := stop_mk m before k
  have hdrop := Text.dropBytes_byteSize (before ++ m.spelling)
  have hopen := Text.dropBytes_append before m.spelling
  unfold StepsAlike
  simp only [step, hr, Draft.step, hreading]
  -- From here on the step is a matter of fields; where the text was cut no longer counts.
  generalize before ++ m.spelling ++ after = t at *
  generalize before ++ m.spelling = now at *
  cases m with
  | quote =>
    cases he : (s.draft before).escaped with
    | true => simp [stepCode, Draft.stepCode, hescaped, he, ← hnext]
    | false =>
      simp only [stepCode, Draft.stepCode, hescaped, he, ← hnext]
      simp [draft, Reading.draft, Draft.Reading.collect, hr]
  | commentOpen =>
    simp only [stepCode, Draft.stepCode, ← hnext, ← hpending, flush]
    simp [draft, Reading.draft, Draft.Reading.collect, hopen]
  | commentClose => simp [stepCode, Draft.stepCode, ← hnext]
  | atSign =>
    cases hs : s.scope with
    | outer =>
      simp only [stepCode, Draft.stepCode, ← hnext, hscope, hs, Scope.draft]
      simp [draft, Scope.draft, hopen]
    | _ => simp [stepCode, Draft.stepCode, ← hnext, hscope, hs, Scope.draft]
  | semicolon =>
    cases hs : s.scope with
    | atRule n =>
      simp only [stepCode, Draft.stepCode, ← hnext, hscope, hs, Scope.draft, hstop, hrule]
      simp [draft, Scope.draft, close, Draft.close, Draft.Reading.collect, hr, Reading.draft, hdrop]
    | _ => simp [stepCode, Draft.stepCode, ← hnext, hscope, hs, Scope.draft]
  | braceOpen =>
    cases hs : s.scope with
    | atRule n =>
      simp only [stepCode, Draft.stepCode, ← hnext, hscope, hs, Scope.draft, hstop, hhead]
      simp [draft, Scope.draft, close, Draft.close, Draft.Reading.collect, hr, Reading.draft, hdrop]
    | _ =>
      simp only [stepCode, Draft.stepCode, ← hnext, hscope, hs, Scope.draft, hstop, flush, hpending]
      simp [draft, Scope.draft, close, Draft.close, Draft.Reading.collect, hr, Reading.draft, hdrop]
  | braceClose =>
    cases hs : s.scope with
    | ruleset selectors =>
      simp only [stepCode, Draft.stepCode, ← hnext, hscope, hs, Scope.draft, hstop, flush, hpending]
      simp [draft, Scope.draft, close, Draft.close, Draft.Reading.collect, hr, Reading.draft, hdrop]
    | _ =>
      simp only [stepCode, Draft.stepCode, ← hnext, hscope, hs, Scope.draft, hstop]
      simp [draft, Scope.draft, close, Draft.close, Draft.Reading.collect, hr, hs, Reading.draft,
        hdrop]

theorem stepsAlike (h : s.Fits before) (m : Mark) (k : Nat) (after : Text) :
    StepsAlike s before m k after := by
  cases hr : s.reading with
  | code => exact stepsAlike_of_code h hr m k after
  | string => exact stepsAlike_of_string h hr m k after
  | comment n => exact stepsAlike_of_comment h hr m k after

theorem Fits.step (h : s.Fits before) (t : Text) (m : Mark) (k : Nat) :
    (s.step t ⟨m, before.byteSize, k⟩).1.Fits (before ++ m.spelling) := by
  have hs := h.append m.spelling
  have hbefore := (Text.isBoundary_byteSize before).append m.spelling
  have hnow := stop_mk m before k ▸ Text.isBoundary_byteSize (before ++ m.spelling)
  rcases hs with ⟨htaken, hcomment, hatRule⟩
  generalize before ++ m.spelling = now at *
  unfold State.step stepCode flush close
  repeat' split
  all_goals
    constructor
    . simp_all
    . simp_all
    . simp_all

end Step

/--
What a state and its draft do with all delimiters of the text `after`, which follows `before`.
-/
def RunsAlike (s : State) (before after : Text) : Prop :=
  ∀ ds : List Delimiter, ds.map Delimiter.span = Span.scanFrom before.byteSize after →
    let last := s.run (before ++ after) ds
    last.1.Fits (before ++ after) ∧
      (last.1.draft (before ++ after), last.2) = (s.draft before).read after

theorem runsAlike_mark {s : State} {before : Text} (h : s.Fits before) (m : Mark) {after : Text}
    (ih : ∀ s' : State,
      s'.Fits (before ++ m.spelling) → RunsAlike s' (before ++ m.spelling) after) :
    RunsAlike s before (m.spelling ++ after) := by
  intro ds hds
  rw [Span.scanFrom_mark] at hds
  cases ds with
  | nil => simp at hds
  | cons d ds =>
    simp only [List.map_cons, List.cons.injEq] at hds
    rcases hds with ⟨hd, hds⟩
    rcases d with ⟨m', n, k⟩
    rcases Span.mk.inj hd with ⟨rfl, rfl⟩
    have hstep := stepsAlike h m' k after
    have hfits := h.step (before ++ m'.spelling ++ after) m' k
    have hlast := ih _ hfits ds (by simpa [Mark.byteSize_spelling] using hds)
    unfold StepsAlike at hstep
    simp only [Prod.ext_iff] at hstep hlast ⊢
    rw [← List.append_assoc, run_cons, Draft.read, Piece.ofText_mark, Draft.run_cons, ← hstep.1,
      ← hstep.2, ← Draft.read]
    exact ⟨hlast.1, hlast.2.1, by rw [← hlast.2.2]⟩

theorem runsAlike {s : State} {before : Text} (h : s.Fits before) (after : Text) :
    RunsAlike s before after := by
  induction after using Piece.induction generalizing s before with
  | nil =>
    intro ds hds
    have hnil : ds = [] := by
      simpa [Span.scanFrom] using hds
    subst hnil
    simpa using h
  | mark m t ih => exact runsAlike_mark h m fun s' hs' => ih hs'
  | char c t hc hjoins ih =>
    intro ds hds
    rw [Span.scanFrom_char _ hc hjoins] at hds
    have hlast := ih (h.append [c]) ds (by simpa using hds)
    have hnext : s.draft (before ++ [c]) = (s.draft before).take (.char c) :=
      draft_append h (.char c)
    rw [List.append_assoc, hnext] at hlast
    rw [Draft.read, Piece.ofText_char hc hjoins, Draft.run_cons, Draft.step_char]
    exact hlast

theorem fits_ofText (t : Text) : (ofText t).Fits t :=
  (runsAlike fits_start t _ (Delimiter.map_span_scan t)).1

theorem draft_ofText (t : Text) : (ofText t).draft t = (Draft.start.read t).1 := by
  have h := (runsAlike fits_start t _ (Delimiter.map_span_scan t)).2
  rw [draft_start] at h
  exact congrArg Prod.fst h

theorem reading_ofText_eq_code_iff {t : Text} :
    (ofText t).reading = .code ↔ (Draft.start.read t).1.reading = .code := by
  rw [← draft_ofText]
  cases h : (ofText t).reading <;> simp [draft, h, Reading.draft]

end State

theorem Record.ofText_eq_read (t : Text) : Record.ofText t = (Draft.start.read t).2 := by
  have h := (State.runsAlike State.fits_start t _ (Delimiter.map_span_scan t)).2
  rw [State.draft_start] at h
  exact congrArg Prod.snd h

/--
The delimiters of a text cut it into its pieces, and a draft that takes these pieces one after the
other, without positions, ends as the state does and completes the same records.
-/
theorem Draft.run_ofText (t : Text) :
    (Piece.ofText t).flatMap Piece.text = t ∧
      Piece.spansFrom 0 (Piece.ofText t) = (Delimiter.scan t).map Delimiter.span ∧
      start.run (Piece.ofText t) = ((State.ofText t).draft t, Record.ofText t) := by
  refine ⟨Piece.flatMap_text_ofText t, ?_, ?_⟩
  . rw [Piece.spansFrom_ofText, Delimiter.map_span_scan]
  . have hdraft := State.draft_ofText t
    have hrecords := Record.ofText_eq_read t
    rw [hdraft, hrecords, read]

end Stylesheet
