import Stylesheet.Proofs.Draft.Clear
import Stylesheet.Proofs.Text.Sealed

/-!
This module contains what is read from texts that do not end what they are part of: sealed texts,
which are collected, and the texts of comments.
-/

namespace Stylesheet

namespace Draft

/--
The signs in ordinary text that begin or end anything but strings and comments.
-/
def Scope.stops : Scope → List Char
  | outer => ['{', '}', '@']
  | atRule _ => ['{', '}', ';']
  | ruleset _ => ['{', '}']

@[simp]
theorem Scope.stops_add (t : Text) (scope : Scope) : (scope.add t).stops = scope.stops := by
  cases scope <;> rfl

@[simp]
theorem Scope.add_nil (scope : Scope) : scope.add [] = scope := by
  cases scope <;> simp [Scope.add]

@[simp]
theorem Scope.add_add (t u : Text) (scope : Scope) : (scope.add t).add u = scope.add (t ++ u) := by
  cases scope <;> simp [Scope.add]

def Reading.ofString (inString : Bool) : Reading :=
  if inString then .string else .code

/--
The draft after `t` when nothing but strings begins or ends in it.
-/
def collect (d : Draft) (t : Text) (inString escaped : Bool) : Draft :=
  { reading := .ofString inString
    scope := d.scope.add t
    pending := d.pending ++ t
    escaped }

theorem take_eq_collect {d : Draft} {inString : Bool} (h : d.reading = .ofString inString)
    (p : Piece) : d.take p = d.collect p.text inString (p = .char '\\' && !d.escaped) := by
  cases inString
  . simp [take, collect, h, Reading.ofString, Reading.add, Reading.collect]
  . simp [take, collect, h, Reading.ofString, Reading.add, Reading.collect]

theorem step_mark_of_isSealedFrom {d : Draft} {inString : Bool}
    (h : d.reading = .ofString inString) {m : Mark} {t : Text}
    (ht : Text.isSealedFrom d.scope.stops inString d.escaped (m.spelling ++ t)) :
    ∃ inString', d.step (.mark m) = (d.collect m.spelling inString' false, none) ∧
      Text.isSealedFrom d.scope.stops inString' false t := by
  have htake := take_eq_collect h (.mark m)
  cases inString with
  | true =>
    have hr : d.reading = .string := h
    cases m with
    | quote =>
      cases he : d.escaped with
      | true =>
        refine ⟨true, by simp [step, hr, he, htake, Piece.text], ?_⟩
        simpa [Mark.spelling, Text.isSealedFrom, he] using ht
      | false =>
        refine ⟨false, by simp [step, hr, he, htake, Piece.text, collect, Reading.ofString], ?_⟩
        simpa [Mark.spelling, Text.isSealedFrom, he] using ht
    | _ =>
      refine ⟨true, by rw [step_mark_of_string hr (by decide), htake]; rfl, ?_⟩
      simpa [Mark.spelling, Text.isSealedFrom] using ht
  | false =>
    have hr : d.reading = .code := h
    cases m with
    | quote =>
      cases he : d.escaped with
      | true =>
        refine ⟨false, by simp [step, stepCode, hr, he, htake, Piece.text], ?_⟩
        simp only [Mark.spelling, List.singleton_append, Text.isSealedFrom, he] at ht
        simp_all
      | false =>
        refine ⟨true, ?_, ?_⟩
        . simp [step, stepCode, hr, he, htake, Piece.text, collect, Reading.ofString]
        . simpa [Mark.spelling, Text.isSealedFrom, he] using ht
    | commentOpen => simp [Mark.spelling, Text.isSealedFrom] at ht
    | commentClose =>
      refine ⟨false, by simp [step, stepCode, hr, htake, Piece.text], ?_⟩
      simp only [Mark.spelling, List.cons_append, List.nil_append, Text.isSealedFrom] at ht
      simp_all
    | atSign =>
      cases hs : d.scope with
      | outer => simp [Mark.spelling, Text.isSealedFrom, hs, Scope.stops] at ht
      | _ =>
        refine ⟨false, by simp [step, stepCode, hr, hs, htake, Piece.text], ?_⟩
        simpa [Mark.spelling, Text.isSealedFrom, hs, Scope.stops] using ht
    | semicolon =>
      cases hs : d.scope with
      | atRule u => simp [Mark.spelling, Text.isSealedFrom, hs, Scope.stops] at ht
      | _ =>
        refine ⟨false, by simp [step, stepCode, hr, hs, htake, Piece.text], ?_⟩
        simpa [Mark.spelling, Text.isSealedFrom, hs, Scope.stops] using ht
    | braceOpen =>
      cases hs : d.scope <;> simp [Mark.spelling, Text.isSealedFrom, hs, Scope.stops] at ht
    | braceClose =>
      cases hs : d.scope <;> simp [Mark.spelling, Text.isSealedFrom, hs, Scope.stops] at ht

theorem isSealedFrom_char {stops : List Char} {inString escaped : Bool} {c : Char} {t : Text}
    (hc : Mark.ofChar? c = none)
    (h : Text.isSealedFrom stops inString escaped (c :: t)) :
    Text.isSealedFrom stops inString (c == '\\' && !escaped) t := by
  have hquote : (c == '"') = false := by
    rw [beq_eq_false_iff_ne]
    intro heq
    subst heq
    cases hc
  rw [Text.isSealedFrom, hquote] at h
  simp only [Bool.false_and, Bool.false_eq_true, ↓reduceIte, Bool.and_eq_true] at h
  exact h.2

theorem read_of_isSealedFrom {d : Draft} {inString : Bool} (h : d.reading = .ofString inString)
    {t : Text} (ht : Text.isSealedFrom d.scope.stops inString d.escaped t) :
    ∃ escaped, d.read t = (d.collect t false escaped, []) := by
  unfold read
  induction t using Piece.induction generalizing d inString with
  | nil =>
    have hclosed : inString = false := by
      simpa [Text.isSealedFrom] using ht
    subst hclosed
    refine ⟨d.escaped, ?_⟩
    simp [Piece.ofText, collect, ← h]
  | mark m t ih =>
    rcases step_mark_of_isSealedFrom h ht with ⟨inString', hstep, hrest⟩
    rcases ih (d := d.collect m.spelling inString' false) rfl (by simpa [collect] using hrest) with
      ⟨escaped, hread⟩
    refine ⟨escaped, ?_⟩
    rw [Piece.ofText_mark, run_cons, hstep, hread]
    simp [collect]
  | char c t hc hjoins ih =>
    have hrest := isSealedFrom_char hc ht
    have htake := take_eq_collect h (.char c)
    rcases ih (d := d.collect [c] inString (c == '\\' && !d.escaped)) rfl
      (by simpa [collect] using hrest) with ⟨escaped, hread⟩
    refine ⟨escaped, ?_⟩
    rw [Piece.ofText_char hc hjoins, run_cons, step_char, htake]
    have hchar : (decide (Piece.char c = .char '\\') && !d.escaped) =
        (c == '\\' && !d.escaped) := by
      by_cases hb : c = '\\' <;> simp [hb]
    rw [hchar, Piece.text, hread]
    simp [collect]

theorem read_of_isSealed {d : Draft} (hr : d.reading = .code) (he : d.escaped = false) {t : Text}
    (ht : Text.isSealed d.scope.stops t) :
    ∃ escaped, d.read t = (d.collect t false escaped, []) := by
  have hstring : d.reading = .ofString false := hr
  apply read_of_isSealedFrom hstring
  rw [he]
  exact ht

theorem spelling_infix_of_mem {m : Mark} {t : Text} (h : .mark m ∈ Piece.ofText t) :
    m.spelling <:+: t := by
  induction t using Piece.induction with
  | nil => cases h
  | mark m' t ih =>
    rw [Piece.ofText_mark, List.mem_cons] at h
    rcases h with h | h
    . cases h
      exact (List.prefix_append m.spelling t).isInfix
    . exact (ih h).trans (List.suffix_append m'.spelling t).isInfix
  | char c t hc hjoins ih =>
    rw [Piece.ofText_char hc hjoins, List.mem_cons] at h
    rcases h with h | h
    . cases h
    . exact (ih h).trans (List.suffix_cons c t).isInfix

theorem run_comment {d : Draft} {u : Text} (h : d.reading = .comment u) {ps : List Piece}
    (hps : .mark .commentClose ∉ ps) :
    ∃ escaped, d.run ps =
      ({ reading := .comment (u ++ ps.flatMap Piece.text)
         scope := d.scope.add (ps.flatMap Piece.text)
         pending := d.pending
         escaped }, []) := by
  induction ps generalizing d u with
  | nil => exact ⟨d.escaped, by simp [← h]⟩
  | cons p ps ih =>
    simp only [List.mem_cons, not_or] at hps
    have hstep : d.step p = (d.take p, none) := by
      cases p with
      | char c => exact step_char d c
      | mark m =>
        apply step_mark_of_comment h
        intro heq
        exact hps.1 (by rw [heq])
    rcases ih (d := d.take p) (u := u ++ p.text) (by simp [take, h, Reading.add]) hps.2 with
      ⟨escaped, hrun⟩
    refine ⟨escaped, ?_⟩
    rw [run_cons, hstep, hrun]
    simp [take, h, Reading.collect]

/--
A comment goes on as long as there is no `*/`.
-/
theorem read_open {d : Draft} (h : d.reading = .code) {body : Text}
    (hbody : ¬['*', '/'] <:+: body) :
    ∃ escaped, d.read ('/' :: '*' :: body) =
      ({ reading := .comment ('/' :: '*' :: body)
         scope := d.scope.add ('/' :: '*' :: body)
         pending := d.pending
         escaped }, []) := by
  have hmem : .mark .commentClose ∉ Piece.ofText body := by
    intro hmem
    exact hbody (spelling_infix_of_mem hmem)
  have hopen : d.step (.mark .commentOpen) =
      ({ reading := .comment ['/', '*']
         scope := d.scope.add ['/', '*']
         pending := d.pending
         escaped := false }, none) := by
    simp [step, h, stepCode, take, Piece.text, Mark.spelling]
  rcases run_comment (d := (d.step (.mark .commentOpen)).1) (by rw [hopen]) hmem with
    ⟨escaped, hrun⟩
  refine ⟨escaped, ?_⟩
  rw [hopen] at hrun
  rw [read, Piece.ofText, run_cons, hopen, hrun, Piece.flatMap_text_ofText]
  simp

/--
A comment closes at the first `*/` unless there is a `/` right before that.
-/
theorem read_comment {d : Draft} (h : d.reading = .code) {body : Text}
    (hclose : ¬['*', '/'] <:+: body) (hlast : body.getLast? ≠ some '/') :
    d.read ('/' :: '*' :: (body ++ ['*', '/'])) =
      ({ reading := .code
         scope := d.scope.add ('/' :: '*' :: (body ++ ['*', '/']))
         pending := d.pending
         escaped := false }, [.text ('/' :: '*' :: (body ++ ['*', '/']))]) := by
  rcases read_open h hclose with ⟨escaped, hopen⟩
  have happend := read_append d (Piece.not_joins_star hlast [] ['/'])
  rw [List.nil_append] at happend
  rw [hopen] at happend
  simpa [read, Piece.ofText, run_cons, step, take, Reading.collect, Piece.text, Mark.spelling]
    using happend

end Draft

end Stylesheet
