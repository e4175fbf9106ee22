import Stylesheet.Proofs.Draft.Reads
import Stylesheet.Proofs.Draft.Refinement

/-!
This module contains what a closing brace ends. After a brace outside of comments and strings the
text is read as if it stood at the start of a style sheet, whatever was open before, unless this is
an at-rule: that one goes on, with the brace in its text.
-/

namespace Stylesheet

namespace Draft

/--
What is open after a closing brace.
-/
def Scope.afterBrace : Scope → Scope
  | atRule t => atRule (t ++ ['}'])
  | _ => outer

theorem step_braceClose {d : Draft} (hr : d.reading = .code) :
    (d.step (.mark .braceClose)).1 = { start with scope := d.scope.afterBrace } := by
  cases hs : d.scope <;>
    simp [step, hr, stepCode, hs, close, take, Scope.add, Scope.afterBrace, Reading.add, start,
      Piece.text, Mark.spelling]

theorem read_append_brace {a : Text} (hr : (start.read a).1.reading = .code) (b : Text) :
    start.read (a ++ '}' :: b) =
      (({ start with scope := (start.read a).1.scope.afterBrace }.read b).1,
        (start.read (a ++ ['}'])).2 ++
          ({ start with scope := (start.read a).1.scope.afterBrace }.read b).2) := by
  have hbrace := read_append_cons start a (c := '}') (by decide) (by decide)
  have hpiece : Piece.ofChar '}' = .mark .braceClose := rfl
  simp only [hbrace, hpiece, step_braceClose hr, read_nil, List.append_nil, List.append_assoc]

theorem read_atRule_semicolon (u : Text) {t : Text} (ht : Text.isSealed ['{', '}', ';'] t) :
    ({ start with scope := .atRule u }.read (t ++ [';'])).2 =
      [.text (Text.trim (u ++ (t ++ [';'])))] := by
  rcases read_of_isSealed (d := { start with scope := .atRule u }) rfl rfl ht with ⟨escaped, hread⟩
  have hend := read_append_cons { start with scope := .atRule u } t (c := ';') (by decide)
    (by decide) []
  have hpiece : Piece.ofChar ';' = .mark .semicolon := rfl
  rw [hend, hread, hpiece]
  simp [step, collect, Reading.ofString, stepCode, Scope.add, start, Mark.spelling]

end Draft

namespace Record

variable {a : Text}

theorem ofText_append_brace (hr : (State.ofText a).reading = .code) (b : Text) :
    ofText (a ++ '}' :: b) =
      ofText (a ++ ['}']) ++
        ({ Draft.start with scope := ((State.ofText a).scope.draft a).afterBrace }.read b).2 := by
  have hscope : (State.ofText a).scope.draft a = (Draft.start.read a).1.scope := by
    rw [← State.draft_ofText]
    rfl
  have hread := Draft.read_append_brace (State.reading_ofText_eq_code_iff.1 hr) b
  rw [ofText_eq_read, ofText_eq_read, hread, hscope]

theorem ofText_append_brace_atRule (hr : (State.ofText a).reading = .code) {start : Nat}
    (hs : (State.ofText a).scope = .atRule start) {t : Text}
    (ht : Text.isSealed ['{', '}', ';'] t) :
    ofText (a ++ '}' :: (t ++ [';'])) =
      ofText (a ++ ['}']) ++ [.text (Text.trim (a.dropBytes start ++ '}' :: (t ++ [';'])))] := by
  rw [ofText_append_brace hr, hs, Scope.draft, Draft.Scope.afterBrace,
    Draft.read_atRule_semicolon _ ht, List.append_assoc]
  rfl

/--
A closing brace outside of comments and strings ends all that is open before it, so that any text
after it is read as if it stood alone, if and only if no at-rule is open there. An at-rule takes
the brace into its text, and all that comes before its semicolon.
-/
theorem ofText_append_brace_iff (hr : (State.ofText a).reading = .code) :
    ((∀ b, ofText (a ++ '}' :: b) = ofText (a ++ ['}']) ++ ofText b) ↔
        ∀ start, (State.ofText a).scope ≠ .atRule start) ∧
      ∀ start, (State.ofText a).scope = .atRule start →
        ∀ t, Text.isSealed ['{', '}', ';'] t →
          ofText (a ++ '}' :: (t ++ [';'])) =
            ofText (a ++ ['}']) ++
              [.text (Text.trim (a.dropBytes start ++ '}' :: (t ++ [';'])))] := by
  have hatRule (start : Nat) (hs : (State.ofText a).scope = .atRule start) :=
    @ofText_append_brace_atRule a hr start hs
  refine ⟨⟨?_, ?_⟩, fun start hs t => hatRule start hs⟩
  . intro h start hs
    -- a semicolon alone completes the at-rule, but is no record by itself
    have hend := hatRule start hs (t := []) rfl
    rw [List.nil_append, h, List.append_cancel_left_eq] at hend
    cases hend
  . intro hscope b
    have houter : ((State.ofText a).scope.draft a).afterBrace = .outer := by
      cases hs : (State.ofText a).scope with
      | atRule start => exact absurd hs (hscope start)
      | _ => rfl
    rw [ofText_append_brace hr, houter, ofText_eq_read b]
    rfl

/--
A brace ends a ruleset although another one is open in it.
-/
theorem ofText_append_brace_nested :
    (State.ofText "p\x7bq: r; s\x7b\\".toList).reading = .code ∧
      (∀ start, (State.ofText "p\x7bq: r; s\x7b\\".toList).scope ≠ .atRule start) ∧
      ofText ("p\x7bq: r; s\x7b\\".toList ++ '}' :: "\"\" */ @a;".toList) =
        ofText ("p\x7bq: r; s\x7b\\".toList ++ ['}']) ++ ofText "\"\" */ @a;".toList := by
  have hreading : (State.ofText "p\x7bq: r; s\x7b\\".toList).reading = .code := by decide
  have hscope : (State.ofText "p\x7bq: r; s\x7b\\".toList).scope = .ruleset "q: r; s".toList := by
    decide
  have hatRule : ∀ start, (State.ofText "p\x7bq: r; s\x7b\\".toList).scope ≠ .atRule start := by
    intro start
    rw [hscope]
    exact Scope.noConfusion
  exact ⟨hreading, hatRule, (ofText_append_brace_iff hreading).1.2 hatRule _⟩

/--
An at-rule that is open at a closing brace is completed by the text after it.
-/
theorem ofText_append_brace_open :
    (State.ofText ['@', 'a']).reading = .code ∧
      ofText (['@', 'a'] ++ '}' :: ['b', ';']) = [.groupEnd, .text "@a\x7db;".toList] ∧
      ofText (['@', 'a'] ++ ['}']) ++ ofText ['b', ';'] = [.groupEnd] := by
  decide

end Record

end Stylesheet
