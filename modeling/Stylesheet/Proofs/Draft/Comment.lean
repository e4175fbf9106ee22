import Stylesheet.Proofs.Draft.Refinement
import Stylesheet.Proofs.Draft.Sealed

/-!
This module contains comments as drafts see them, character by character: where one opens and
closes, and where the sign before its `/*` or `*/` makes another mark there.
-/

namespace Stylesheet

namespace Draft

/--
Whether the text of an open at-rule starts with its `@`.
-/
def Headed (d : Draft) : Prop :=
  ∀ t, d.scope = .atRule t → t.head? = some '@'

theorem headed_start : start.Headed := by
  intro t h
  cases h

theorem Headed.take {d : Draft} (h : d.Headed) (p : Piece) : (d.take p).Headed := by
  intro t ht
  cases hs : d.scope with
  | atRule u =>
    have hu := h u hs
    simp only [Draft.take, hs, Scope.add, Scope.atRule.injEq] at ht
    rw [← ht, List.head?_append, hu]
    rfl
  | _ => simp [Draft.take, hs, Scope.add] at ht

theorem scope_step (d : Draft) (p : Piece) :
    (d.step p).1.scope = d.scope.add p.text ∨ (d.step p).1.scope = .outer ∨
      (∃ selectors, (d.step p).1.scope = .ruleset selectors) ∨
      (d.step p).1.scope = .atRule ['@'] := by
  unfold Draft.step Draft.stepCode Draft.close Draft.take
  repeat' split
  all_goals simp [Mark.spelling]

theorem Headed.step {d : Draft} (h : d.Headed) (p : Piece) : (d.step p).1.Headed := by
  intro t ht
  rcases scope_step d p with hs | hs | ⟨selectors, hs⟩ | hs
  . cases hd : d.scope with
    | atRule u =>
      rw [hs, hd, Scope.add, Scope.atRule.injEq] at ht
      rw [← ht, List.head?_append, h u hd]
      rfl
    | _ => simp [hs, hd, Scope.add] at ht
  . simp [hs] at ht
  . simp [hs] at ht
  . rw [hs, Scope.atRule.injEq] at ht
    rw [← ht]
    rfl

theorem Headed.run {d : Draft} (h : d.Headed) (ps : List Piece) : (d.run ps).1.Headed := by
  induction ps generalizing d with
  | nil => exact h
  | cons p ps ih => exact ih (h.step p)

end Draft

namespace Record

def isComment : Record → Bool
  | text ('/' :: '*' :: _) => true
  | _ => false

theorem isComment_text_of_head? {t : Text} (h : t.head? = some '@') :
    isComment (text (Text.trim t)) = false := by
  rcases List.head?_eq_some_iff.1 (Text.head?_trim h rfl) with ⟨u, hu⟩
  rw [hu]
  rfl

end Record

namespace Draft

variable {d : Draft} {inString : Bool}

/--
A text comes to its end as a record in two ways: a comment is closed, or an at-rule is.
-/
theorem step_text_cases {p : Piece} {t : Text} (h : (d.step p).2 = some (.text t)) :
    (∃ u, d.reading = .comment u ∧ t = u ++ ['*', '/']) ∨
      ∃ u w, d.reading = .code ∧ d.scope = .atRule u ∧ t = Text.trim (u ++ w) := by
  unfold step at h
  split at h
  . next m hcode =>
    cases hs : d.scope with
    | atRule u =>
      cases m with
      | semicolon =>
        simp only [stepCode, hs, Option.some.injEq, Record.text.injEq] at h
        exact .inr ⟨u, _, hcode, rfl, h.symm⟩
      | braceOpen =>
        simp only [stepCode, hs, Option.some.injEq, Record.text.injEq] at h
        exact .inr ⟨u, [], hcode, rfl, by rw [List.append_nil, h]⟩
      | quote => cases he : d.escaped <;> simp [stepCode, he] at h
      | _ => simp [stepCode, hs] at h
    | _ =>
      cases m with
      | quote => cases he : d.escaped <;> simp [stepCode, he] at h
      | _ => simp [stepCode, hs] at h
  . cases he : d.escaped <;> simp [he] at h
  . next u hcomment =>
    simp only [Option.some.injEq, Record.text.injEq] at h
    exact .inl ⟨u, hcomment, h.symm⟩
  . cases h

theorem isComment_of_mem_step (h : d.Headed) (hr : d.reading = .ofString inString) (p : Piece) :
    ∀ r ∈ (d.step p).2, r.isComment = false := by
  intro r hmem
  cases r with
  | text t =>
    rcases step_text_cases hmem with ⟨u, hcomment, -⟩ | ⟨u, w, -, hscope, rfl⟩
    . rw [hr] at hcomment
      cases inString <;> cases hcomment
    . apply Record.isComment_text_of_head?
      rw [List.head?_append, h u hscope]
      rfl
  | _ => rfl

theorem reading_take (hr : d.reading = .ofString inString) (p : Piece) :
    (d.take p).reading = .ofString inString := by
  rw [take_eq_collect hr]
  rfl

theorem reading_of_take {p : Piece} (h : (d.take p).reading = .ofString inString) :
    d.reading = .ofString inString := by
  cases hd : d.reading with
  | comment t => cases inString <;> simp [take, hd, Reading.add, Reading.ofString] at h
  | _ => simpa [take, hd, Reading.add] using h

theorem reading_step (hr : d.reading = .ofString inString) {p : Piece}
    (hquote : p = .mark .quote → d.escaped) (hopen : p = .mark .commentOpen → inString) :
    (d.step p).1.reading = .ofString inString := by
  have htake := reading_take hr p
  cases p with
  | char c => rwa [step_char]
  | mark m =>
    cases inString with
    | true =>
      have hstring : d.reading = .string := hr
      by_cases hm : m = .quote
      . subst hm
        simpa [step, hstring, hquote] using htake
      . rwa [step_mark_of_string hstring hm]
    | false =>
      have hcode : d.reading = .code := hr
      cases m with
      | quote => simpa [step, hcode, stepCode, hquote] using htake
      | commentOpen => simp at hopen
      | commentClose => simpa [step, hcode, stepCode] using htake
      | _ => cases hs : d.scope <;> simpa [step, hcode, stepCode, hs, close] using htake

theorem reading_step_quote (hr : d.reading = .ofString inString) (he : d.escaped = false) :
    (d.step (.mark .quote)).1.reading = .ofString !inString := by
  cases inString with
  | true =>
    have hstring : d.reading = .string := hr
    simp [step, hstring, he, Reading.ofString]
  | false =>
    have hcode : d.reading = .code := hr
    simp [step, hcode, stepCode, he, Reading.ofString]

theorem escaped_read (t : Text) : (start.read t).1.escaped = t.escapes := by
  rw [← State.draft_ofText]
  rfl

theorem filter_isComment_step (h : d.Headed) (hr : d.reading = .ofString inString) (p : Piece) :
    (d.step p).2.toList.filter Record.isComment = [] := by
  rw [List.filter_eq_nil_iff]
  intro r hmem
  simp [isComment_of_mem_step h hr p r (Option.mem_toList.1 hmem)]

theorem run_concat (d : Draft) (ps : List Piece) (p : Piece) :
    d.run (ps ++ [p]) =
      (((d.run ps).1.step p).1, (d.run ps).2 ++ ((d.run ps).1.step p).2.toList) := by
  simp [run_append, run_cons]

section Concat

variable {t : Text}

/--
A character that opens no comment and neither opens nor closes a string changes nothing but what is
collected, and no comment ends with it.
-/
theorem read_concat (hr : (start.read t).1.reading = .ofString inString) {c : Char}
    (hquote : c = '"' → t.escapes)
    (hopen : inString = false → c = '*' → ∀ ps, Piece.ofText t ≠ ps ++ [.char '/']) :
    (start.read (t ++ [c])).1.reading = .ofString inString ∧
      (start.read (t ++ [c])).2.filter Record.isComment =
        (start.read t).2.filter Record.isComment := by
  have hstep (ps : List Piece) (p : Piece) (hps : (start.run ps).1.reading = .ofString inString) :
      (start.run (ps ++ [p])).2.filter Record.isComment =
        (start.run ps).2.filter Record.isComment := by
    rw [run_concat, List.filter_append, filter_isComment_step (headed_start.run ps) hps,
      List.append_nil]
  have hescaped := escaped_read t
  unfold read at hr hescaped ⊢
  rcases Piece.ofText_concat t c with htc | ⟨ps, e, m, ht, htc, hm⟩
  . rw [htc]
    refine ⟨?_, hstep _ _ hr⟩
    rw [run_concat]
    have htext := Piece.text_ofChar c
    apply reading_step hr
    . intro hp
      rw [hp] at htext
      rw [hescaped]
      apply hquote
      simpa [Piece.text, Mark.spelling, eq_comm] using htext
    . intro hp
      rw [hp] at htext
      cases htext
  . -- The last character of `t` and `c` are a comment mark together.
    rw [ht, run_concat, step_char] at hr
    have hps := reading_of_take hr
    rw [htc, ht, hstep _ _ hps]
    refine ⟨?_, by simp [run_concat, step_char]⟩
    rw [run_concat]
    apply reading_step hps
    . rcases hm with ⟨-, -, rfl⟩ | ⟨-, -, rfl⟩ <;> simp
    . rcases hm with ⟨rfl, rfl, rfl⟩ | ⟨-, -, rfl⟩
      . intro _
        cases inString with
        | true => rfl
        | false => exact absurd ht (hopen rfl rfl ps)
      . simp

theorem read_concat_quote (hr : (start.read t).1.reading = .ofString inString)
    (he : t.escapes = false) :
    (start.read (t ++ ['"'])).1.reading = .ofString !inString ∧
      (start.read (t ++ ['"'])).2.filter Record.isComment =
        (start.read t).2.filter Record.isComment := by
  have hescaped := escaped_read t
  have hread : Piece.ofText (t ++ ['"']) = Piece.ofText t ++ [.mark .quote] :=
    Piece.ofText_append fun c _ => Piece.not_joins_cons c [] (by decide) (by decide)
  unfold read at hr hescaped ⊢
  rw [hread, run_concat]
  constructor
  . exact reading_step_quote hr (by rw [hescaped, he])
  . rw [List.filter_append, filter_isComment_step (headed_start.run _) hr, List.append_nil]

theorem read_append_open (hr : (start.read t).1.reading = .code) (hstar : t.getLast? ≠ some '*')
    {body : Text} (hbody : ¬['*', '/'] <:+: body) :
    (start.read (t ++ '/' :: '*' :: body)).1.reading = .comment ('/' :: '*' :: body) ∧
      (start.read (t ++ '/' :: '*' :: body)).2 = (start.read t).2 := by
  rcases read_open hr hbody with ⟨escaped, hopen⟩
  rw [read_append start (Piece.not_joins_slash hstar _), hopen]
  simp

theorem read_append_comment (hr : (start.read t).1.reading = .code) (hstar : t.getLast? ≠ some '*')
    {body : Text} (hclose : ¬['*', '/'] <:+: body) (hlast : body.getLast? ≠ some '/') :
    (start.read (t ++ '/' :: '*' :: (body ++ ['*', '/']))).1.reading = .code ∧
      (start.read (t ++ '/' :: '*' :: (body ++ ['*', '/']))).2 =
        (start.read t).2 ++ [.text ('/' :: '*' :: (body ++ ['*', '/']))] := by
  rw [read_append start (Piece.not_joins_slash hstar _), read_comment hr hclose hlast]
  simp

/--
After a `*` the sign `/` ends a mark of its own, and no comment opens.
-/
theorem read_append_star (hr : (start.read t).1.reading = .code) (hstar : t.getLast? = some '*') :
    (start.read (t ++ ['/', '*'])).1.reading = .code := by
  rcases List.getLast?_eq_some_iff.1 hstar with ⟨u, rfl⟩
  unfold read at hr ⊢
  rcases Piece.ofText_concat u '*' with hu | ⟨ps, e, m, -, hm, h⟩
  . have hcode : (start.run (Piece.ofText u)).1.reading = .ofString false := by
      rw [hu, run_concat, show Piece.ofChar '*' = .char '*' from rfl, step_char] at hr
      exact reading_of_take hr
    have hclose := reading_step hcode (p := .mark .commentClose) (by simp) (by simp)
    have hpieces : Piece.ofText (u ++ ['*'] ++ ['/', '*']) =
        Piece.ofText u ++ [.mark .commentClose] ++ [.char '*'] := by
      rw [Piece.ofText_append_of_concat hu, List.append_assoc]
      rfl
    rw [hpieces, run_concat, run_concat, step_char]
    exact reading_take hclose _
  . -- The `*` would have opened a comment itself.
    have hopen : m = .commentOpen := by
      rcases h with ⟨-, -, h⟩ | ⟨-, h, -⟩
      . exact h
      . cases h
    rw [hm, hopen, run_concat] at hr
    cases hps : (start.run ps).1.reading <;> simp [step, hps, stepCode, take, Reading.add] at hr

theorem head?_run_comment {u : Text} (h : d.reading = .comment u) {ps : List Piece} {r : Record}
    (hr : r ∈ (d.run ps).2.head?) : ∃ v, r = .text (u ++ v ++ ['*', '/']) := by
  induction ps generalizing d u with
  | nil => cases hr
  | cons p ps ih =>
    rw [run_cons] at hr
    by_cases hp : p = .mark .commentClose
    . subst hp
      simp only [step, h, Option.toList_some, List.cons_append, List.head?_cons, Option.mem_def,
        Option.some.injEq] at hr
      exact ⟨[], by simp [← hr, Piece.text, Mark.spelling]⟩
    . have hstep : d.step p = (d.take p, none) := by
        cases p with
        | char c => exact step_char d c
        | mark m =>
          apply step_mark_of_comment h
          intro heq
          exact hp (by rw [heq])
      rw [hstep] at hr
      rcases ih (d := d.take p) (u := u ++ p.text) (by simp [take, h, Reading.add]) hr with
        ⟨v, hv⟩
      exact ⟨p.text ++ v, by simp [hv]⟩

/--
After a `/` in a comment the sign `*` ends a mark of its own, and the comment does not close.
-/
theorem read_append_slash (hr : (start.read t).1.reading = .code) (hstar : t.getLast? ≠ some '*')
    {body : Text} (hbody : ¬['*', '/'] <:+: body) (hslash : body.getLast? = some '/')
    (rest : Text) :
    ∃ d : Draft, d.reading = .comment ('/' :: '*' :: (body ++ ['*'])) ∧
      start.read (t ++ '/' :: '*' :: (body ++ '*' :: '/' :: rest)) =
        ((d.read ('/' :: rest)).1, (start.read t).2 ++ (d.read ('/' :: rest)).2) := by
  rcases List.getLast?_eq_some_iff.1 hslash with ⟨u, rfl⟩
  have hu : ¬['*', '/'] <:+: u := by
    intro h
    exact hbody (h.trans (List.prefix_append u ['/']).isInfix)
  have hopen := read_append_open hr hstar hu
  have hpieces : Piece.ofText (t ++ '/' :: '*' :: u ++ ['/']) =
      Piece.ofText (t ++ '/' :: '*' :: u) ++ [.char '/'] := by
    rcases Piece.ofText_concat (t ++ '/' :: '*' :: u) '/' with h | ⟨ps, e, m, -, hm, h⟩
    . exact h
    . -- A closing mark would have ended the comment.
      have hclose : m = .commentClose := by
        rcases h with ⟨-, h, -⟩ | ⟨-, -, h⟩
        . cases h
        . exact h
      have hcomment := (read_append_open hr hstar hbody).1
      have hbody' : t ++ '/' :: '*' :: (u ++ ['/']) = t ++ '/' :: '*' :: u ++ ['/'] := by
        simp
      rw [hbody', read, hm, hclose, run_concat] at hcomment
      cases hps : (start.run ps).1.reading <;>
        simp [step, hps, stepCode, take, Reading.add] at hcomment
  have htext : t ++ '/' :: '*' :: (u ++ ['/'] ++ '*' :: '/' :: rest) =
      t ++ '/' :: '*' :: u ++ ['/'] ++ '*' :: '/' :: rest := by
    simp
  have hstep := step_mark_of_comment hopen.1 (m := .commentOpen) (by decide)
  refine ⟨(start.read (t ++ '/' :: '*' :: u)).1.take (.mark .commentOpen), ?_, ?_⟩
  . simp [take, hopen.1, Reading.add, Piece.text, Mark.spelling]
  . have hrecords := hopen.2
    unfold read at hstep hrecords ⊢
    rw [htext, Piece.ofText_append_of_concat hpieces, run_append, Piece.ofText, run_cons, hstep,
      hrecords]
    rfl

end Concat

end Draft

end Stylesheet
