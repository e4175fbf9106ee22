import Stylesheet.Proofs.Draft.Sealed

/-!
This module contains prose: text that comments are written in. The comments become records, and what
is collected is the text around them.
-/

namespace Stylesheet

/--
A text, or a text before a comment with some body, and what follows the comment.
-/
inductive Prose where
  | last (t : Text)
  | comment (t body : Text) (rest : Prose)
deriving DecidableEq, Repr

namespace Prose

def delimit (body : Text) : Text :=
  '/' :: '*' :: (body ++ ['*', '/'])

def text : Prose → Text
  | last t => t
  | comment t body rest => t ++ (delimit body ++ rest.text)

def plain : Prose → Text
  | last t => t
  | comment t _ rest => t ++ rest.plain

def comments : Prose → List Record
  | last _ => []
  | comment _ body rest => .text (delimit body) :: rest.comments

/--
Whether prose is sealed around its comments, and each comment can be told from what is around it: a
star before it or a slash at the end of its body would be taken for a part of another mark.
-/
def IsSealed (stops : List Char) : Prose → Prop
  | last t => Text.isSealed stops t
  | comment t body rest =>
    Text.isSealed stops t ∧ t.getLast? ≠ some '*' ∧ ¬['*', '/'] <:+: body ∧
      body.getLast? ≠ some '/' ∧ rest.IsSealed stops

instance decidableIsSealed (stops : List Char) : (p : Prose) → Decidable (p.IsSealed stops)
  | last t => inferInstanceAs (Decidable (Text.isSealed stops t))
  | comment _ _ rest =>
    have := decidableIsSealed stops rest
    inferInstanceAs (Decidable (_ ∧ _ ∧ _ ∧ _ ∧ _))

end Prose

/--
A comment mark at the end of a text is not torn apart by what follows.
-/
theorem Piece.ofText_append_of_mark {a : Text} {ps : List Piece} {m : Mark}
    (h : ofText a = ps ++ [mark m]) (b : Text) : ofText (a ++ b) = ofText a ++ ofText b := by
  rcases ofText_append_or a b with hab | ⟨qs, c, m', b', -, -, ha, -⟩
  . exact hab
  . -- a character that joins what follows would be the last piece itself
    rw [h] at ha
    simp at ha

namespace Draft

theorem read_comment_append {d : Draft} (h : d.reading = .code) {body : Text}
    (hclose : ¬['*', '/'] <:+: body) (hlast : body.getLast? ≠ some '/') (t : Text) :
    d.read (Prose.delimit body ++ t) =
      (((d.read (Prose.delimit body)).1.read t).1,
        .text (Prose.delimit body) :: ((d.read (Prose.delimit body)).1.read t).2) := by
  have hbody := Piece.ofText_append (Piece.not_joins_star hlast [] ['/'])
  have hpieces : Piece.ofText (Prose.delimit body) =
      (.mark .commentOpen :: Piece.ofText body) ++ [.mark .commentClose] := by
    rw [Prose.delimit, Piece.ofText]
    simpa [Piece.ofText] using hbody
  have hread := read_comment h hclose hlast
  rw [← Prose.delimit] at hread
  have hmarks := Piece.ofText_append_of_mark hpieces t
  have hrun := run_append d (Piece.ofText (Prose.delimit body)) (Piece.ofText t)
  rw [← hmarks] at hrun
  have hrecords : (d.run (Piece.ofText (Prose.delimit body))).2 = [.text (Prose.delimit body)] := by
    have := congrArg Prod.snd hread
    exact this
  rw [hrecords] at hrun
  exact hrun

theorem read_prose {d : Draft} (hr : d.reading = .code) (he : d.escaped = false) {p : Prose}
    (hp : p.IsSealed d.scope.stops) :
    ∃ escaped, d.read p.text =
      ({ reading := .code
         scope := d.scope.add p.text
         pending := d.pending ++ p.plain
         escaped }, p.comments) := by
  induction p generalizing d with
  | last t => exact read_of_isSealed hr he hp
  | comment t body rest ih =>
    rcases hp with ⟨ht, hstar, hclose, hlast, hrest⟩
    rcases read_of_isSealed hr he ht with ⟨escaped, hread⟩
    have hcomment := read_comment (d := d.collect t false escaped) rfl hclose hlast
    rw [← Prose.delimit] at hcomment
    have happend := read_comment_append (d := d.collect t false escaped) rfl hclose hlast rest.text
    rw [hcomment] at happend
    rcases ih (d := ((d.collect t false escaped).read (Prose.delimit body)).1) (by rw [hcomment])
      (by rw [hcomment]) (by rw [hcomment]; simpa [collect] using hrest) with ⟨escaped', hread'⟩
    rw [hcomment] at hread'
    refine ⟨escaped', ?_⟩
    -- only a star before the comment could take its slash away
    have hseam : ∀ c ∈ t.getLast?, ¬Piece.joins c (Prose.delimit body ++ rest.text) :=
      Piece.not_joins_slash hstar _
    rw [Prose.text, read_append d hseam, hread, happend, hread']
    simp [collect, Prose.plain, Prose.comments]

end Draft

end Stylesheet
