import Stylesheet.Delimiter.Scan
import Stylesheet.Text.Bytes

/-!
This module contains the pieces of a text: its marks and the characters between them. They are what
the search for delimiters finds and passes over, without the positions.
-/

namespace Stylesheet

theorem Mark.spelling_eq_concat (m : Mark) : ∃ u c, m.spelling = u ++ [c] ∧ c ≠ '\\' := by
  cases m with
  | commentOpen => exact ⟨['/'], '*', rfl, by decide⟩
  | commentClose => exact ⟨['*'], '/', rfl, by decide⟩
  | _ => exact ⟨[], _, rfl, by decide⟩

inductive Piece where
  | mark (m : Mark)
  | char (c : Char)
deriving DecidableEq, Repr

namespace Piece

def text : Piece → Text
  | mark m => m.spelling
  | char c => [c]

/--
The piece that the character `c` is by itself.
-/
def ofChar (c : Char) : Piece :=
  match Mark.ofChar? c with
  | some m => mark m
  | none => char c

def ofText : Text → List Piece
  | [] => []
  | '/' :: '*' :: t => mark .commentOpen :: ofText t
  | '*' :: '/' :: t => mark .commentClose :: ofText t
  | c :: t => ofChar c :: ofText t

/--
Whether the character `c` belongs to a comment mark together with the one that follows it.
-/
def joins (c : Char) (t : Text) : Prop :=
  c = '/' ∧ t.head? = some '*' ∨ c = '*' ∧ t.head? = some '/'

theorem joins_append {c : Char} {t : Text} (h : t ≠ []) (u : Text) :
    joins c (t ++ u) ↔ joins c t := by
  cases t with
  | nil => contradiction
  | cons d t => simp [joins]

theorem not_joins_of_ne {c : Char} (t : Text) (hslash : c ≠ '/') (hstar : c ≠ '*') :
    ¬joins c t := by
  simp [joins, hslash, hstar]

theorem not_joins_cons (c : Char) {d : Char} (t : Text) (hslash : d ≠ '/') (hstar : d ≠ '*') :
    ¬joins c (d :: t) := by
  simp [joins, hslash, hstar]

theorem spelling_of_ofChar? {c : Char} {m : Mark} (h : Mark.ofChar? c = some m) :
    m.spelling = [c] := by
  unfold Mark.ofChar? at h
  split at h
  all_goals cases h
  all_goals rfl

@[simp]
theorem text_ofChar (c : Char) : (ofChar c).text = [c] := by
  unfold ofChar
  split
  . next h => exact spelling_of_ofChar? h
  . rfl

theorem not_joins_slash {t : Text} (h : t.getLast? ≠ some '*') (u : Text) :
    ∀ c ∈ t.getLast?, ¬joins c ('/' :: u) := by
  intro c hc hjoins
  rcases hjoins with ⟨-, hslash⟩ | ⟨rfl, -⟩
  . cases hslash
  . exact h hc

theorem not_joins_star {body : Text} (h : body.getLast? ≠ some '/') (t u : Text) :
    ∀ c ∈ (t ++ '/' :: '*' :: body).getLast?, ¬joins c ('*' :: u) := by
  intro c hc hjoins
  rcases hjoins with ⟨rfl, -⟩ | ⟨-, hslash⟩
  . cases body with
    | nil => simp at hc
    | cons b body => exact h (by simpa using hc)
  . cases hslash

theorem ofText_cons {c : Char} {t : Text} (h : ¬joins c t) :
    ofText (c :: t) = ofChar c :: ofText t := by
  rw [ofText]
  . intro t' hc ht
    exact h (.inl ⟨hc, by simp [ht]⟩)
  . intro t' hc ht
    exact h (.inr ⟨hc, by simp [ht]⟩)

theorem ofText_mark (m : Mark) (t : Text) : ofText (m.spelling ++ t) = mark m :: ofText t := by
  cases m <;> simp [ofText, ofChar, Mark.spelling, Mark.ofChar?]

theorem ofText_char {c : Char} {t : Text} (hc : Mark.ofChar? c = none) (h : ¬joins c t) :
    ofText (c :: t) = char c :: ofText t := by
  rw [ofText_cons h, ofChar, hc]

/--
A text is built up from its end by marks and by characters that belong to no mark.
-/
@[elab_as_elim]
theorem induction {motive : Text → Prop} (nil : motive [])
    (mark : ∀ (m : Mark) t, motive t → motive (m.spelling ++ t))
    (char : ∀ c t, Mark.ofChar? c = none → ¬joins c t → motive t → motive (c :: t)) (t : Text) :
    motive t := by
  induction t using ofText.induct with
  | case1 => exact nil
  | case2 t ih => exact mark .commentOpen t ih
  | case3 t ih => exact mark .commentClose t ih
  | case4 c t hopen hclose ih =>
    cases hc : Mark.ofChar? c with
    | some m =>
      have := mark m t ih
      rwa [spelling_of_ofChar? hc] at this
    | none =>
      apply char c t hc _ ih
      intro hjoins
      rcases hjoins with ⟨rfl, h⟩ | ⟨rfl, h⟩
      . rcases List.head?_eq_some_iff.1 h with ⟨t', rfl⟩
        exact hopen t' rfl rfl
      . rcases List.head?_eq_some_iff.1 h with ⟨t', rfl⟩
        exact hclose t' rfl rfl

theorem flatMap_text_ofText (t : Text) : (ofText t).flatMap text = t := by
  induction t using induction with
  | nil => rfl
  | mark m t ih =>
    rw [ofText_mark, List.flatMap_cons, ih]
    rfl
  | char c t hc h ih =>
    rw [ofText_char hc h, List.flatMap_cons, ih]
    rfl

theorem mark_of_joins {c : Char} {t : Text} (h : joins c t) :
    ∃ m t', ofText (c :: t) = mark m :: ofText t' := by
  rcases h with ⟨rfl, h⟩ | ⟨rfl, h⟩
  . rcases List.head?_eq_some_iff.1 h with ⟨t', rfl⟩
    exact ⟨.commentOpen, t', by rw [ofText]⟩
  . rcases List.head?_eq_some_iff.1 h with ⟨t', rfl⟩
    exact ⟨.commentClose, t', by rw [ofText]⟩

theorem ofText_append_or (a b : Text) :
    ofText (a ++ b) = ofText a ++ ofText b ∨
      ∃ ps c m b', a.getLast? = some c ∧ joins c b ∧ ofText a = ps ++ [char c] ∧
        ofText (a ++ b) = ps ++ mark m :: ofText b' := by
  induction a using induction with
  | nil => exact .inl rfl
  | mark m a ih =>
    rw [List.append_assoc, ofText_mark, ofText_mark]
    rcases ih with ih | ⟨ps, c, m', b', hlast, hc, ha, hab⟩
    . exact .inl (by rw [ih, List.cons_append])
    . refine .inr ⟨mark m :: ps, c, m', b', ?_, hc, by simp [ha], by simp [hab]⟩
      simp [List.getLast?_append, hlast]
  | char c a hchar hca ih =>
    rw [ofText_char hchar hca, List.cons_append]
    by_cases ha : a = []
    . -- The last character is the only one that the cut can part from what follows it.
      subst ha
      by_cases hcb : joins c b
      . rcases mark_of_joins hcb with ⟨m, b', hb⟩
        exact .inr ⟨[], c, m, b', rfl, hcb, rfl, hb⟩
      . exact .inl (ofText_char hchar hcb)
    . have hcab : ¬joins c (a ++ b) := by
        rwa [joins_append ha]
      rw [ofText_char hchar hcab]
      rcases ih with ih | ⟨ps, d, m, b', hlast, hd, ha', hab⟩
      . exact .inl (by rw [ih, List.cons_append])
      . refine .inr ⟨char c :: ps, d, m, b', ?_, hd, by simp [ha'], by simp [hab]⟩
        simp [List.getLast?_cons, hlast]

theorem ofText_append {a b : Text} (h : ∀ c ∈ a.getLast?, ¬joins c b) :
    ofText (a ++ b) = ofText a ++ ofText b := by
  rcases ofText_append_or a b with hab | ⟨ps, c, m, b', hlast, hc, -, -⟩
  . exact hab
  . exact absurd hc (h c hlast)

theorem ofText_concat (t : Text) (c : Char) :
    ofText (t ++ [c]) = ofText t ++ [ofChar c] ∨
      ∃ ps d m, ofText t = ps ++ [char d] ∧ ofText (t ++ [c]) = ps ++ [mark m] ∧
        (d = '/' ∧ c = '*' ∧ m = .commentOpen ∨ d = '*' ∧ c = '/' ∧ m = .commentClose) := by
  have hone : ofText [c] = [ofChar c] := ofText_cons (by simp [joins])
  rcases ofText_append_or t [c] with h | ⟨ps, d, m, u, -, hjoins, ht, htc⟩
  . exact .inl (by rw [h, hone])
  . have hspelling : [d, c] = m.spelling ++ u := by
      have hbefore := flatMap_text_ofText t
      have hafter := flatMap_text_ofText (t ++ [c])
      rw [ht] at hbefore
      rw [htc, ← hbefore] at hafter
      simpa [flatMap_text_ofText, text] using hafter.symm
    have hu : u = [] := by
      apply List.eq_nil_of_length_eq_zero
      have hlength := congrArg List.length hspelling
      cases m <;> simp_all [Mark.spelling, joins]
    subst hu
    refine .inr ⟨ps, d, m, ht, by simpa [ofText] using htc, ?_⟩
    cases m <;> simp_all [Mark.spelling, joins]

theorem eq_of_ofText_concat {t : Text} {c d : Char} {ps : List Piece}
    (h : ofText (t ++ [c]) = ps ++ [char d]) : c = d := by
  have htext := flatMap_text_ofText (t ++ [c])
  rw [h, List.flatMap_append] at htext
  have hlast : ps.flatMap text ++ [d] = t ++ [c] := by
    simpa [text] using htext
  simpa using (List.append_inj_right' hlast rfl).symm

theorem ofText_eq_nil {t : Text} : ofText t = [] ↔ t = [] := by
  constructor
  . intro h
    rw [← flatMap_text_ofText t, h]
    rfl
  . rintro rfl
    rfl

/--
A last character that belongs to no mark is read together with what follows it.
-/
theorem ofText_append_of_concat {t : Text} {ps : List Piece} {c : Char}
    (h : ofText t = ps ++ [char c]) (u : Text) : ofText (t ++ u) = ps ++ ofText (c :: u) := by
  induction t using induction generalizing ps with
  | nil => simp [ofText] at h
  | mark m t ih =>
    rw [ofText_mark] at h
    cases ps with
    | nil => simp at h
    | cons p ps =>
      simp only [List.cons_append, List.cons.injEq] at h
      rw [List.append_assoc, ofText_mark, ih h.2, ← h.1, List.cons_append]
  | char d t hd hjoins ih =>
    rw [ofText_char hd hjoins] at h
    cases ps with
    | nil =>
      simp only [List.nil_append, List.cons.injEq, char.injEq, ofText_eq_nil] at h
      rcases h with ⟨rfl, rfl⟩
      rfl
    | cons p ps =>
      simp only [List.cons_append, List.cons.injEq] at h
      have ht : t ≠ [] := by
        intro hnil
        have := ofText_eq_nil.2 hnil
        simp [h.2] at this
      rw [List.cons_append, ofText_char hd (by rwa [joins_append ht]), ih h.2, ← h.1,
        List.cons_append]

/--
The marks among the pieces of a text that starts at position `n`, each at its own position.
-/
def spansFrom (n : Nat) : List Piece → List Span
  | [] => []
  | mark m :: ps => ⟨m, n⟩ :: spansFrom (n + m.width) ps
  | char c :: ps => spansFrom (n + c.utf8Size) ps

end Piece

def Delimiter.span (d : Delimiter) : Span :=
  ⟨d.mark, d.byteOffset⟩

theorem Delimiter.map_span_locate (surplus : Nat) (wide : List WideChar) (spans : List Span) :
    (locate surplus wide spans).map span = spans := by
  induction spans generalizing surplus wide with
  | nil => rfl
  | cons s spans ih => simp [locate, span, ih]

theorem Delimiter.map_span_scan (t : Text) : (scan t).map span = Span.scanFrom 0 t := by
  unfold scan
  split
  . rw [List.map_map]
    exact List.map_id _
  . rw [map_span_locate]

theorem Span.scanFrom_mark (n : Nat) (m : Mark) (t : Text) :
    scanFrom n (m.spelling ++ t) = ⟨m, n⟩ :: scanFrom (n + m.width) t := by
  cases m <;> simp [scanFrom, Mark.spelling, Mark.width, Mark.ofChar?]

theorem Span.scanFrom_char (n : Nat) {c : Char} {t : Text} (hc : Mark.ofChar? c = none)
    (h : ¬Piece.joins c t) : scanFrom n (c :: t) = scanFrom (n + c.utf8Size) t := by
  rw [scanFrom]
  . simp [hc]
  . intro t' hc ht
    exact h (.inl ⟨hc, by simp [ht]⟩)
  . intro t' hc ht
    exact h (.inr ⟨hc, by simp [ht]⟩)

theorem Piece.spansFrom_ofText (n : Nat) (t : Text) :
    spansFrom n (ofText t) = Span.scanFrom n t := by
  induction t using induction generalizing n with
  | nil => rfl
  | mark m t ih => rw [ofText_mark, Span.scanFrom_mark, spansFrom, ih]
  | char c t hc hjoins ih =>
    rw [ofText_char hc hjoins, Span.scanFrom_char n hc hjoins, spansFrom, ih]

end Stylesheet
