import Stylesheet.Proofs.Delimiter

/-!
This module contains which marks of a text are found. All are, with one exception: a comment mark is
passed over where its first character is the last one of another comment mark that is found.
-/

namespace Stylesheet

/--
Whether the text `u` stands in a text at position `n`.
-/
def Text.OccursAt (t u : Text) (n : Nat) : Prop :=
  ∃ before after, t = before ++ u ++ after ∧ before.byteSize = n

namespace Mark

/--
Whether a mark opens or closes a comment. No other mark has two characters.
-/
def isComment (m : Mark) : Bool :=
  m = .commentOpen ∨ m = .commentClose

theorem width_of_isComment {m : Mark} (h : m.isComment) : m.width = 2 := by
  cases m with
  | commentOpen => rfl
  | commentClose => rfl
  | _ => cases h

/--
No mark is the start of another one.
-/
theorem eq_of_spelling_append {m m' : Mark} {t t' : Text}
    (h : m.spelling ++ t = m'.spelling ++ t') : m = m' := by
  have hpieces := congrArg Piece.ofText h
  simp only [Piece.ofText_mark, List.cons.injEq, Piece.mark.injEq] at hpieces
  exact hpieces.1

theorem spelling_append_ne_cons (m : Mark) {c : Char} {t t' : Text}
    (hc : Mark.ofChar? c = none) (hjoins : ¬Piece.joins c t) : m.spelling ++ t' ≠ c :: t := by
  intro h
  have hpieces := congrArg Piece.ofText h
  simp [Piece.ofText_mark, Piece.ofText_char hc hjoins] at hpieces

/--
A mark that starts inside of another one starts with its last character, and both are comment marks.
-/
theorem isComment_of_overlap {m m' : Mark} {a u b t : Text} (ha : a ≠ []) (hu : u ≠ [])
    (hm' : m'.spelling = a ++ u) (hm : m.spelling ++ b = u ++ t) :
    m.isComment ∧ m'.isComment ∧ a.byteSize = 1 := by
  rcases List.exists_cons_of_ne_nil ha with ⟨c, a, rfl⟩
  rcases List.exists_cons_of_ne_nil hu with ⟨d, u, rfl⟩
  cases m'
  all_goals cases a
  all_goals simp [spelling] at hm'
  all_goals
    rcases hm' with ⟨rfl, rfl, rfl⟩
    cases m <;> simp_all [spelling, isComment]
    decide

end Mark

namespace Span

/--
A mark that stands in a text is found, unless the character before it starts a comment mark.
-/
theorem mem_scanFrom_of_append {n : Nat} {m : Mark} {a b t : Text}
    (ht : t = a ++ m.spelling ++ b)
    (hfree : m.isComment → ∀ s ∈ scanFrom n t, s.mark.isComment → s.offset + 1 ≠ n + a.byteSize) :
    ⟨m, n + a.byteSize⟩ ∈ scanFrom n t := by
  rw [List.append_assoc] at ht
  induction t using Piece.induction generalizing n a with
  | nil =>
    have hnil := congrArg List.length ht
    cases m <;> simp [Mark.spelling] at hnil
  | mark m' t ih =>
    rw [scanFrom_mark] at hfree ⊢
    by_cases hbefore : m'.spelling <+: a
    . -- the mark that the text starts with ends before the other one starts
      rcases hbefore with ⟨u, rfl⟩
      rw [List.append_assoc, List.append_cancel_left_eq] at ht
      rw [Text.byteSize_append, Mark.byteSize_spelling, ← Nat.add_assoc] at hfree ⊢
      apply List.mem_cons_of_mem
      apply ih ht
      intro hm s hs
      exact hfree hm s (List.mem_cons_of_mem _ hs)
    . rcases List.append_eq_append_iff.1 ht with ⟨u, rfl, -⟩ | ⟨u, hm', hrest⟩
      . exact absurd (List.prefix_append _ _) hbefore
      . have hu : u ≠ [] := by
          rintro rfl
          rw [hm', List.append_nil] at hbefore
          exact hbefore List.prefix_rfl
        by_cases ha : a = []
        . subst ha
          cases Mark.eq_of_spelling_append ht
          exact List.mem_cons_self
        . rcases Mark.isComment_of_overlap ha hu hm' hrest with ⟨hm, hcomment, hsize⟩
          rw [hsize] at hfree
          exact absurd rfl (hfree hm ⟨m', n⟩ List.mem_cons_self hcomment)
  | char c t hc hjoins ih =>
    rw [scanFrom_char _ hc hjoins] at hfree ⊢
    cases a with
    | nil => exact absurd ht.symm (m.spelling_append_ne_cons hc hjoins)
    | cons d a =>
      rw [List.cons_append, List.cons.injEq] at ht
      rcases ht with ⟨rfl, ht⟩
      rw [Text.byteSize_cons, ← Nat.add_assoc] at hfree ⊢
      exact ih ht hfree

/--
A span ends before any later one starts.
-/
theorem Ordered.add_width_le {n : Nat} {spans : List Span} (h : Ordered n spans) {s s' : Span}
    (hs : s ∈ spans) (hs' : s' ∈ spans) (hlt : s.offset < s'.offset) :
    s.offset + s.mark.width ≤ s'.offset := by
  induction spans generalizing n with
  | nil => cases hs
  | cons first spans ih =>
    rcases List.mem_cons.1 hs with rfl | hrest
    . rcases List.mem_cons.1 hs' with rfl | hrest'
      . exact absurd hlt (Nat.lt_irrefl _)
      . exact h.2.le_of_mem hrest'
    . rcases List.mem_cons.1 hs' with rfl | hrest'
      . have := h.2.le_of_mem hrest
        omega
      . exact ih h.2 hrest hrest'

/--
The spans of a text are those of its marks, without the comment marks that start with the last
character of another one among them.
-/
theorem mem_scanFrom_iff {t : Text} {m : Mark} {n : Nat} :
    ⟨m, n⟩ ∈ scanFrom 0 t ↔
      t.OccursAt m.spelling n ∧
        (m.isComment → ∀ s ∈ scanFrom 0 t, s.mark.isComment → s.offset + 1 ≠ n) := by
  constructor
  . intro h
    refine ⟨exists_append_of_mem_scanFrom [] h, ?_⟩
    intro hm s hs hcomment hnext
    have hle := (ordered_scanFrom 0 t).add_width_le hs h (by simp only; omega)
    rw [Mark.width_of_isComment hcomment] at hle
    simp only at hle
    omega
  . rintro ⟨⟨a, b, ht, rfl⟩, hfree⟩
    have hmem := mem_scanFrom_of_append (n := 0) ht (by simpa using hfree)
    rwa [Nat.zero_add] at hmem

end Span

namespace Delimiter

/--
Each mark of a text is found once, unless it is a comment mark and shares its first character with
another comment mark that is found before it. Nothing else is found, and what is found stands in
order and apart.
-/
theorem count_scan_eq_one_iff (t : Text) :
    (∀ m n, ((scan t).map span).count ⟨m, n⟩ = 1 ↔
        t.OccursAt m.spelling n ∧
          (m.isComment → ¬∃ d ∈ scan t, d.mark.isComment ∧ d.byteOffset + 1 = n)) ∧
      ((scan t).map span).Nodup ∧
      (scan t).Pairwise (fun d d' => d.byteOffset < d'.byteOffset ∧ d.stop ≤ d'.byteOffset) ∧
      ∀ d ∈ scan t, t.slice d.byteOffset d.stop = d.mark.spelling := by
  have hnodup : ((scan t).map span).Nodup := by
    rw [map_span_scan]
    refine (Span.ordered_scanFrom 0 t).pairwise.imp ?_
    rintro s s' h rfl
    have := s.mark.width_pos
    omega
  refine ⟨fun m n => ?_, hnodup, (pairwise_scan t).and (pairwise_stop_scan t),
    fun d hd => slice_of_mem_scan hd⟩
  have hfree : (∀ s ∈ Span.scanFrom 0 t, s.mark.isComment → s.offset + 1 ≠ n) ↔
      ¬∃ d ∈ scan t, d.mark.isComment ∧ d.byteOffset + 1 = n := by
    rw [← map_span_scan]
    simp [span]
  have hcount : ((scan t).map span).count ⟨m, n⟩ = 1 ↔ ⟨m, n⟩ ∈ (scan t).map span := by
    rw [hnodup.count]
    simp
  rw [hcount, map_span_scan, Span.mem_scanFrom_iff, hfree]

/--
The closing mark in `/*/` shares its star with the opening one.
-/
theorem count_scan_eq_one_iff_overlap :
    Text.OccursAt "é/*/;".toList Mark.commentClose.spelling 3 ∧
      ((scan "é/*/;".toList).map span).count ⟨.commentClose, 3⟩ ≠ 1 := by
  refine ⟨⟨"é/".toList, [';'], rfl, rfl⟩, ?_⟩
  rw [Ne, (count_scan_eq_one_iff _).1]
  intro h
  exact h.2 rfl ⟨⟨.commentOpen, 2, 1⟩, by decide, rfl, rfl⟩

end Delimiter

end Stylesheet
