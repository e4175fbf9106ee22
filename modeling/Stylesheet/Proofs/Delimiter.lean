import Stylesheet.Proofs.Piece

/-!
This module contains what is known of the delimiters of a text by their positions alone: each stands
where it says, and each starts after the one before it ends.
-/

namespace Stylesheet

theorem Mark.width_pos (m : Mark) : 0 < m.width := by
  cases m <;> decide

namespace Span

theorem exists_append_of_mem_scanFrom (before : Text) {t : Text} {s : Span}
    (h : s ∈ scanFrom before.byteSize t) :
    ∃ a b, before ++ t = a ++ s.mark.spelling ++ b ∧ a.byteSize = s.offset := by
  induction t using Piece.induction generalizing before with
  | nil => simp [scanFrom] at h
  | mark m t ih =>
    rw [scanFrom_mark, List.mem_cons] at h
    rcases h with rfl | h
    . exact ⟨before, t, by rw [List.append_assoc], rfl⟩
    . rw [← List.append_assoc]
      apply ih
      rwa [Text.byteSize_append, Mark.byteSize_spelling]
  | char c t hc hjoins ih =>
    rw [scanFrom_char _ hc hjoins] at h
    have := ih (before ++ [c]) (by simpa using h)
    rwa [List.append_assoc] at this

/--
Whether each span starts at position `n` or later, and not before the end of the one before it.
-/
def Ordered (n : Nat) : List Span → Prop
  | [] => True
  | s :: spans => n ≤ s.offset ∧ Ordered (s.offset + s.mark.width) spans

theorem Ordered.mono {m n : Nat} (hmn : m ≤ n) {spans : List Span} (h : Ordered n spans) :
    Ordered m spans := by
  cases spans with
  | nil => trivial
  | cons s spans => exact ⟨Nat.le_trans hmn h.1, h.2⟩

theorem Ordered.le_of_mem {n : Nat} {spans : List Span} (h : Ordered n spans) {s : Span}
    (hs : s ∈ spans) : n ≤ s.offset := by
  induction spans generalizing n with
  | nil => cases hs
  | cons s' spans ih =>
    rcases List.mem_cons.1 hs with rfl | hs
    . exact h.1
    . exact Nat.le_trans h.1 (Nat.le_trans (Nat.le_add_right _ _) (ih h.2 hs))

theorem Ordered.pairwise {n : Nat} {spans : List Span} (h : Ordered n spans) :
    spans.Pairwise fun s s' => s.offset + s.mark.width ≤ s'.offset := by
  induction spans generalizing n with
  | nil => exact .nil
  | cons s spans ih => exact .cons (fun s' hs' => h.2.le_of_mem hs') (ih h.2)

theorem ordered_scanFrom (n : Nat) (t : Text) : Ordered n (scanFrom n t) := by
  induction t using Piece.induction generalizing n with
  | nil => trivial
  | mark m t ih =>
    rw [scanFrom_mark]
    exact ⟨Nat.le_refl n, ih (n + m.width)⟩
  | char c t hc hjoins ih =>
    rw [scanFrom_char _ hc hjoins]
    exact (ih (n + c.utf8Size)).mono (Nat.le_add_right n c.utf8Size)

end Span

namespace Delimiter

theorem byteOffset_lt_stop (d : Delimiter) : d.byteOffset < d.stop :=
  Nat.lt_add_of_pos_right d.mark.width_pos

/--
A delimiter cuts its text in two around its mark.
-/
theorem exists_append_of_mem_scan {t : Text} {d : Delimiter} (h : d ∈ scan t) :
    ∃ a b, t = a ++ d.mark.spelling ++ b ∧ a.byteSize = d.byteOffset := by
  have hspan : d.span ∈ Span.scanFrom 0 t := by
    rw [← map_span_scan]
    exact List.mem_map_of_mem h
  exact Span.exists_append_of_mem_scanFrom [] hspan

theorem slice_of_mem_scan {t : Text} {d : Delimiter} (h : d ∈ scan t) :
    t.slice d.byteOffset d.stop = d.mark.spelling := by
  rcases exists_append_of_mem_scan h with ⟨a, b, rfl, ha⟩
  rw [stop, ← ha, ← Mark.byteSize_spelling]
  exact Text.slice_append a d.mark.spelling b

theorem isBoundary_of_mem_scan {t : Text} {d : Delimiter} (h : d ∈ scan t) :
    t.IsBoundary d.byteOffset := by
  rcases exists_append_of_mem_scan h with ⟨a, b, rfl, ha⟩
  exact ⟨a, d.mark.spelling ++ b, List.append_assoc .., ha⟩

theorem isBoundary_stop_of_mem_scan {t : Text} {d : Delimiter} (h : d ∈ scan t) :
    t.IsBoundary d.stop := by
  rcases exists_append_of_mem_scan h with ⟨a, b, rfl, ha⟩
  refine ⟨a ++ d.mark.spelling, b, rfl, ?_⟩
  rw [Text.byteSize_append, Mark.byteSize_spelling, ha]
  rfl

theorem ordered_scan (t : Text) : Span.Ordered 0 ((scan t).map span) := by
  rw [map_span_scan]
  exact Span.ordered_scanFrom 0 t

/--
Each delimiter ends before the next one starts.
-/
theorem pairwise_stop_scan (t : Text) : (scan t).Pairwise (·.stop ≤ ·.byteOffset) := by
  have h := (ordered_scan t).pairwise
  rwa [List.pairwise_map] at h

theorem pairwise_scan (t : Text) : (scan t).Pairwise (·.byteOffset < ·.byteOffset) := by
  refine (pairwise_stop_scan t).imp ?_
  intro d d' h
  exact Nat.lt_of_lt_of_le d.byteOffset_lt_stop h

theorem mem_scan_of_concat {t : Text} {seen : List Delimiter} {d : Delimiter}
    (h : seen ++ [d] <+: scan t) : d ∈ scan t :=
  h.subset (List.mem_append_right _ (List.mem_singleton_self d))

theorem stop_le_of_concat {t : Text} {seen : List Delimiter} {d : Delimiter}
    (h : seen ++ [d] <+: scan t) : ∀ d' ∈ seen, d'.stop ≤ d.byteOffset := by
  have hpairwise := (pairwise_stop_scan t).sublist h.sublist
  rw [List.pairwise_append] at hpairwise
  intro d' hd'
  exact hpairwise.2.2 d' hd' d (List.mem_singleton_self d)

/--
Where the last of some delimiters ends.
-/
def lastStop (ds : List Delimiter) : Nat :=
  (ds.getLast?.map stop).getD 0

theorem stop_le_lastStop {t : Text} {seen : List Delimiter} (h : seen <+: scan t) :
    ∀ d ∈ seen, d.stop ≤ lastStop seen := by
  rcases List.eq_nil_or_concat seen with rfl | ⟨before, last, rfl⟩
  . simp
  . rw [List.concat_eq_append] at h ⊢
    have hlast : lastStop (before ++ [last]) = last.stop := by
      simp [lastStop]
    rw [hlast]
    intro d hd
    rcases List.mem_append.1 hd with hd | hd
    . exact Nat.le_trans (stop_le_of_concat h d hd) (Nat.le_of_lt last.byteOffset_lt_stop)
    . exact Nat.le_of_eq (congrArg stop (List.mem_singleton.1 hd))

end Delimiter

end Stylesheet
