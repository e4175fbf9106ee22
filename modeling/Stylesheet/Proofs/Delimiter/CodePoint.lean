import Mathlib.Data.Nat.PSub
import Stylesheet.Proofs.Delimiter

/-!
This module contains the positions of delimiters in code points. The surplus bytes that are
subtracted from a position in bytes are exactly those of the wide characters before it, so that
there are never more of them than the position counts.
-/

namespace Stylesheet

theorem Mark.length_spelling (m : Mark) : m.spelling.length = m.width := by
  cases m <;> rfl

namespace WideChar

theorem le_offset_of_mem_scanFrom {n : Nat} {t : Text} {w : WideChar} (h : w ∈ scanFrom n t) :
    n ≤ w.offset := by
  induction t generalizing n with
  | nil => cases h
  | cons c t ih =>
    unfold scanFrom at h
    split at h
    . rcases List.mem_cons.1 h with rfl | h
      . exact Nat.le_refl n
      . exact Nat.le_trans (Nat.le_add_right _ _) (ih h)
    . exact Nat.le_trans (Nat.le_add_right _ _) (ih h)

theorem scanFrom_mark (n : Nat) (m : Mark) (t : Text) :
    scanFrom n (m.spelling ++ t) = scanFrom (n + m.width) t := by
  cases m <;> simp [scanFrom, Mark.spelling, Mark.width, Char.utf8Size]

theorem scanFrom_of_ascii (n : Nat) {t : Text} (h : t.all (·.toNat < 128)) :
    scanFrom n t = [] := by
  induction t generalizing n with
  | nil => rfl
  | cons c t ih =>
    simp only [List.all_cons, Bool.and_eq_true, decide_eq_true_eq] at h
    have hsize : c.utf8Size = 1 := by
      rw [Char.utf8Size_eq_one_iff]
      exact Nat.le_of_lt_succ h.1
    rw [scanFrom, hsize, if_neg (Nat.lt_irrefl 1)]
    exact ih _ h.2

end WideChar

/--
A span of the text `t` with the number of code points that stand before it.
-/
def Span.inText (t : Text) (s : Span) : Delimiter :=
  ⟨s.mark, s.offset, (t.takeBytes s.offset).length⟩

namespace Delimiter

/--
Like `locate`, but a subtraction that goes below zero fails.
-/
def locate? (surplus : Nat) (wide : List WideChar) : List Span → Option (List Delimiter)
  | [] => some []
  | span :: spans => do
    let behind := wide.takeWhile (·.offset < span.offset)
    let ahead := wide.dropWhile (·.offset < span.offset)
    let surplus := surplus + WideChar.totalSurplus behind
    let charOffset ← span.offset.psub surplus
    (locate? surplus ahead spans).map (⟨span.mark, span.offset, charOffset⟩ :: ·)

theorem locate_eq_of_locate? {surplus : Nat} {wide : List WideChar} {spans : List Span}
    {ds : List Delimiter} (h : locate? surplus wide spans = some ds) :
    locate surplus wide spans = ds := by
  induction spans generalizing surplus wide ds with
  | nil => exact Option.some.inj h
  | cons s spans ih =>
    simp only [locate?, Option.bind_eq_bind, Option.bind_eq_some_iff,
      Option.map_eq_some_iff] at h
    rcases h with ⟨charOffset, hsub, rest, hrest, rfl⟩
    have hcharOffset := Nat.eq_sub_of_add_eq (Nat.psub_eq_some.1 hsub)
    rw [locate, ih hrest, ← hcharOffset]

/--
Wide characters that all come after a span do not count for it.
-/
theorem locate?_cons_of_ahead {surplus : Nat} {wide : List WideChar} {s : Span}
    (hle : surplus ≤ s.offset) (h : ∀ w ∈ wide, s.offset ≤ w.offset) (spans : List Span) :
    locate? surplus wide (s :: spans) =
      (locate? surplus wide spans).map (⟨s.mark, s.offset, s.offset - surplus⟩ :: ·) := by
  cases wide with
  | nil => simp [locate?, WideChar.totalSurplus, Nat.psub_eq_sub hle]
  | cons w wide =>
    have hw := h w (List.mem_cons_self ..)
    simp [locate?, WideChar.totalSurplus, hw, Nat.psub_eq_sub hle]

/--
A wide character that comes before all spans counts for each of them.
-/
theorem locate?_cons_of_behind (surplus : Nat) {w : WideChar} (wide : List WideChar)
    {spans : List Span} (h : ∀ s ∈ spans, w.offset < s.offset) :
    locate? surplus (w :: wide) spans = locate? (surplus + w.surplus) wide spans := by
  cases spans with
  | nil => rfl
  | cons s spans =>
    have hs := h s (List.mem_cons_self ..)
    simp [locate?, WideChar.totalSurplus, hs, Nat.add_assoc]

theorem locate?_scanFrom {before : Text} {surplus : Nat}
    (h : before.byteSize = before.length + surplus) (t : Text) :
    locate? surplus (WideChar.scanFrom before.byteSize t) (Span.scanFrom before.byteSize t) =
      some ((Span.scanFrom before.byteSize t).map (Span.inText (before ++ t))) := by
  induction t using Piece.induction generalizing before surplus with
  | nil => rfl
  | mark m t ih =>
    have hnext : (before ++ m.spelling).byteSize = (before ++ m.spelling).length + surplus := by
      rw [Text.byteSize_append, Mark.byteSize_spelling, List.length_append, Mark.length_spelling]
      omega
    have hahead : ∀ w ∈ WideChar.scanFrom (before.byteSize + m.width) t,
        before.byteSize ≤ w.offset := by
      intro w hw
      exact Nat.le_trans (Nat.le_add_right _ _) (WideChar.le_offset_of_mem_scanFrom hw)
    have hle : surplus ≤ before.byteSize := by
      omega
    have hcode : before.byteSize - surplus = before.length := by
      omega
    have := ih hnext
    rw [Text.byteSize_append, Mark.byteSize_spelling, List.append_assoc] at this
    rw [Span.scanFrom_mark, WideChar.scanFrom_mark, locate?_cons_of_ahead hle hahead, this,
      List.map_cons, hcode]
    simp [Span.inText]
  | char c t hc hjoins ih =>
    have hpos := c.utf8Size_pos
    have hnext : (before ++ [c]).byteSize =
        (before ++ [c]).length + (surplus + (c.utf8Size - 1)) := by
      simp only [Text.byteSize_append, Text.byteSize_cons, Text.byteSize_nil, List.length_append,
        List.length_cons, List.length_nil]
      omega
    have := ih hnext
    simp only [Text.byteSize_append, Text.byteSize_cons, Text.byteSize_nil, Nat.add_zero,
      List.append_assoc, List.singleton_append] at this
    rw [Span.scanFrom_char _ hc hjoins, WideChar.scanFrom, ← this]
    split
    . apply locate?_cons_of_behind
      intro s hs
      have := (Span.ordered_scanFrom _ t).le_of_mem hs
      exact Nat.lt_of_lt_of_le (Nat.lt_add_of_pos_right hpos) this
    . have hone : c.utf8Size - 1 = 0 := by
        omega
      rw [hone, Nat.add_zero]

theorem locate?_eq_map (t : Text) :
    locate? 0 (WideChar.scanFrom 0 t) (Span.scanFrom 0 t) =
      some ((Span.scanFrom 0 t).map (Span.inText t)) := by
  have hnil : Text.byteSize [] = List.length ([] : Text) + 0 := rfl
  exact locate?_scanFrom hnil t

/--
The shorter way for ASCII texts makes no difference.
-/
theorem scan_eq_locate (t : Text) :
    scan t = locate 0 (WideChar.scanFrom 0 t) (Span.scanFrom 0 t) := by
  unfold scan
  split
  . next h =>
    rw [WideChar.scanFrom_of_ascii 0 h, locate_nil_wide]
    rfl
  . rfl

theorem scan_eq_map (t : Text) : scan t = (Span.scanFrom 0 t).map (Span.inText t) := by
  rw [scan_eq_locate]
  exact locate_eq_of_locate? (locate?_eq_map t)

theorem charOffset_of_mem_scan {t : Text} {d : Delimiter} (h : d ∈ scan t) :
    d.charOffset = (t.takeBytes d.byteOffset).length := by
  rw [scan_eq_map, List.mem_map] at h
  rcases h with ⟨s, -, rfl⟩
  rfl

/--
The search for the code points of a text never subtracts more than there is and gives the delimiters
of the text, also where the text is ASCII and they are found without it. Before each of them there
are as many bytes and as many code points as it says.
-/
theorem locate?_eq_scan (t : Text) :
    locate? 0 (WideChar.scanFrom 0 t) (Span.scanFrom 0 t) = some (scan t) ∧
      (∀ d ∈ scan t, ∃ before after, t = before ++ d.mark.spelling ++ after ∧
        before.byteSize = d.byteOffset ∧ before.length = d.charOffset) ∧
      (t.all (·.toNat < 128) → scan t = (Span.scanFrom 0 t).map ofSpan ∧
        locate 0 (WideChar.scanFrom 0 t) (Span.scanFrom 0 t) =
          (Span.scanFrom 0 t).map ofSpan) := by
  refine ⟨?_, ?_, ?_⟩
  . rw [scan_eq_map]
    exact locate?_eq_map t
  . intro d hd
    rcases exists_append_of_mem_scan hd with ⟨before, after, ht, hbefore⟩
    refine ⟨before, after, ht, hbefore, ?_⟩
    rw [charOffset_of_mem_scan hd, ← hbefore, ht, List.append_assoc, Text.takeBytes_append]
  . intro hascii
    rw [← scan_eq_locate, and_self, scan, if_pos hascii]

/--
The brace has one byte more than code points before it where it follows a wide character, and as
many in an ASCII text.
-/
theorem locate?_eq_scan_brace :
    (⟨.braceOpen, 2, 1⟩ ∈ scan "é\x7b".toList ∧
      ∃ before after : Text, "é\x7b".toList = before ++ Mark.braceOpen.spelling ++ after ∧
        before.byteSize = 2 ∧ before.length = 1) ∧
      "a\x7b".toList.all (·.toNat < 128) ∧
      scan "a\x7b".toList = (Span.scanFrom 0 "a\x7b".toList).map ofSpan := by
  have hwide : ⟨.braceOpen, 2, 1⟩ ∈ scan "é\x7b".toList := by
    decide
  have hascii : "a\x7b".toList.all (·.toNat < 128) := by
    decide
  exact ⟨⟨hwide, (locate?_eq_scan _).2.1 _ hwide⟩, hascii, ((locate?_eq_scan _).2.2 hascii).1⟩

end Delimiter

end Stylesheet
