import Mathlib.Data.List.TakeWhile
import Stylesheet.Proofs.Declarations
import Stylesheet.Proofs.Text.Sealed

/-!
This module contains the segments of a declaration block, which semicolons part from each other. The
reader takes each segment by itself, and it takes a semicolon for the end of a segment wherever it
stands, inside of a string too.
-/

namespace Stylesheet

theorem Text.takeWhile_append_cons {p : Char → Bool} {c : Char} (hc : p c = false) (t u : Text) :
    (t ++ c :: u).takeWhile p = t.takeWhile p := by
  induction t with
  | nil => simp [hc]
  | cons d t ih => simp only [List.cons_append, List.takeWhile_cons, ih]

theorem Text.dropWhile_append_cons {p : Char → Bool} {c : Char} (hc : p c = false) (t u : Text) :
    (t ++ c :: u).dropWhile p = t.dropWhile p ++ c :: u := by
  induction t with
  | nil => simp [hc]
  | cons d t ih =>
    simp only [List.cons_append, List.dropWhile_cons, ih]
    split <;> rfl

theorem takeIdent?_append_cons {c : Char} (hc : isIdentChar c = false) (t u : Text) :
    takeIdent? (t ++ c :: u) = (takeIdent? t).map fun r => (r.1, r.2 ++ c :: u) := by
  cases t with
  | nil =>
    have hstart : isIdentStart c = false := by
      rw [Bool.eq_false_iff]
      intro h
      rw [isIdentChar_of_isIdentStart h] at hc
      cases hc
    simp [takeIdent?, hstart]
  | cons d t =>
    rw [List.cons_append, takeIdent?, takeIdent?, Text.takeWhile_append_cons hc,
      Text.dropWhile_append_cons hc]
    split <;> rfl

namespace Declarations

theorem readAt?_eq_some_iff {t rest : Text} {entry : Text × Text} :
    readAt? t = some (entry, rest) ↔
      ∃ name after r, takeIdent? t = some (name, after) ∧ Text.trimStart after = ':' :: r ∧
        r.takeWhile (· != ';') ≠ [] ∧ entry = (name, Text.trim (r.takeWhile (· != ';'))) ∧
        rest = (r.dropWhile (· != ';')).tail := by
  unfold readAt?
  constructor
  . intro h
    split at h
    . cases h
    . next name after hident =>
      split at h
      . next r htrim =>
        split at h
        . cases h
        . next hvalue =>
          simp only [Option.some.injEq, Prod.mk.injEq] at h
          exact ⟨name, after, r, hident, htrim, hvalue, h.1.symm, h.2.symm⟩
      . cases h
  . rintro ⟨name, after, r, hident, htrim, hvalue, rfl, rfl⟩
    simp only [hident, htrim, if_neg hvalue]

/--
A declaration ends at the semicolon after its segment if it does not end before.
-/
theorem readAt?_append_semicolon {t rest : Text} {entry : Text × Text}
    (h : readAt? t = some (entry, rest)) (u : Text) :
    readAt? (t ++ ';' :: u) = some (entry, rest ++ ';' :: u) ∨
      rest = [] ∧ readAt? (t ++ ';' :: u) = some (entry, u) := by
  rcases readAt?_eq_some_iff.1 h with ⟨name, after, r, hident, htrim, hvalue, rfl, rfl⟩
  have hident' : takeIdent? (t ++ ';' :: u) = some (name, after ++ ';' :: u) := by
    rw [takeIdent?_append_cons (by decide), hident]
    rfl
  have htrim' : Text.trimStart (after ++ ';' :: u) = ':' :: (r ++ ';' :: u) := by
    have hblank : ¬Text.blank after := by
      rw [← Text.trimStart_eq_nil, htrim]
      simp
    rw [Text.trimStart_append, if_neg hblank, htrim, List.cons_append]
  have htake : (r ++ ';' :: u).takeWhile (· != ';') = r.takeWhile (· != ';') :=
    Text.takeWhile_append_cons (by decide) r u
  have hdrop : (r ++ ';' :: u).dropWhile (· != ';') = r.dropWhile (· != ';') ++ ';' :: u :=
    Text.dropWhile_append_cons (by decide) r u
  have hread : readAt? (t ++ ';' :: u) =
      some ((name, Text.trim (r.takeWhile (· != ';'))),
        (r.dropWhile (· != ';') ++ ';' :: u).tail) := by
    rw [readAt?_eq_some_iff]
    exact ⟨name, _, _, hident', htrim', by rwa [htake], by rw [htake], by rw [hdrop]⟩
  rw [hread]
  cases r.dropWhile (· != ';') with
  | nil => exact .inr ⟨rfl, rfl⟩
  | cons c r => exact .inl rfl

/--
No declaration goes on beyond the semicolon after its segment.
-/
theorem readAt?_append_semicolon_eq_none {t : Text} (h : readAt? t = none) (u : Text) :
    readAt? (t ++ ';' :: u) = none := by
  cases hread : readAt? (t ++ ';' :: u) with
  | none => rfl
  | some result =>
    rcases readAt?_eq_some_iff.1 hread with ⟨name, after, r, hident, htrim, hvalue, -, -⟩
    rw [takeIdent?_append_cons (by decide), Option.map_eq_some_iff] at hident
    rcases hident with ⟨⟨name', after'⟩, hident', heq⟩
    rcases Prod.mk.inj heq with ⟨rfl, rfl⟩
    rw [Text.trimStart_append] at htrim
    split at htrim
    . cases htrim
    . next hblank =>
      cases htrim' : Text.trimStart after' with
      | nil => exact absurd (Text.trimStart_eq_nil.1 htrim') hblank
      | cons c r' =>
        rw [htrim', List.cons_append, List.cons.injEq] at htrim
        rcases htrim with ⟨rfl, rfl⟩
        rw [Text.takeWhile_append_cons (by decide)] at hvalue
        have := readAt?_eq_some_iff.2 ⟨name', after', r', hident', htrim', hvalue, rfl, rfl⟩
        rw [h] at this
        cases this

theorem readFirst?_append_semicolon {t rest : Text} {entry : Text × Text}
    (h : readFirst? t = some (entry, rest)) (u : Text) :
    readFirst? (t ++ ';' :: u) = some (entry, rest ++ ';' :: u) ∨
      rest = [] ∧ readFirst? (t ++ ';' :: u) = some (entry, u) := by
  induction t with
  | nil => cases h
  | cons c t ih =>
    rw [List.cons_append, readFirst?]
    rw [readFirst?] at h
    split at h
    . next hread =>
      cases h
      rcases readAt?_append_semicolon hread u with hmore | ⟨hnil, hend⟩
      . rw [List.cons_append] at hmore
        exact .inl (by rw [hmore])
      . rw [List.cons_append] at hend
        exact .inr ⟨hnil, by rw [hend]⟩
    . next hread =>
      have hnone := readAt?_append_semicolon_eq_none hread u
      rw [List.cons_append] at hnone
      rw [hnone]
      exact ih h

theorem readFirst?_append_semicolon_eq_none {t : Text} (h : readFirst? t = none) (u : Text) :
    readFirst? (t ++ ';' :: u) = readFirst? u := by
  induction t with
  | nil => rfl
  | cons c t ih =>
    rw [readFirst?] at h
    split at h
    . cases h
    . next hread =>
      have hnone := readAt?_append_semicolon_eq_none hread u
      rw [List.cons_append] at hnone
      rw [List.cons_append, readFirst?, hnone]
      exact ih h

/--
What is read before a semicolon does not depend on what follows it, nor the other way round.
-/
theorem readAll_append_semicolon (t u : Text) :
    readAll (t ++ ';' :: u) = readAll t ++ readAll u := by
  induction t using readAll.induct with
  | case1 t h =>
    rw [readAll_congr (readFirst?_append_semicolon_eq_none h u), readAll_eq_nil h]
    rfl
  | case2 t entry rest h hlength ih =>
    rw [readAll_eq_cons h]
    rcases readFirst?_append_semicolon h u with hmore | ⟨rfl, hend⟩
    . rw [readAll_eq_cons hmore, ih]
      rfl
    . rw [readAll_eq_cons hend, readAll_of_blank (w := []) rfl]
      rfl

/--
The text of declarations in one line.
-/
def renderInline (entries : List (Text × Text)) : Text :=
  entries.flatMap fun entry => entry.1 ++ ':' :: ' ' :: (entry.2 ++ [';', ' '])

/--
What is read from a declaration as it is written: its value up to the first semicolon, and whatever
the rest of the value is by itself.
-/
def readsAs (entry : Text × Text) : List (Text × Text) :=
  (entry.1, Text.trim (Text.cut ';' entry.2).1) :: (Text.cut ';' entry.2).2.elim [] readAll

theorem readAll_segment {name value : Text} (hname : isIdent name) (hvalue : ';' ∉ value) :
    readAll (name ++ ':' :: ' ' :: value) = [(name, Text.trim value)] := by
  have hplain : ∀ c ∈ ' ' :: value, (c != ';') := by
    intro c hc
    rw [bne_iff_ne]
    rintro rfl
    rcases List.mem_cons.1 hc with hc | hc
    . cases hc
    . exact hvalue hc
  have htake : (' ' :: value).takeWhile (· != ';') = ' ' :: value :=
    List.takeWhile_eq_self_iff.2 hplain
  have hdrop : (' ' :: value).dropWhile (· != ';') = [] :=
    List.dropWhile_eq_nil_iff.2 hplain
  have htrim : Text.trim value = Text.trim (' ' :: value) :=
    (Text.trim_blank_append (w := [' ']) rfl value).symm
  have hread : readAt? (name ++ ':' :: ' ' :: value) = some ((name, Text.trim value), []) := by
    rw [readAt?_eq_some_iff]
    refine ⟨name, _, ' ' :: value, takeIdent?_append hname (by decide) _, rfl, ?_, ?_, ?_⟩
    . simp [htake]
    . rw [htake, htrim]
    . rw [hdrop]
      rfl
  have hfirst : readFirst? (name ++ ':' :: ' ' :: value) = some ((name, Text.trim value), []) := by
    cases name with
    | nil => cases hname
    | cons c name =>
      rw [List.cons_append] at hread ⊢
      rw [readFirst?, hread]
  rw [readAll_eq_cons hfirst, readAll_of_blank (w := []) rfl]

theorem readAll_entry {name : Text} (hname : isIdent name) (value : Text) :
    readAll (name ++ ':' :: ' ' :: value) = readsAs (name, value) := by
  have hbefore := Text.not_mem_cut_fst ';' value
  unfold readsAs
  rcases hcut : Text.cut ';' value with ⟨before, after?⟩
  rw [hcut] at hbefore
  cases after? with
  | none =>
    rw [Text.eq_of_cut_eq_none hcut]
    exact readAll_segment hname hbefore
  | some after =>
    have htext : name ++ ':' :: ' ' :: (before ++ ';' :: after) =
        (name ++ ':' :: ' ' :: before) ++ ';' :: after := by
      simp
    rw [Text.eq_of_cut_eq_some hcut, htext, readAll_append_semicolon,
      readAll_segment hname hbefore]
    rfl

theorem readAll_renderInline {entries : List (Text × Text)}
    (h : ∀ entry ∈ entries, isIdent entry.1) :
    readAll (renderInline entries) = entries.flatMap readsAs := by
  unfold renderInline
  induction entries with
  | nil => exact readAll_of_blank rfl
  | cons entry entries ih =>
    simp only [List.mem_cons, forall_eq_or_imp] at h
    have htext (t : Text) : entry.1 ++ ':' :: ' ' :: (entry.2 ++ [';', ' ']) ++ t =
        (entry.1 ++ ':' :: ' ' :: entry.2) ++ ';' :: ([' '] ++ t) := by
      simp
    rw [List.flatMap_cons, htext, readAll_append_semicolon, readAll_entry h.1,
      readAll_blank_append (w := [' ']) rfl, ih h.2, List.flatMap_cons]

theorem isReadable_of_readAt? {t rest : Text} {entry : Text × Text}
    (h : readAt? t = some (entry, rest)) : isReadable entry := by
  rcases readAt?_eq_some_iff.1 h with ⟨name, after, r, hident, -, -, rfl, -⟩
  have hname := (isIdent_of_takeIdent? hident).1
  have hvalue : ';' ∉ Text.trim (r.takeWhile (· != ';')) := by
    intro hmem
    have := List.mem_takeWhile_imp (Text.mem_of_mem_trim hmem)
    simp at this
  simp [isReadable, hname, Text.trim_trim, hvalue]

theorem isReadable_of_readFirst? {t rest : Text} {entry : Text × Text}
    (h : readFirst? t = some (entry, rest)) : isReadable entry := by
  induction t with
  | nil => cases h
  | cons c t ih =>
    rw [readFirst?] at h
    split at h
    . next hread =>
      cases h
      exact isReadable_of_readAt? hread
    . exact ih h

/--
What is read is read back from its own text.
-/
theorem isReadable_of_mem_readAll {t : Text} : ∀ entry ∈ readAll t, isReadable entry := by
  induction t using readAll.induct with
  | case1 t h => simp [readAll_eq_nil h]
  | case2 t entry rest h hlength ih =>
    rw [readAll_eq_cons h]
    simp only [List.mem_cons, forall_eq_or_imp]
    exact ⟨isReadable_of_readFirst? h, ih⟩

theorem isReadable_iff {entry : Text × Text} :
    isReadable entry ↔ isIdent entry.1 ∧ Text.trim entry.2 = entry.2 ∧ ';' ∉ entry.2 := by
  simp [isReadable, and_assoc]

theorem semicolon_not_mem_of_mem_readAll {t : Text} : ∀ entry ∈ readAll t, ';' ∉ entry.2 := by
  intro entry hentry
  exact (isReadable_iff.1 (isReadable_of_mem_readAll entry hentry)).2.2

theorem readsAs_eq_singleton {entry : Text × Text} (htrim : Text.trim entry.2 = entry.2)
    (h : ';' ∉ entry.2) : readsAs entry = [entry] := by
  rw [readsAs, Text.cut_of_not_mem h, htrim]
  rfl

theorem flatMap_readsAs_eq_self {entries : List (Text × Text)}
    (htrim : ∀ entry ∈ entries, Text.trim entry.2 = entry.2)
    (h : ∀ entry ∈ entries, ';' ∉ entry.2) : entries.flatMap readsAs = entries := by
  induction entries with
  | nil => rfl
  | cons entry entries ih =>
    simp only [List.mem_cons, forall_eq_or_imp] at htrim h
    rw [List.flatMap_cons, readsAs_eq_singleton htrim.1 h.1, ih htrim.2 h.2]
    rfl

theorem mem_of_mem_insertEntry {name value : Text} {entries : List (Text × Text)}
    {entry : Text × Text} (h : entry ∈ insertEntry name value entries) :
    entry = (name, value) ∨ entry ∈ entries := by
  induction entries with
  | nil => exact .inl (List.mem_singleton.1 h)
  | cons other entries ih =>
    rw [insertEntry] at h
    split at h
    . rcases List.mem_cons.1 h with h | h
      . exact .inl h
      . exact .inr (List.mem_cons_of_mem other h)
    . rcases List.mem_cons.1 h with rfl | h
      . exact .inr List.mem_cons_self
      . rcases ih h with h | h
        . exact .inl h
        . exact .inr (List.mem_cons_of_mem other h)

theorem mem_of_mem_insertAll {d : Declarations} {pairs : List (Text × Text)} {entry : Text × Text}
    (h : entry ∈ (d.insertAll pairs).entries) : entry ∈ d.entries ∨ entry ∈ pairs := by
  induction pairs generalizing d with
  | nil => exact .inl h
  | cons pair pairs ih =>
    rcases ih (d := d.insert pair.1 pair.2) h with h | h
    . rcases mem_of_mem_insertEntry h with rfl | h
      . exact .inr List.mem_cons_self
      . exact .inl h
    . exact .inr (List.mem_cons_of_mem pair h)

theorem isReadable_of_mem_ofText {t : Text} : ∀ entry ∈ (ofText t).entries, isReadable entry := by
  intro entry hentry
  rcases mem_of_mem_insertAll hentry with h | h
  . cases h
  . exact isReadable_of_mem_readAll entry h

theorem semicolon_not_mem_ofText {t : Text} : ∀ entry ∈ (ofText t).entries, ';' ∉ entry.2 := by
  intro entry hentry
  exact (isReadable_iff.1 (isReadable_of_mem_ofText entry hentry)).2.2

/--
Declarations are read back from their text if and only if no value holds a semicolon, be it inside
of a string; any other value ends at its first semicolon, and what is behind it is read by itself.
-/
theorem ofText_renderInline_iff {entries : List (Text × Text)}
    (hname : ∀ entry ∈ entries, isIdent entry.1)
    (htrim : ∀ entry ∈ entries, Text.trim entry.2 = entry.2) :
    readAll (renderInline entries) = entries.flatMap readsAs ∧
      (readAll (renderInline entries) = entries ↔ ∀ entry ∈ entries, ';' ∉ entry.2) ∧
      ((∀ entry ∈ entries, ';' ∉ entry.2) → ofText (renderInline entries) = ofList entries) ∧
      ((entries.map Prod.fst).Nodup →
        (ofText (renderInline entries) = ofList entries ↔ ∀ entry ∈ entries, ';' ∉ entry.2)) := by
  have hread := readAll_renderInline hname
  have hkept (h : ∀ entry ∈ entries, ';' ∉ entry.2) :
      readAll (renderInline entries) = entries := by
    rw [hread, flatMap_readsAs_eq_self htrim h]
  have hofText (h : ∀ entry ∈ entries, ';' ∉ entry.2) :
      ofText (renderInline entries) = ofList entries := by
    rw [ofText, hkept h]
  refine ⟨hread, ⟨?_, hkept⟩, hofText, ?_⟩
  . intro heq
    rw [← heq]
    exact semicolon_not_mem_of_mem_readAll
  . intro hnodup
    refine ⟨?_, hofText⟩
    intro heq
    have hentries : (ofList entries).entries = entries := entries_insertAll (d := empty) hnodup
    rw [← hentries, ← heq]
    exact semicolon_not_mem_ofText

theorem ofText_renderInline_string :
    (∀ entry ∈ [(['a'], "\"x, y\"".toList), (['b'], "c".toList)], isIdent entry.1) ∧
      (∀ entry ∈ [(['a'], "\"x, y\"".toList), (['b'], "c".toList)],
        Text.trim entry.2 = entry.2) ∧
      ofText (renderInline [(['a'], "\"x, y\"".toList), (['b'], "c".toList)]) =
        ofList [(['a'], "\"x, y\"".toList), (['b'], "c".toList)] ∧
      ofText (renderInline [(['a'], "\"x; y\"".toList), (['b'], "c".toList)]) ≠
        ofList [(['a'], "\"x; y\"".toList), (['b'], "c".toList)] := by
  have hkept := @ofText_renderInline_iff [(['a'], "\"x, y\"".toList), (['b'], "c".toList)]
    (by decide) (by decide)
  have hlost := @ofText_renderInline_iff [(['a'], "\"x; y\"".toList), (['b'], "c".toList)]
    (by decide) (by decide)
  refine ⟨by decide, by decide, hkept.2.2.1 (by decide), ?_⟩
  intro heq
  have := (hlost.2.2.2 (by decide)).1 heq
  revert this
  decide

/--
A string that holds a semicolon is cut there, although it ends and the semicolon is inside of it.
-/
theorem ofText_semicolonInString :
    isIdent "content".toList ∧ Text.trim "\";\"".toList = "\";\"".toList ∧
      Text.isSealed [';'] "\";\"".toList ∧
      renderInline [("content".toList, "\";\"".toList)] = "content: \";\"; ".toList ∧
      ofText "content: \";\"; ".toList = ofList [("content".toList, "\"".toList)] ∧
      ofText "content: \";\"; ".toList ≠ ofList [("content".toList, "\";\"".toList)] := by
  have hread : readAll "content: \";\"; ".toList = [("content".toList, "\"".toList)] := by
    have hwhole : readFirst? "content: \";\"; ".toList =
        some (("content".toList, "\"".toList), "\"; ".toList) := by
      decide
    have hrest : readFirst? "\"; ".toList = none := by
      decide
    rw [readAll_eq_cons hwhole, readAll_eq_nil hrest]
  refine ⟨by decide, by decide, by decide, by decide, by rw [ofText, hread], ?_⟩
  rw [ofText, hread]
  decide

end Declarations

end Stylesheet
