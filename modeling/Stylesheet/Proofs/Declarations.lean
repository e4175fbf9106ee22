import Mathlib.Data.List.Basic
import Stylesheet.Declarations.Reader
import Stylesheet.Proofs.Text.Trim
import Stylesheet.Ruleset

/-!
This module contains the reading of declarations as they are written: the reader finds each of them,
and keeps them in their order.
-/

namespace Stylesheet
namespace Declarations

/--
Whether a declaration is read back as it is: no blanks stand around the value, and nothing in it
ends the declaration.
-/
def isReadable (entry : Text × Text) : Bool :=
  isIdent entry.1 && Text.trim entry.2 == entry.2 && !entry.2.contains ';'

theorem readAt?_declaration {entry : Text × Text} (h : isReadable entry) (rest : Text) :
    readAt? (entry.1 ++ ':' :: ' ' :: (entry.2 ++ ';' :: rest)) = some (entry, rest) := by
  simp only [isReadable, Bool.and_eq_true, Bool.not_eq_true', beq_iff_eq, List.contains_eq_mem,
    decide_eq_false_iff_not] at h
  have hvalue : ∀ c ∈ ' ' :: entry.2, (c != ';') := by
    intro c hc
    rw [bne_iff_ne]
    intro heq
    subst heq
    rcases List.mem_cons.1 hc with hc | hc
    . cases hc
    . exact h.2 hc
  have htake : (' ' :: (entry.2 ++ ';' :: rest)).takeWhile (· != ';') = ' ' :: entry.2 := by
    rw [← List.cons_append, List.takeWhile_append_of_pos hvalue]
    simp
  have hdrop : (' ' :: (entry.2 ++ ';' :: rest)).dropWhile (· != ';') = ';' :: rest := by
    rw [← List.cons_append, List.dropWhile_append_of_pos hvalue]
    simp
  have htrim : Text.trim (' ' :: entry.2) = entry.2 := by
    have := Text.trim_blank_append (w := [' ']) rfl entry.2
    rwa [h.1.2] at this
  have hcolon : Text.trimStart (':' :: ' ' :: (entry.2 ++ ';' :: rest)) =
      ':' :: ' ' :: (entry.2 ++ ';' :: rest) := rfl
  rw [readAt?, takeIdent?_append h.1.1 (by decide)]
  simp only [hcolon, htake, hdrop, htrim]
  simp

theorem readFirst?_blank_append {w : Text} (hw : Text.blank w) (t : Text) :
    readFirst? (w ++ t) = readFirst? t := by
  induction w with
  | nil => rfl
  | cons c w ih =>
    simp only [Text.blank_cons, Bool.and_eq_true] at hw
    have hstart : isIdentStart c = false := by
      rw [Bool.eq_false_iff]
      intro h
      have := isBlank_eq_false_of_isIdentChar (isIdentChar_of_isIdentStart h)
      rw [hw.1] at this
      cases this
    have hread : readAt? (c :: (w ++ t)) = none := by
      simp [readAt?, takeIdent?, hstart]
    rw [List.cons_append, readFirst?, hread]
    exact ih hw.2

theorem readAll_congr {t u : Text} (h : readFirst? t = readFirst? u) : readAll t = readAll u := by
  cases hu : readFirst? u with
  | none => rw [readAll_eq_nil (h.trans hu), readAll_eq_nil hu]
  | some result => rw [readAll_eq_cons (h.trans hu), readAll_eq_cons hu]

theorem readAll_blank_append {w : Text} (hw : Text.blank w) (t : Text) :
    readAll (w ++ t) = readAll t :=
  readAll_congr (readFirst?_blank_append hw t)

theorem readAll_of_blank {w : Text} (hw : Text.blank w) : readAll w = [] := by
  have := readAll_blank_append hw []
  rw [List.append_nil] at this
  rw [this]
  exact readAll_eq_nil rfl

theorem readAll_declaration {entry : Text × Text} (h : isReadable entry) (rest : Text) :
    readAll (entry.1 ++ ':' :: ' ' :: (entry.2 ++ ';' :: rest)) = entry :: readAll rest := by
  apply readAll_eq_cons
  have hread := readAt?_declaration h rest
  cases hname : entry.1 with
  | nil => simp [isReadable, hname, isIdent] at h
  | cons c name =>
    rw [hname] at hread
    rw [List.cons_append] at hread ⊢
    rw [readFirst?, hread]

theorem readAll_flatMap {entries : List (Text × Text)} (h : ∀ entry ∈ entries, isReadable entry)
    {w : Text} (hw : Text.blank w) (rest : Text) :
    readAll (entries.flatMap (Ruleset.renderEntry w) ++ rest) = entries ++ readAll rest := by
  induction entries with
  | nil => rfl
  | cons entry entries ih =>
    simp only [List.mem_cons, forall_eq_or_imp] at h
    have hentry := readAll_declaration h.1
      (['\n'] ++ (entries.flatMap (Ruleset.renderEntry w) ++ rest))
    rw [readAll_blank_append (w := ['\n']) rfl, ih h.2] at hentry
    have htext : (entry :: entries).flatMap (Ruleset.renderEntry w) ++ rest =
        w ++ (entry.1 ++ ':' :: ' ' :: (entry.2 ++
          ';' :: (['\n'] ++ (entries.flatMap (Ruleset.renderEntry w) ++ rest)))) := by
      simp [Ruleset.renderEntry]
    rw [htext, readAll_blank_append hw, hentry]
    rfl

theorem readAll_trimStart (t : Text) : readAll (Text.trimStart t) = readAll t := by
  rcases Text.exists_trimStart t with ⟨w, hw, ht⟩
  have := readAll_blank_append hw (Text.trimStart t)
  rw [← ht] at this
  exact this.symm

theorem readAll_trim_append {w : Text} (hw : Text.blank w) (t : Text) :
    readAll (Text.trim (t ++ ';' :: w)) = readAll (t ++ [';']) := by
  have hlast : ∀ c ∈ (Text.trimStart (t ++ [';'])).getLast?, isBlank c = false := by
    rw [Text.trimStart_append]
    split
    . intro c hc
      cases hc
      rfl
    . simp [isBlank]
  have hsplit : t ++ ';' :: w = t ++ [';'] ++ w := by
    simp
  rw [hsplit, Text.trim_append_blank hw, Text.trim, Text.trimEnd_eq_self hlast, readAll_trimStart]

theorem readAll_trim_flatMap {entries : List (Text × Text)}
    (h : ∀ entry ∈ entries, isReadable entry) {v w : Text} (hv : Text.blank v) (hw : Text.blank w) :
    readAll (Text.trim ('\n' :: (entries.flatMap (Ruleset.renderEntry v) ++ w))) = entries := by
  rcases List.eq_nil_or_concat entries with rfl | ⟨first, last, rfl⟩
  . have hblank : Text.blank ('\n' :: w) := hw
    rw [List.flatMap_nil, List.nil_append, Text.trim_of_blank hblank]
    exact readAll_of_blank rfl
  . simp only [List.concat_eq_append, List.mem_append, List.mem_singleton] at h
    -- The blanks after the last declaration go, but not any others: they may be a value.
    have hbody : Text.blank ('\n' :: w) := hw
    have htext : '\n' :: ((first.concat last).flatMap (Ruleset.renderEntry v) ++ w) =
        ['\n'] ++ (first.flatMap (Ruleset.renderEntry v) ++
          (v ++ (last.1 ++ ':' :: ' ' :: last.2))) ++ ';' :: '\n' :: w := by
      simp [Ruleset.renderEntry]
    have hlast := readAll_declaration (h last (.inr rfl)) []
    have hnil : readAll [] = [] := readAll_of_blank rfl
    rw [hnil] at hlast
    rw [htext, readAll_trim_append hbody, List.append_assoc, readAll_blank_append (w := ['\n']) rfl,
      List.append_assoc, readAll_flatMap (fun entry he => h entry (.inl he)) hv, List.append_assoc,
      readAll_blank_append hv]
    simpa using hlast

theorem insertEntry_of_not_mem {name : Text} (value : Text) {entries : List (Text × Text)}
    (h : name ∉ entries.map Prod.fst) :
    insertEntry name value entries = entries ++ [(name, value)] := by
  induction entries with
  | nil => rfl
  | cons entry entries ih =>
    simp only [List.map_cons, List.mem_cons, not_or] at h
    rw [insertEntry, if_neg (Ne.symm h.1), ih h.2]
    rfl

theorem entries_insertAll {d : Declarations} {pairs : List (Text × Text)}
    (h : ((d.entries ++ pairs).map Prod.fst).Nodup) :
    (d.insertAll pairs).entries = d.entries ++ pairs := by
  induction pairs generalizing d with
  | nil => simp [insertAll]
  | cons pair pairs ih =>
    have hname : pair.1 ∉ d.entries.map Prod.fst := by
      intro hmem
      rw [List.map_append, List.nodup_append] at h
      exact h.2.2 pair.1 hmem pair.1 (by simp) rfl
    have hinsert : (d.insert pair.1 pair.2).entries = d.entries ++ [pair] :=
      insertEntry_of_not_mem pair.2 hname
    have hrest := ih (d := d.insert pair.1 pair.2) (by simpa [hinsert] using h)
    rw [hinsert, List.append_assoc] at hrest
    exact hrest

theorem ofList_entries (d : Declarations) : ofList d.entries = d := by
  apply Declarations.ext
  exact entries_insertAll (d := empty) d.nodup_names

theorem lookup_of_mem {entries : List (Text × Text)} (hnodup : (entries.map Prod.fst).Nodup)
    {entry : Text × Text} (h : entry ∈ entries) : entries.lookup entry.1 = some entry.2 := by
  induction entries with
  | nil => cases h
  | cons first entries ih =>
    rw [List.map_cons, List.nodup_cons] at hnodup
    rcases List.mem_cons.1 h with rfl | h
    . exact List.lookup_cons_self
    . have hne : entry.1 ≠ first.1 := by
        intro heq
        exact hnodup.1 (heq ▸ List.mem_map_of_mem h)
      rw [List.lookup_cons, beq_false_of_ne hne]
      exact ih hnodup.2 h

theorem get?_of_mem {d : Declarations} {entry : Text × Text} (h : entry ∈ d.entries) :
    d.get? entry.1 = some entry.2 :=
  lookup_of_mem d.nodup_names h

end Declarations
end Stylesheet
