import Mathlib.Data.List.DropRight
import Stylesheet.Proofs.Declarations.Insertion
import Stylesheet.Proofs.Declarations.Segment
import Stylesheet.Proofs.Text.CommaList

/-!
This module contains declarations as they are told by their colons. In each segment the first colon
with a name before it and text after it makes a declaration, whatever else stands in the segment;
what the reader finds from the start of a name is the same.
-/

namespace Stylesheet

/--
The ways of cutting a text in two at one of its `sep`, from the first one on.
-/
def Text.cuts (sep : Char) : Text → List (Text × Text)
  | [] => []
  | c :: t =>
    let later := (cuts sep t).map fun parts => (c :: parts.1, parts.2)
    if c = sep then ([], t) :: later else later

namespace Text

theorem rtakeWhile_append_cons {p : Char → Bool} {c : Char} (hc : p c = false) (t u : Text) :
    (t ++ c :: u).rtakeWhile p = u.rtakeWhile p := by
  simp [List.rtakeWhile, takeWhile_append_cons hc]

theorem rtakeWhile_cons (p : Char → Bool) (c : Char) (t : Text) :
    (c :: t).rtakeWhile p = if p c && t.all p then c :: t else t.rtakeWhile p := by
  induction t using List.reverseRecOn with
  | nil => cases h : p c <;> simp [List.rtakeWhile, h]
  | append_singleton t d ih =>
    rw [← List.cons_append, List.rtakeWhile_concat, List.rtakeWhile_concat, ih, List.all_append,
      List.all_cons, List.all_nil, Bool.and_true, ← Bool.and_assoc]
    cases p c && t.all p <;> cases p d <;> simp

end Text

namespace Declarations

/--
The name that a text ends in but for blanks: the longest run of letters, digits, `_` and `-` there,
without the digits at its start. A run of digits alone is none.
-/
def nameBefore? (t : Text) : Option Text :=
  let run := (Text.trimEnd t).rtakeWhile isIdentChar
  if run.all Char.isDigit then none else some (run.dropWhile Char.isDigit)

/--
The declaration that a colon between `before` and `after` makes.
-/
def atColon? (before after : Text) : Option (Text × Text) :=
  if after = [] then none else (nameBefore? before).map fun name => (name, Text.trim after)

/--
The declaration of a segment, which is that of the first colon that makes one.
-/
def ofSegment? (t : Text) : Option (Text × Text) :=
  (Text.cuts ':' t).findSome? fun parts => atColon? parts.1 parts.2

/--
The declarations of all segments in order, repeated ones too.
-/
def ofSegments (t : Text) : List (Text × Text) :=
  (t.splitOn ';').filterMap ofSegment?

theorem nameBefore?_nil : nameBefore? [] = none := rfl

theorem nameBefore?_append_colon (t u : Text) : nameBefore? (t ++ ':' :: u) = nameBefore? u := by
  unfold nameBefore?
  rw [Text.trimEnd_append_cons (by decide), Text.rtakeWhile_append_cons (by decide)]

theorem rtakeWhile_trimEnd_cons (c : Char) (t : Text) :
    (Text.trimEnd (c :: t)).rtakeWhile isIdentChar =
      if isIdentChar c && (Text.trimEnd t).all isIdentChar then
        c :: Text.trimEnd t
      else
        (Text.trimEnd t).rtakeWhile isIdentChar := by
  rw [Text.trimEnd_cons]
  split
  . next h =>
    rw [Text.blank_cons, Bool.and_eq_true] at h
    have hc : isIdentChar c = false := by
      rw [Bool.eq_false_iff]
      intro hident
      rw [isBlank_eq_false_of_isIdentChar hident] at h
      cases h.1
    rw [hc, Text.trimEnd_eq_nil.2 h.2]
    rfl
  . rw [Text.rtakeWhile_cons]

theorem nameBefore?_cons (c : Char) (t : Text) :
    nameBefore? (c :: t) =
      if isIdentStart c && (Text.trimEnd t).all isIdentChar then
        some (c :: Text.trimEnd t)
      else
        nameBefore? t := by
  unfold nameBefore?
  rw [rtakeWhile_trimEnd_cons]
  cases hstart : isIdentStart c with
  | true =>
    have hdigit := isDigit_eq_false_of_isIdentStart hstart
    cases (Text.trimEnd t).all isIdentChar <;> simp [isIdentChar, hstart, hdigit]
  | false =>
    -- A digit before a name belongs to its run, but not to the name.
    cases hall : (Text.trimEnd t).all isIdentChar with
    | true =>
      rw [List.all_eq_true] at hall
      rw [List.rtakeWhile_eq_self_iff.2 hall]
      cases hdigit : c.isDigit <;> simp [isIdentChar, hstart, hdigit]
    | false => simp

theorem trimEnd_eq_takeWhile {t : Text} (h : Text.blank (t.dropWhile isIdentChar)) :
    Text.trimEnd t = t.takeWhile isIdentChar := by
  have hlast : ∀ c ∈ (t.takeWhile isIdentChar).getLast?, isBlank c = false := by
    intro c hc
    apply isBlank_eq_false_of_isIdentChar
    exact List.mem_takeWhile_imp (List.mem_of_getLast? hc)
  have hsplit : t = t.takeWhile isIdentChar ++ t.dropWhile isIdentChar :=
    List.takeWhile_append_dropWhile.symm
  rw [hsplit, Text.trimEnd_append_blank h, Text.trimEnd_eq_self hlast, ← hsplit]

theorem blank_dropWhile_iff {t : Text} :
    Text.blank (t.dropWhile isIdentChar) ↔ (Text.trimEnd t).all isIdentChar := by
  constructor
  . intro h
    rw [trimEnd_eq_takeWhile h]
    exact List.all_takeWhile
  . intro h
    rcases Text.exists_trimEnd t with ⟨w, hw, ht⟩
    rw [List.all_eq_true] at h
    rw [ht, List.dropWhile_append_of_pos h]
    have hsub := List.dropWhile_sublist (l := w) isIdentChar
    rw [Text.blank, List.all_eq_true]
    intro c hc
    exact Text.isBlank_of_mem hw (hsub.mem hc)

section Reader

variable {before after : Text}

/--
At the start of a name that the first colon of a text follows, the reader finds what the colon
makes; anywhere else before the colon it finds nothing.
-/
theorem readAt?_append_colon {c : Char} (hbefore : ':' ∉ before) (hafter : ';' ∉ after) :
    readAt? (c :: (before ++ ':' :: after)) =
      if isIdentStart c && (Text.trimEnd before).all isIdentChar && !after.isEmpty then
        some ((c :: Text.trimEnd before, Text.trim after), [])
      else
        none := by
  have hplain : ∀ d ∈ after, (d != ';') := by
    intro d hd
    rw [bne_iff_ne]
    rintro rfl
    exact hafter hd
  have htake : after.takeWhile (· != ';') = after := List.takeWhile_eq_self_iff.2 hplain
  have hdrop : after.dropWhile (· != ';') = [] := List.dropWhile_eq_nil_iff.2 hplain
  cases hstart : isIdentStart c with
  | false => simp [readAt?, takeIdent?, hstart]
  | true =>
    have hident : takeIdent? (c :: (before ++ ':' :: after)) =
        some (c :: before.takeWhile isIdentChar, before.dropWhile isIdentChar ++ ':' :: after) := by
      rw [takeIdent?, if_pos hstart, Text.takeWhile_append_cons (by decide),
        Text.dropWhile_append_cons (by decide)]
    rw [readAt?, hident]
    dsimp only
    rw [Text.trimStart_append]
    by_cases hblank : Text.blank (before.dropWhile isIdentChar)
    . have hcolon : Text.trimStart (':' :: after) = ':' :: after := rfl
      rw [if_pos hblank, ← trimEnd_eq_takeWhile hblank, blank_dropWhile_iff.1 hblank, hcolon]
      simp only [htake, hdrop]
      cases after <;> simp
    . have hall : (Text.trimEnd before).all isIdentChar = false := by
        rw [Bool.eq_false_iff]
        exact mt blank_dropWhile_iff.2 hblank
      rw [if_neg hblank, hall]
      cases htrim : Text.trimStart (before.dropWhile isIdentChar) with
      | nil => exact absurd (Text.trimStart_eq_nil.1 htrim) hblank
      | cons d rest =>
        have hd : d ≠ ':' := by
          rintro rfl
          apply hbefore
          apply (List.dropWhile_sublist isIdentChar).mem
          apply (List.dropWhile_sublist isBlank).mem
          rw [← Text.trimStart, htrim]
          exact List.mem_cons_self
        simp [hd]

theorem readAt?_of_colon_not_mem {t : Text} (h : ':' ∉ t) : readAt? t = none := by
  cases hread : readAt? t with
  | none => rfl
  | some result =>
    rcases readAt?_eq_some_iff.1 hread with ⟨name, rest, r, hident, htrim, -⟩
    have hmem : ':' ∈ Text.trimStart rest := by
      rw [htrim]
      exact List.mem_cons_self
    exfalso
    apply h
    rw [(isIdent_of_takeIdent? hident).2]
    apply List.mem_append_right
    exact (List.dropWhile_sublist isBlank).mem hmem

theorem readFirst?_of_colon_not_mem {t : Text} (h : ':' ∉ t) : readFirst? t = none := by
  induction t with
  | nil => rfl
  | cons c t ih =>
    rw [readFirst?, readAt?_of_colon_not_mem h]
    exact ih (List.not_mem_of_not_mem_cons h)

/--
The reader finds the declaration of the first colon if that makes one, and goes on after the colon
otherwise.
-/
theorem readFirst?_append_colon (hbefore : ':' ∉ before) (hafter : ';' ∉ after) :
    readFirst? (before ++ ':' :: after) =
      ((atColon? before after).map fun entry => (entry, [])).or (readFirst? after) := by
  induction before with
  | nil =>
    have hnone : readAt? (':' :: after) = none := rfl
    rw [List.nil_append, readFirst?, hnone, atColon?, nameBefore?_nil]
    cases after <;> rfl
  | cons c before ih =>
    have hrest := List.not_mem_of_not_mem_cons hbefore
    rw [List.cons_append, readFirst?, readAt?_append_colon hrest hafter, ih hrest]
    unfold atColon?
    rw [nameBefore?_cons]
    cases after with
    | nil => simp
    | cons d after => cases isIdentStart c && (Text.trimEnd before).all isIdentChar <;> simp

/--
Beyond the first colon, what stands before that colon no longer matters.
-/
theorem atColon?_append_colon (first : Text) :
    atColon? (first ++ ':' :: before) after = atColon? before after := by
  unfold atColon?
  rw [nameBefore?_append_colon]

theorem readFirst?_append (hbefore : ':' ∉ before) (hafter : ';' ∉ after) :
    readFirst? (before ++ after) =
      ((Text.cuts ':' after).findSome? fun parts => atColon? (before ++ parts.1) parts.2).map
        fun entry => (entry, []) := by
  -- `before` is what stands between the last colon and the place that the cuts have come to.
  induction after generalizing before with
  | nil =>
    rw [List.append_nil]
    exact readFirst?_of_colon_not_mem hbefore
  | cons c after ih =>
    have hrest := List.not_mem_of_not_mem_cons hafter
    unfold Text.cuts
    dsimp only
    split
    . next hc =>
      subst hc
      have hnil : ':' ∉ ([] : Text) := List.not_mem_nil
      have hlater := ih hnil hrest
      rw [readFirst?_append_colon hbefore hrest, List.findSome?_cons, List.append_nil,
        List.findSome?_map]
      simp only [Function.comp_def, atColon?_append_colon]
      rw [List.nil_append] at hlater
      rw [hlater]
      cases atColon? before after <;> rfl
    . next hc =>
      have hlater : ':' ∉ before ++ [c] := by
        simp [hbefore, Ne.symm hc]
      have hread := ih hlater hrest
      rw [List.append_assoc, List.singleton_append] at hread
      rw [hread, List.findSome?_map]
      simp [Function.comp_def]

theorem readAll_of_semicolon_not_mem {t : Text} (h : ';' ∉ t) :
    readAll t = (ofSegment? t).toList := by
  have hnil : ':' ∉ ([] : Text) := List.not_mem_nil
  have hread := readFirst?_append hnil h
  rw [List.nil_append] at hread
  change readFirst? t = (ofSegment? t).map fun entry => (entry, []) at hread
  cases hsegment : ofSegment? t with
  | none =>
    rw [hsegment] at hread
    exact readAll_eq_nil hread
  | some entry =>
    rw [hsegment] at hread
    have hrest : readAll [] = [] := readAll_of_blank Text.blank_nil
    rw [readAll_eq_cons hread, hrest]
    rfl

end Reader

theorem readAll_intercalate (ts : List Text) :
    readAll ([';'].intercalate ts) = ts.flatMap readAll := by
  induction ts with
  | nil => exact readAll_of_blank rfl
  | cons t ts ih =>
    cases ts with
    | nil => simp
    | cons u ts =>
      rw [List.intercalate_cons_cons, List.append_assoc, List.singleton_append,
        readAll_append_semicolon, ih]
      rfl

theorem readAll_eq_ofSegments (t : Text) : readAll t = ofSegments t := by
  have hsegments : ∀ segment ∈ t.splitOn ';', readAll segment = (ofSegment? segment).toList := by
    intro segment hsegment
    apply readAll_of_semicolon_not_mem
    exact Text.not_mem_of_mem_splitOn hsegment
  have hread := readAll_intercalate (t.splitOn ';')
  rw [List.intercalate_splitOn, List.flatMap_congr hsegments] at hread
  rw [hread, ofSegments, List.filterMap_eq_flatMap_toList]

/--
The declarations of a text are those of its segments, one after the other: each name at the place
where it comes first, with the value that comes last. So those behind a semicolon are added to those
before it.
-/
theorem ofText_eq_ofSegments (t : Text) :
    ofText t = ofList (ofSegments t) ∧
      (ofText t).names = ((ofSegments t).map Prod.fst).eraseDups ∧
      (∀ name, (ofText t).get? name = (ofSegments t).reverse.lookup name) ∧
      ∀ u, ofText (t ++ ';' :: u) = (ofText t).insertAll (ofText u).entries := by
  have hread : ofText t = ofList (ofSegments t) := by
    rw [ofText, readAll_eq_ofSegments]
  refine ⟨hread, ?_, ?_, ?_⟩
  . rw [hread, names_ofList]
  . intro name
    rw [hread, get?_ofList]
  . intro u
    unfold ofText
    rw [readAll_append_semicolon, insertAll_entries_ofList]
    apply insertAll_append

example : ofSegments "9: 1a-b : c:d ;e:;f".toList = [("a-b".toList, "c:d".toList)] := by
  decide

end Declarations
end Stylesheet
