import Mathlib.Data.List.Infix
import Stylesheet.Proofs.Joining
import Stylesheet.Proofs.Scope

/-!
This module contains at-rules without a block by their names. One whose name does not start as that
of a known at-rule is kept as a comment, and what follows it is read as if it were not there. The
names of known at-rules are not told from longer names, so that the others are read as these or lost.
-/

namespace Stylesheet

namespace Keyword

def all : List Text :=
  [media, importRule, charset]

theorem exists_of_mem_all {word : Text} (h : word ∈ all) :
    ∃ w, word = '@' :: w ∧ ∀ c ∈ w, isIdentChar c := by
  have hall : all.all fun word => word.head? == some '@' && word.tail.all isIdentChar := by
    decide
  simp only [List.all_eq_true, Bool.and_eq_true, beq_iff_eq] at hall
  rcases List.head?_eq_some_iff.1 (hall word h).1 with ⟨w, rfl⟩
  exact ⟨w, rfl, (hall _ h).2⟩

end Keyword

theorem toLower_of_isIdentChar_eq_false {c : Char} (h : isIdentChar c = false) :
    c.toLower = c := by
  unfold Char.toLower
  split
  . next hupper =>
    have hisUpper : c.isUpper := by
      unfold Char.isUpper
      simpa using hupper
    have hisAlpha : c.isAlpha := by
      change (c.isUpper || c.isLower) = true
      rw [hisUpper, Bool.true_or]
    simp [isIdentChar, isIdentStart, hisAlpha] at h
  . rfl

/--
A word at the start of two texts ends in the first one, unless it goes on as the second one does.
-/
theorem Text.prefix_of_prefix_append {word t u : Text} (h : word <+: t ++ u)
    (hhead : ∀ c ∈ u.head?, c ∉ word) : word <+: t := by
  rcases List.prefix_or_prefix_of_prefix h (List.prefix_append t u) with ht | ⟨v, rfl⟩
  . exact ht
  . cases v with
    | nil => simp
    | cons c v =>
      rw [List.prefix_append_right_inj] at h
      rcases h with ⟨w, rfl⟩
      exact absurd (by simp) (hhead c rfl)

/--
An at-rule that ends in a semicolon: its name, and what stands after it.
-/
structure Statement where
  name : Text
  rest : Text
deriving DecidableEq, Repr

namespace Statement

def text (s : Statement) : Text :=
  '@' :: (s.name ++ s.rest ++ [';'])

/--
Whether a statement ends where it says, and its name does too; there are no strings and no comments
in it.
-/
structure IsPlain (s : Statement) : Prop where
  name_ne_nil : s.name ≠ []
  name : ∀ c ∈ s.name, isIdentChar c
  head : ∀ c ∈ s.rest.head?, isIdentChar c = false
  signs : ∀ c ∈ s.rest, c ∉ ['"', ';', '{', '}']
  noComment : ¬['/', '*'] <:+: s.rest

theorem isPlain_iff (s : Statement) :
    s.IsPlain ↔
      s.name ≠ [] ∧ s.name.all isIdentChar ∧ s.rest.head?.all (!isIdentChar ·) ∧
        s.rest.all (· ∉ ['"', ';', '{', '}']) ∧ ¬['/', '*'] <:+: s.rest := by
  simp only [List.all_eq_true, Option.all_eq_true, Bool.not_eq_true', decide_eq_true_eq]
  constructor
  . intro h
    exact ⟨h.name_ne_nil, h.name, h.head, h.signs, h.noComment⟩
  . rintro ⟨hne, hname, hhead, hsigns, hcomment⟩
    exact ⟨hne, hname, hhead, hsigns, hcomment⟩

instance (s : Statement) : Decidable s.IsPlain :=
  decidable_of_iff' _ s.isPlain_iff

/--
The name with its `@`, in lower case.
-/
def keyword (s : Statement) : Text :=
  ('@' :: s.name).map Char.toLower

/--
Whether the name starts with that of none of the at-rules that are known.
-/
def IsUnknown (s : Statement) : Prop :=
  ∀ word ∈ Keyword.all, ¬word <+: s.keyword

instance (s : Statement) : Decidable s.IsUnknown :=
  inferInstanceAs (Decidable (∀ word ∈ Keyword.all, ¬word <+: s.keyword))

namespace IsPlain

variable {s : Statement}

/--
A word is looked for in the whole text, but cannot go on after the name.
-/
theorem afterWord?_eq_none_iff (h : s.IsPlain) {word : Text} (hword : word ∈ Keyword.all) :
    Text.afterWord? word s.text = none ↔ ¬word <+: s.keyword := by
  rcases Keyword.exists_of_mem_all hword with ⟨w, rfl, hw⟩
  have htext : s.text.map Char.toLower =
      '@' :: (s.name.map Char.toLower ++ (s.rest ++ [';']).map Char.toLower) := by
    simp [text]
  have hkeyword : s.keyword = '@' :: s.name.map Char.toLower := rfl
  rw [Text.afterWord?_eq_none_iff, htext, hkeyword, List.cons_prefix_cons, List.cons_prefix_cons,
    not_iff_not, and_congr_right_iff]
  intro _
  constructor
  . intro hprefix
    apply Text.prefix_of_prefix_append hprefix
    intro c hc hmem
    rw [List.head?_map, Option.mem_def, Option.map_eq_some_iff] at hc
    rcases hc with ⟨d, hd, rfl⟩
    have hident : isIdentChar d = false := by
      cases hrest : s.rest with
      | nil =>
        rw [hrest, List.nil_append, List.head?_cons, Option.some.injEq] at hd
        rw [← hd]
        decide
      | cons e rest =>
        rw [hrest, List.cons_append, List.head?_cons, Option.some.injEq] at hd
        exact h.head d (by rw [hrest, hd]; rfl)
    rw [toLower_of_isIdentChar_eq_false hident] at hmem
    rw [hw d hmem] at hident
    cases hident
  . exact fun hprefix => hprefix.trans (List.prefix_append _ _)

theorem signs_append (h : s.IsPlain) : ∀ c ∈ s.name ++ s.rest, c ∉ ['"', ';', '{', '}'] := by
  intro c hc
  rcases List.mem_append.1 hc with hc | hc
  . intro hsign
    have hall : ['"', ';', '{', '}'].all fun d => !isIdentChar d := by decide
    have hident := List.all_eq_true.1 hall c hsign
    rw [h.name c hc] at hident
    cases hident
  . exact h.signs c hc

theorem noComment_append (h : s.IsPlain) : ¬['/', '*'] <:+: s.name ++ s.rest := by
  have hname := h.name
  generalize s.name = name at hname
  induction name with
  | nil => exact h.noComment
  | cons c name ih =>
    rw [List.forall_mem_cons] at hname
    intro hinfix
    rw [List.cons_append, List.infix_cons_iff, List.cons_prefix_cons] at hinfix
    rcases hinfix with ⟨rfl, -⟩ | hinfix
    . cases hname.1
    . exact ih hname.2 hinfix

theorem reads (h : s.IsPlain) : Draft.Reads s.text [.text s.text] := by
  apply Draft.reads_statement
  exact Text.isSealed_of_signs (by simp) h.signs_append h.noComment_append

theorem isComment (h : s.IsPlain) (hunknown : s.IsUnknown) : Block.IsComment s.text := by
  have hword (word : Text) (hmem : word ∈ Keyword.all) : Text.afterWord? word s.text = none :=
    (h.afterWord?_eq_none_iff hmem).2 (hunknown word hmem)
  apply Block.IsComment.statement
  . exact hword Keyword.media (by simp [Keyword.all])
  . exact hword Keyword.importRule (by simp [Keyword.all])
  . exact hword Keyword.charset (by simp [Keyword.all])
  . exact h.signs_append
  . exact h.noComment_append

/--
A text that starts as a known at-rule is not kept as it is.
-/
theorem isUnknown_of_block? (h : s.IsPlain) {media : Media}
    (hblock : (Resolution.ofText media s.text).block? = some (.comment s.text)) :
    s.IsUnknown := by
  intro word hword
  rw [← h.afterWord?_eq_none_iff hword]
  unfold Resolution.ofText Resolution.ofImport Resolution.ofCharset at hblock
  simp only [Keyword.all, List.mem_cons, List.not_mem_nil, or_false] at hword
  split at hblock
  . cases hblock
  split at hblock
  . split at hblock <;> cases hblock
  split at hblock
  . split at hblock <;> cases hblock
  . rcases hword with rfl | rfl | rfl <;> simp_all

theorem yields (h : s.IsPlain) (hunknown : s.IsUnknown) (media : Media) :
    Yields media s.text [.comment s.text] media := by
  apply Yields.of_block
  . exact h.reads
  . exact (h.isComment hunknown).ofText media

theorem ofText_text (h : s.IsPlain) : Record.ofText s.text = [.text s.text] := by
  rw [Record.ofText_eq_read, h.reads.records_eq]

theorem mediaAfter_iff (h : s.IsPlain) :
    (∀ media, Resolution.mediaAfter media (Record.ofText s.text) = media) ↔
      ¬Keyword.media <+: s.keyword := by
  rw [h.ofText_text, ← h.afterWord?_eq_none_iff (by simp [Keyword.all])]
  simp only [Resolution.mediaAfter, Resolution.media_ofRecord, Record.media?_text]
  cases Text.afterWord? Keyword.media s.text with
  | none => simp
  | some types =>
    -- what is set is the same whatever was set before
    simp only [reduceCtorEq, iff_false]
    intro hkeeps
    have hnone : Media.ofText types = none := hkeeps none
    have hsome : Media.ofText types = some [] := hkeeps (some [])
    rw [hnone] at hsome
    cases hsome

end IsPlain

end Statement

/--
A text that leaves the media types as they are can be put in wherever nothing is open, and changes
no block of the text around it.
-/
theorem Sheet.blocks_ofText_insert {a t : Text} {bs : List Block}
    (ha : (State.ofText a).IsClear a) (ht : ∀ media, Yields media t bs media) (b : Text) :
    ∃ blocks, (Sheet.ofText (a ++ b)).blocks = (Sheet.ofText a).blocks ++ blocks ∧
      (Sheet.ofText (a ++ (t ++ b))).blocks = (Sheet.ofText a).blocks ++ (bs ++ blocks) := by
  rcases ht (Resolution.mediaAfter none (Record.ofText a)) with
    ⟨records, hreads, hmedia, hblocks, -⟩
  have hrecords : Record.ofText (t ++ b) = records ++ Record.ofText b := by
    rw [Record.ofText_eq_read, (Draft.read_append_of_isClear hreads.clear b).2, hreads.records_eq,
      Record.ofText_eq_read]
  unfold Sheet.ofText
  rw [Record.ofText_append_of_isClear ha, Record.ofText_append_of_isClear ha, hrecords,
    Block.ofRecords_append, Block.ofRecords_append, Resolution.ofRecords_append, hmedia,
    List.filterMap_append, hblocks]
  exact ⟨_, rfl, rfl⟩

namespace Statement

/--
A statement is kept as a comment if and only if its name starts with that of no known at-rule. It
leaves the media types as they are if and only if its name does not start with `media`. A statement
that is kept changes nothing else, wherever it is written with nothing open before it.
-/
theorem ofText_text_iff {s : Statement} (h : s.IsPlain) :
    ((Sheet.ofText s.text).blocks = [.comment s.text] ↔ s.IsUnknown) ∧
      ((∀ media, Resolution.mediaAfter media (Record.ofText s.text) = media) ↔
        ¬Keyword.media <+: s.keyword) ∧
      (s.IsUnknown → ∀ a b, (State.ofText a).IsClear a →
        ∃ blocks, (Sheet.ofText (a ++ b)).blocks = (Sheet.ofText a).blocks ++ blocks ∧
          (Sheet.ofText (a ++ (s.text ++ b))).blocks =
            (Sheet.ofText a).blocks ++ .comment s.text :: blocks) := by
  refine ⟨⟨?_, ?_⟩, h.mediaAfter_iff, ?_⟩
  . intro hblocks
    rw [Sheet.ofText, h.ofText_text, Block.ofRecords_singleton] at hblocks
    exact h.isUnknown_of_block? (Option.toList_eq_singleton_iff.1 hblocks)
  . intro hunknown
    exact (h.yields hunknown none).blocks_ofText
  . intro hunknown a b ha
    exact Sheet.blocks_ofText_insert ha (h.yields hunknown) b

def medium : Statement :=
  ⟨"Medium".toList, " */ @x 'y' ".toList⟩

/--
A statement whose name shares some letters with `media`, after a group has started.
-/
theorem ofText_text_medium :
    medium.IsPlain ∧ medium.IsUnknown ∧
      (Sheet.ofText medium.text).blocks = [.comment medium.text] ∧
      (State.ofText "@media print\x7b".toList).IsClear "@media print\x7b".toList ∧
      ∃ blocks, (Sheet.ofText ("@media print\x7b".toList ++ "a\x7bb:c\x7d".toList)).blocks =
          (Sheet.ofText "@media print\x7b".toList).blocks ++ blocks ∧
        (Sheet.ofText ("@media print\x7b".toList ++
            (medium.text ++ "a\x7bb:c\x7d".toList))).blocks =
          (Sheet.ofText "@media print\x7b".toList).blocks ++ .comment medium.text :: blocks := by
  have hplain : medium.IsPlain := by decide +kernel
  have hunknown : medium.IsUnknown := by decide
  have hclear : (State.ofText "@media print\x7b".toList).IsClear "@media print\x7b".toList :=
    ⟨by decide, by decide, by decide⟩
  have h := ofText_text_iff hplain
  exact ⟨hplain, hunknown, h.1.2 hunknown, hclear, h.2.2 hunknown _ _ hclear⟩

def mediaX : Statement :=
  ⟨"media-x".toList, " y".toList⟩

/--
A statement whose name only starts with `media` is lost, and sets the media types of the ruleset
after it.
-/
theorem ofText_text_mediaX :
    mediaX.IsPlain ∧ (∀ word ∈ Keyword.all, mediaX.keyword ≠ word) ∧
      mediaX.text = "@media-x y;".toList ∧
      (Sheet.ofText mediaX.text).blocks = [] ∧
      (Sheet.ofText "a\x7bb:c\x7d".toList).blocks =
        [.ruleset ⟨[.element ['a']], ⟨[(['b'], ['c'])], by decide⟩, none, by decide⟩] ∧
      (Sheet.ofText (mediaX.text ++ "a\x7bb:c\x7d".toList)).blocks =
        [.ruleset ⟨[.element ['a']], ⟨[(['b'], ['c'])], by decide⟩, some ["-x y;".toList],
          by decide⟩] := by
  exact ⟨by decide +kernel, by decide +kernel, by decide +kernel, by decide +kernel,
    by decide +kernel, by decide +kernel⟩

end Statement

end Stylesheet
