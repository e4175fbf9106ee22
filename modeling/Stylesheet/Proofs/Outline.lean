import Stylesheet.Proofs.AtRule
import Stylesheet.Proofs.Concatenation

/-!
This module contains outlines: style sheets as they are written, in parts that stand by themselves
or inside the braces of an `@media` group. The rulesets of a group are read with its media types,
unless an at-rule with a block of its own comes before them in the group.
-/

namespace Stylesheet

/--
A block as it is where `media` holds.
-/
def Block.withMedia (media : Media) : Block → Block
  | ruleset r => ruleset { r with media }
  | b => b

namespace Block

variable {media media' : Media}

@[simp]
theorem withMedia_withMedia (b : Block) :
    (b.withMedia media').withMedia media = b.withMedia media := by
  cases b <;> rfl

theorem withMedia_eq_iff {b : Block} :
    b.withMedia media = b.withMedia media' ↔ media = media' ∨ b.ruleset? = none := by
  cases b <;> simp [withMedia, ruleset?]

theorem map_withMedia_eq_iff {bs : List Block} :
    bs.map (withMedia media) = bs.map (withMedia media') ↔
      media = media' ∨ ∀ b ∈ bs, b.ruleset? = none := by
  rw [List.map_inj_left]
  simp only [withMedia_eq_iff]
  by_cases h : media = media'
  . simp [h]
  . simp [h]

end Block

/--
Whether a record neither sets the media types nor sets them back.
-/
def Record.IsQuiet : Record → Prop
  | text t => Text.afterWord? Keyword.media t = none
  | rule _ _ => True
  | groupEnd => False

namespace Resolution

theorem ofRecord_of_isQuiet {record : Record} (h : record.IsQuiet) (media : Media) :
    (ofRecord media record).media = media ∧
      (ofRecord media record).block? =
        (ofRecord none record).block?.map (Block.withMedia media) := by
  cases record with
  | text t =>
    have hmedia : Text.afterWord? Keyword.media t = none := h
    simp only [ofRecord, ofText, hmedia]
    split
    . unfold ofImport
      split <;> exact ⟨rfl, rfl⟩
    . split
      . unfold ofCharset
        split <;> exact ⟨rfl, rfl⟩
      . exact ⟨rfl, rfl⟩
  | rule selectors declarations =>
    simp only [ofRecord, ofRule, Ruleset.ofParts]
    by_cases hnil : Selector.ofText selectors = []
    . simp [hnil]
    . simp [hnil, Block.withMedia]
  | groupEnd => cases h

theorem ofRecords_of_isQuiet {rs : List Record} (h : ∀ r ∈ rs, r.IsQuiet) (media : Media) :
    mediaAfter media rs = media ∧
      (ofRecords media rs).filterMap (·.block?) =
        (Block.ofRecords rs).map (Block.withMedia media) := by
  unfold Block.ofRecords
  induction rs with
  | nil => exact ⟨rfl, rfl⟩
  | cons r rs ih =>
    simp only [List.mem_cons, forall_eq_or_imp] at h
    rcases ofRecord_of_isQuiet h.1 media with ⟨hmedia, hblock⟩
    have hnone := (ofRecord_of_isQuiet h.1 none).1
    rcases ih h.2 with ⟨hafter, hblocks⟩
    simp only [mediaAfter, ofRecords, List.filterMap_cons, hmedia, hnone, hblock]
    refine ⟨hafter, ?_⟩
    rw [hblocks]
    cases (ofRecord none r).block? <;> rfl

theorem ofRecords_concat_groupEnd {rs : List Record} (h : ∀ r ∈ rs, r.IsQuiet) (media : Media) :
    mediaAfter media (rs ++ [.groupEnd]) = none ∧
      (ofRecords media (rs ++ [.groupEnd])).filterMap (·.block?) =
        (Block.ofRecords (rs ++ [.groupEnd])).map (Block.withMedia media) := by
  have hend (m : Media) : (ofRecords m [.groupEnd]).filterMap (·.block?) = [] := rfl
  refine ⟨mediaAfter_append media rs [.groupEnd], ?_⟩
  rw [Block.ofRecords_append, ofRecords_append, List.filterMap_append, hend, hend, List.append_nil,
    List.append_nil]
  exact (ofRecords_of_isQuiet h media).2

end Resolution

theorem Prose.isQuiet_of_mem_comments {p : Prose} : ∀ r ∈ p.comments, r.IsQuiet := by
  induction p with
  | last t => simp [comments]
  | comment t body rest ih =>
    simp only [comments, List.mem_cons, forall_eq_or_imp]
    exact ⟨rfl, ih⟩

namespace Outline

inductive Part where
  | blank (w : Text)
  | comment (body : Text)
  /--
  An at-rule that ends in `;`, from after its `@`.
  -/
  | statement (p : Prose)
  | ruleset (selectors declarations : Prose)
  /--
  An at-rule with declarations in a block of its own.
  -/
  | atBlock (head body : Prose)
deriving DecidableEq, Repr

namespace Part

def text : Part → Text
  | blank w => w
  | comment body => Prose.delimit body
  | statement p => '@' :: (p.text ++ [';'])
  | ruleset selectors declarations => selectors.text ++ '{' :: (declarations.text ++ ['}'])
  | atBlock head body => '@' :: (head.text ++ ['{']) ++ (body.text ++ ['}'])

/--
Whether nothing in a part ends it early, and it is not the head of an `@media` group.
-/
def IsWellFormed : Part → Prop
  | blank w => Text.blank w
  | comment body => ¬['*', '/'] <:+: body ∧ body.getLast? ≠ some '/'
  | statement p =>
    p.IsSealed ['{', '}', ';'] ∧
      Text.afterWord? Keyword.media ('@' :: (p.text ++ [';'])) = none
  | ruleset selectors declarations =>
    selectors.IsSealed ['{', '}', '@'] ∧ declarations.IsSealed ['{', '}']
  | atBlock head body =>
    head.IsSealed ['{', '}', ';'] ∧ Text.afterWord? Keyword.media ('@' :: head.text) = none ∧
      body.IsSealed ['{', '}', '@']

instance : (p : Part) → Decidable p.IsWellFormed
  | blank w => inferInstanceAs (Decidable (Text.blank w))
  | comment _ => inferInstanceAs (Decidable (_ ∧ _))
  | statement _ => inferInstanceAs (Decidable (_ ∧ _))
  | ruleset _ _ => inferInstanceAs (Decidable (_ ∧ _))
  | atBlock _ _ => inferInstanceAs (Decidable (_ ∧ _ ∧ _))

def isAtBlock : Part → Bool
  | atBlock _ _ => true
  | _ => false

def records : Part → List Record
  | blank _ => []
  | comment body => [.text (Prose.delimit body)]
  | statement p => p.comments ++ [.text ('@' :: (p.text ++ [';']))]
  | ruleset selectors declarations =>
    selectors.comments ++ (declarations.comments ++
      [.rule (Text.trim selectors.plain) (Text.trim declarations.plain)])
  | atBlock head body =>
    head.comments ++ [.text (Text.trim ('@' :: head.text))] ++ (body.comments ++ [.groupEnd])

theorem IsWellFormed.reads {p : Part} (h : p.IsWellFormed) : Draft.Reads p.text p.records := by
  cases p with
  | blank w => exact Draft.reads_blank h
  | comment body => exact Draft.reads_comment h.1 h.2
  | statement p => exact h.1.reads_statement
  | ruleset selectors declarations => exact h.1.reads_rule h.2
  | atBlock head body => exact h.1.reads_groupOpen.append h.2.2.reads_groupClose

theorem IsWellFormed.isQuiet {p : Part} (h : p.IsWellFormed) (hp : p.isAtBlock = false) :
    ∀ r ∈ p.records, r.IsQuiet := by
  cases p with
  | blank w => simp [records]
  | comment body =>
    simp only [records, List.mem_singleton, forall_eq]
    rfl
  | statement p =>
    simp only [records, List.mem_append, List.mem_singleton]
    rintro r (hr | rfl)
    . exact Prose.isQuiet_of_mem_comments r hr
    . exact h.2
  | ruleset selectors declarations =>
    simp only [records, List.mem_append, List.mem_singleton]
    rintro r (hr | hr | rfl)
    . exact Prose.isQuiet_of_mem_comments r hr
    . exact Prose.isQuiet_of_mem_comments r hr
    . trivial
  | atBlock head body => cases hp

def blocks (p : Part) : List Block :=
  (Sheet.ofText p.text).blocks

/--
A part is read as it is by itself but for its media types. Only the closing brace of a block in an
at-rule says anything about those of what comes after it.
-/
theorem IsWellFormed.ofRecords {p : Part} (h : p.IsWellFormed) (media : Media) :
    Resolution.mediaAfter media p.records = (if p.isAtBlock then none else media) ∧
      (Resolution.ofRecords media p.records).filterMap (·.block?) =
        p.blocks.map (Block.withMedia media) := by
  have hblocks : p.blocks = Block.ofRecords p.records := by
    rw [blocks, Sheet.ofText, Record.ofText_eq_read, h.reads.records_eq]
  rw [hblocks]
  cases p with
  | atBlock head body =>
    have hquiet : ∀ r ∈ head.comments ++ [.text (Text.trim ('@' :: head.text))] ++ body.comments,
        r.IsQuiet := by
      simp only [List.mem_append, List.mem_singleton]
      rintro r ((hr | rfl) | hr)
      . exact Prose.isQuiet_of_mem_comments r hr
      . exact Text.afterWord?_trimEnd_eq_none h.2.1
      . exact Prose.isQuiet_of_mem_comments r hr
    rw [records, ← List.append_assoc]
    exact Resolution.ofRecords_concat_groupEnd hquiet media
  | _ => exact Resolution.ofRecords_of_isQuiet (h.isQuiet rfl) media

end Part

inductive Item where
  | part (p : Part)
  /--
  An `@media` group: the name of the rule as it is written, its types, and what is between its
  braces.
  -/
  | group (word types : Text) (parts : List Part)
deriving DecidableEq, Repr

namespace Item

def text : Item → Text
  | part p => p.text
  | group word types parts =>
    '@' :: (word ++ types ++ ['{']) ++ (parts.flatMap Part.text ++ ['}'])

def parts : Item → List Part
  | part p => [p]
  | group _ _ parts => parts

def media : Item → Media
  | part _ => none
  | group _ types _ => Media.ofText types

def IsWellFormed : Item → Prop
  | part p => p.IsWellFormed
  | group word types parts =>
    Text.afterWord? Keyword.media ('@' :: word) = some [] ∧
      Text.isSealed ['{', '}', ';'] (word ++ types) ∧ ∀ p ∈ parts, p.IsWellFormed

instance : (item : Item) → Decidable item.IsWellFormed
  | part p => inferInstanceAs (Decidable p.IsWellFormed)
  | group _ _ _ => inferInstanceAs (Decidable (_ ∧ _ ∧ _))

def records : Item → List Record
  | part p => p.records
  | group word types parts =>
    [.text (Text.trim ('@' :: (word ++ types)))] ++ (parts.flatMap Part.records ++ [.groupEnd])

end Item

theorem reads_flatMap {ps : List Part} (h : ∀ p ∈ ps, p.IsWellFormed) :
    Draft.Reads (ps.flatMap Part.text) (ps.flatMap Part.records) := by
  induction ps with
  | nil => exact Draft.reads_blank rfl
  | cons p ps ih =>
    simp only [List.mem_cons, forall_eq_or_imp] at h
    exact h.1.reads.append (ih h.2)

theorem Item.IsWellFormed.reads {item : Item} (h : item.IsWellFormed) :
    Draft.Reads item.text item.records := by
  cases item with
  | part p => exact Part.IsWellFormed.reads h
  | group word types parts =>
    exact (Draft.reads_groupOpen h.2.1).append ((reads_flatMap h.2.2).append Draft.reads_groupEnd)

/--
Where an at-rule with a block of its own is in a group, the rulesets after it lose the media types
of the group; so there has to be none of them, unless the group has no types.
-/
def Item.KeepsScope : Item → Prop
  | .part _ => True
  | .group _ types parts =>
    Media.ofText types = none ∨
      parts.Pairwise fun p q => p.isAtBlock → ∀ b ∈ q.blocks, b.ruleset? = none

instance : (item : Item) → Decidable item.KeepsScope
  | .part _ => .isTrue trivial
  | .group _ _ _ => inferInstanceAs (Decidable (_ ∨ _))

/--
The blocks of parts that are read one after the other, when `media` holds before the first one.
-/
def blocksFrom (media : Media) (ps : List Part) : List Block :=
  (Resolution.ofRecords media (ps.flatMap Part.records)).filterMap (·.block?)

theorem blocksFrom_cons {p : Part} (h : p.IsWellFormed) (media : Media) (ps : List Part) :
    blocksFrom media (p :: ps) =
      p.blocks.map (Block.withMedia media) ++
        blocksFrom (if p.isAtBlock then none else media) ps := by
  rw [blocksFrom, List.flatMap_cons, Resolution.ofRecords_append, List.filterMap_append,
    (h.ofRecords media).1, (h.ofRecords media).2]
  rfl

/--
The parts of a group have the right blocks but for the media types.
-/
theorem map_blocksFrom {ps : List Part} (h : ∀ p ∈ ps, p.IsWellFormed) (media : Media) :
    (blocksFrom media ps).map (Block.withMedia none) =
      (ps.flatMap Part.blocks).map (Block.withMedia none) := by
  induction ps generalizing media with
  | nil => rfl
  | cons p ps ih =>
    simp only [List.mem_cons, forall_eq_or_imp] at h
    rw [blocksFrom_cons h.1, List.flatMap_cons, List.map_append, List.map_append, ih h.2]
    simp

theorem blocksFrom_none {ps : List Part} (h : ∀ p ∈ ps, p.IsWellFormed) :
    blocksFrom none ps = (ps.flatMap Part.blocks).map (Block.withMedia none) := by
  induction ps with
  | nil => rfl
  | cons p ps ih =>
    simp only [List.mem_cons, forall_eq_or_imp] at h
    rw [blocksFrom_cons h.1, List.flatMap_cons, List.map_append, ite_self, ih h.2]

theorem blocksFrom_eq_iff {ps : List Part} (h : ∀ p ∈ ps, p.IsWellFormed) (media : Media) :
    blocksFrom media ps = (ps.flatMap Part.blocks).map (Block.withMedia media) ↔
      media = none ∨ ps.Pairwise fun p q => p.isAtBlock → ∀ b ∈ q.blocks, b.ruleset? = none := by
  induction ps with
  | nil => simp [blocksFrom, Resolution.ofRecords]
  | cons p ps ih =>
    simp only [List.mem_cons, forall_eq_or_imp] at h
    rw [blocksFrom_cons h.1, List.flatMap_cons, List.map_append, List.append_cancel_left_eq,
      List.pairwise_cons]
    cases hp : p.isAtBlock with
    | false =>
      rw [if_neg (by simp), ih h.2]
      simp
    | true =>
      -- from here on no media types hold, whatever comes
      rw [if_pos rfl, blocksFrom_none h.2, Block.map_withMedia_eq_iff]
      constructor
      . rintro (rfl | hnone)
        . exact .inl rfl
        . have hblocks (q : Part) (hq : q ∈ ps) : ∀ b ∈ q.blocks, b.ruleset? = none :=
            fun b hb => hnone b (List.mem_flatMap.2 ⟨q, hq, hb⟩)
          refine .inr ⟨fun q hq _ => hblocks q hq, ?_⟩
          exact List.pairwise_of_forall_mem_list fun _ _ q hq _ => hblocks q hq
      . rintro (rfl | ⟨hrest, -⟩)
        . exact .inl rfl
        . refine .inr fun b hb => ?_
          rcases List.mem_flatMap.1 hb with ⟨q, hq, hbq⟩
          exact hrest q hq rfl b hbq

namespace Item

/--
The blocks of the parts of an item with the media types whose braces are around them.
-/
def blocks (item : Item) : List Block :=
  (item.parts.flatMap Part.blocks).map (Block.withMedia item.media)

namespace IsWellFormed

variable {item : Item}

theorem mediaAfter (h : item.IsWellFormed) : Resolution.mediaAfter none item.records = none := by
  cases item with
  | part p =>
    have hp : p.IsWellFormed := h
    rw [records, (hp.ofRecords none).1, ite_self]
  | group word types parts =>
    rw [records, ← List.append_assoc, Resolution.mediaAfter_append]
    rfl

theorem ofRecords_group {word types : Text} {parts : List Part}
    (h : (group word types parts).IsWellFormed) :
    Block.ofRecords (group word types parts).records =
      blocksFrom (Media.ofText types) parts := by
  have hhead : Resolution.ofRecord none (.text (Text.trim ('@' :: (word ++ types)))) =
      ⟨Media.ofText types, none, []⟩ := Media.ofText_trim_head h.1 types none
  rw [records, List.singleton_append, Block.ofRecords, Resolution.ofRecords, hhead,
    Resolution.ofRecords_append, List.filterMap_cons, List.filterMap_append]
  exact List.append_nil _

theorem map_ofRecords (h : item.IsWellFormed) :
    (Block.ofRecords item.records).map (Block.withMedia none) =
      item.blocks.map (Block.withMedia none) := by
  cases item with
  | part p =>
    have hp : p.IsWellFormed := h
    have hblocks := (hp.ofRecords none).2
    rw [records, Block.ofRecords, hblocks]
    simp [blocks, Item.parts]
  | group word types parts =>
    rw [ofRecords_group h, map_blocksFrom h.2.2]
    simp [blocks, Item.parts]

theorem ofRecords_iff (h : item.IsWellFormed) :
    Block.ofRecords item.records = item.blocks ↔ item.KeepsScope := by
  cases item with
  | part p =>
    have hp : p.IsWellFormed := h
    have hblocks := (hp.ofRecords none).2
    rw [records, Block.ofRecords, hblocks]
    simp [blocks, Item.parts, Item.media, KeepsScope]
  | group word types parts =>
    rw [ofRecords_group h]
    exact blocksFrom_eq_iff h.2.2 (Media.ofText types)

end IsWellFormed

end Item

end Outline

abbrev Outline := List Outline.Item

namespace Outline

def text (o : Outline) : Text :=
  o.flatMap Item.text

def records (o : Outline) : List Record :=
  o.flatMap Item.records

def blocks (o : Outline) : List Block :=
  o.flatMap Item.blocks

theorem reads {o : Outline} (h : ∀ item ∈ o, item.IsWellFormed) :
    Draft.Reads o.text o.records := by
  unfold text records
  induction o with
  | nil => exact Draft.reads_blank rfl
  | cons item o ih =>
    simp only [List.mem_cons, forall_eq_or_imp] at h
    exact h.1.reads.append (ih h.2)

theorem ofRecords_cons {item : Item} (h : item.IsWellFormed) (o : Outline) :
    Block.ofRecords (records (item :: o)) =
      Block.ofRecords item.records ++ Block.ofRecords o.records := by
  rw [records, List.flatMap_cons, Block.ofRecords_append, h.mediaAfter]
  rfl

theorem ofRecords_records {o : Outline} (h : ∀ item ∈ o, item.IsWellFormed) :
    (Block.ofRecords o.records).map (Block.withMedia none) =
        o.blocks.map (Block.withMedia none) ∧
      (Block.ofRecords o.records = o.blocks ↔ ∀ item ∈ o, item.KeepsScope) := by
  induction o with
  | nil => exact ⟨rfl, by simp [records, blocks, Block.ofRecords, Resolution.ofRecords]⟩
  | cons item o ih =>
    simp only [List.mem_cons, forall_eq_or_imp] at h
    rcases ih h.2 with ⟨hmap, hiff⟩
    have hitem := h.1.map_ofRecords
    have hblocks : blocks (item :: o) = item.blocks ++ blocks o := rfl
    rw [ofRecords_cons h.1, hblocks]
    constructor
    . rw [List.map_append, List.map_append, hitem, hmap]
    . -- each item has as many blocks as it should, so the items can be compared one by one
      have hlength : (Block.ofRecords item.records).length = item.blocks.length := by
        simpa using congrArg List.length hitem
      rw [List.forall_mem_cons, ← h.1.ofRecords_iff, ← hiff]
      constructor
      . exact fun happend => List.append_inj happend hlength
      . rintro ⟨hfirst, hrest⟩
        rw [hfirst, hrest]

/--
Each ruleset of an outline is read with the media types of the group whose braces are around it, and
with none outside of groups, exactly if no ruleset comes after an at-rule with a block inside of a
group. But for the media types the blocks are right in any case.
-/
theorem blocks_ofText_iff {o : Outline} (h : ∀ item ∈ o, item.IsWellFormed) :
    (Sheet.ofText o.text).blocks.map (Block.withMedia none) =
        o.blocks.map (Block.withMedia none) ∧
      ((Sheet.ofText o.text).blocks = o.blocks ↔ ∀ item ∈ o, item.KeepsScope) := by
  rw [Sheet.ofText, Record.ofText_eq_read, (reads h).records_eq]
  exact ofRecords_records h

/--
An at-rule with a block after a ruleset, both in a group, and a ruleset after the group.
-/
def fontFaceLast : Outline :=
  [.part (.comment ['c']), .group "MEDIA".toList " print ".toList
    [.ruleset (.comment ['a'] ['x'] (.last [' '])) (.last "b:c".toList),
      .atBlock (.last "font-face".toList) (.last "x:y;".toList)],
    .part (.ruleset (.last ['p']) (.last "q:r".toList))]

theorem blocks_ofText_fontFaceLast :
    (∀ item ∈ fontFaceLast, item.IsWellFormed) ∧ (∀ item ∈ fontFaceLast, item.KeepsScope) ∧
      (Sheet.ofText fontFaceLast.text).blocks = fontFaceLast.blocks := by
  have h : ∀ item ∈ fontFaceLast, item.IsWellFormed := by decide +kernel
  have hkeeps : ∀ item ∈ fontFaceLast, item.KeepsScope := by decide +kernel
  exact ⟨h, hkeeps, (blocks_ofText_iff h).2.2 hkeeps⟩

def fontFace : Outline :=
  [.group "media".toList " print".toList
    [.atBlock (.last "font-face".toList) (.last "x:y;".toList),
      .ruleset (.last ['a']) (.last "b:c".toList)]]

/--
The ruleset of `fontFace` is read without the media types of its group.
-/
theorem blocks_ofText_fontFace :
    (∀ item ∈ fontFace, item.IsWellFormed) ∧
      fontFace.text = "@media print\x7b@font-face\x7bx:y;\x7da\x7bb:c\x7d\x7d".toList ∧
      fontFace.blocks = [.comment "@font-face".toList, .ruleset ⟨[.element ['a']],
        ⟨[(['b'], ['c'])], by decide⟩, some ["print".toList], by decide⟩] ∧
      (Sheet.ofText fontFace.text).blocks = [.comment "@font-face".toList, .ruleset
        ⟨[.element ['a']], ⟨[(['b'], ['c'])], by decide⟩, none, by decide⟩] := by
  exact ⟨by decide +kernel, by decide +kernel, by decide +kernel, by decide +kernel⟩

end Outline

end Stylesheet
