import Stylesheet.Proofs.AtRule
import Stylesheet.Proofs.Concatenation
import Stylesheet.Proofs.Rule
import Stylesheet.Sheet.Writer

/-!
This module contains the round trip of sheets: one whose blocks are canonical is read back from its
text, in which every layout puts blanks alone, and nothing is noted.
-/

namespace Stylesheet

/--
Whether a text by itself is read as these blocks where `media` holds, without a notice, and leaves
nothing open but `next`.
-/
def Yields (media : Media) (t : Text) (blocks : List Block) (next : Media) : Prop :=
  ∃ records, Draft.Reads t records ∧ Resolution.mediaAfter media records = next ∧
    (Resolution.ofRecords media records).filterMap (·.block?) = blocks ∧
    (Resolution.ofRecords media records).flatMap (·.notices) = []

namespace Yields

variable {media middle next : Media}

theorem append {a b : Text} {bs cs : List Block} (ha : Yields media a bs middle)
    (hb : Yields middle b cs next) : Yields media (a ++ b) (bs ++ cs) next := by
  rcases ha with ⟨rs, hreads, rfl, rfl, hnotices⟩
  rcases hb with ⟨rs', hreads', rfl, rfl, hnotices'⟩
  refine ⟨rs ++ rs', hreads.append hreads', Resolution.mediaAfter_append media rs rs', ?_, ?_⟩
  . rw [Resolution.ofRecords_append, List.filterMap_append]
  . rw [Resolution.ofRecords_append, List.flatMap_append, hnotices, hnotices']
    rfl

theorem blank {w : Text} (hw : Text.blank w) : Yields media w [] media :=
  ⟨[], Draft.reads_blank hw, rfl, rfl, rfl⟩

theorem append_blank {t w : Text} {bs : List Block} (h : Yields media t bs next)
    (hw : Text.blank w) : Yields media (t ++ w) bs next := by
  have := h.append (blank hw)
  rwa [List.append_nil] at this

theorem of_record {t : Text} {record : Record} {block? : Option Block}
    (hreads : Draft.Reads t [record])
    (hresolution : Resolution.ofRecord media record = ⟨next, block?, []⟩) :
    Yields media t block?.toList next := by
  refine ⟨[record], hreads, ?_, ?_, ?_⟩
  . rw [Resolution.mediaAfter, hresolution]
    rfl
  . rw [Resolution.ofRecords, hresolution]
    cases block? <;> rfl
  . rw [Resolution.ofRecords, hresolution]
    rfl

theorem of_block {t : Text} {record : Record} {b : Block} (hreads : Draft.Reads t [record])
    (hresolution : Resolution.ofRecord media record = ⟨next, some b, []⟩) :
    Yields media t [b] next :=
  of_record hreads hresolution

theorem of_silent {t : Text} {record : Record} (hreads : Draft.Reads t [record])
    (hresolution : Resolution.ofRecord media record = ⟨next, none, []⟩) :
    Yields media t [] next :=
  of_record hreads hresolution

end Yields

theorem Block.IsCanonical.yields {b : Block} (h : b.IsCanonical) (hb : b.ruleset? = none)
    (media : Media) : Yields media (b.render []) [b] media := by
  cases b with
  | comment t =>
    apply Yields.of_block
    . exact IsComment.reads h
    . exact IsComment.ofText h media
  | importRule i =>
    apply Yields.of_block
    . exact Import.IsCanonical.reads_render h
    . exact Import.IsCanonical.ofText_render h media
  | charset name =>
    apply Yields.of_block
    . exact reads_charset h.1 h.2
    . exact ofText_charset h.1 media
  | ruleset r => cases hb

theorem Ruleset.IsCanonical.yields {r : Ruleset} (h : r.IsCanonical) {indent step : Text}
    (hindent : Text.blank indent) (hstep : Text.blank step) :
    Yields r.media (r.render indent step) [.ruleset r] r.media := by
  apply Yields.of_block
  . exact h.reads_render hindent hstep
  . exact h.ofRule_render hindent hstep

namespace Sheet

theorem yields_renderClose (media : Media) : Yields media (renderClose media) [] none := by
  cases media with
  | none => exact .blank rfl
  | some types =>
    have hend : Yields (some types) ['}'] [] none := .of_silent Draft.reads_groupEnd rfl
    exact hend.append_blank (w := ['\n', '\n']) rfl

/--
The head of a group says what holds in it, whatever held before.
-/
theorem yields_renderOpen_some (media : Media) {types : List Text} (hne : types ≠ [])
    (h : ∀ t ∈ types, Media.IsType t) :
    Yields media (renderOpen (some types)) [] (some types) := by
  have hopen : Yields media (Media.head types ++ [' '] ++ ['{']) [] (some types) := by
    apply Yields.of_silent
    . exact Media.reads_head h hne
    . exact Media.ofText_head h hne media
  have hline := hopen.append_blank (w := ['\n']) rfl
  have htext (u : Text) : u ++ [' '] ++ ['{'] ++ ['\n'] = u ++ [' ', '{', '\n'] := by
    simp
  rw [htext] at hline
  exact hline

theorem yields_renderOpen {media : Media}
    (h : ∀ types ∈ media, types ≠ [] ∧ ∀ t ∈ types, Media.IsType t) :
    Yields none (renderOpen media) [] media := by
  cases media with
  | none => exact .blank rfl
  | some types => exact yields_renderOpen_some none (h types rfl).1 (h types rfl).2

theorem yields_renderSwitch (media : Media) {next : Media}
    (h : ∀ types ∈ next, types ≠ [] ∧ ∀ t ∈ types, Media.IsType t) :
    Yields media (renderSwitch media next) [] next := by
  unfold renderSwitch
  split
  . next heq =>
    rw [heq]
    exact .blank rfl
  . have hclose := yields_renderClose media
    exact hclose.append (yields_renderOpen h)

theorem blank_groupIndent {layout : Layout} (h : Text.blank layout.indent) (media : Media) :
    Text.blank (groupIndent layout media) := by
  cases media with
  | none => rfl
  | some types => exact h

/--
The media types of the group that the text of blocks leaves open when it starts inside of one for
`media`.
-/
def mediaLeft (layout : Layout) (media : Media) : List Block → Media
  | [] => if layout.closeTrailingMedia then none else media
  | .ruleset r :: blocks => mediaLeft layout r.media blocks
  | _ :: blocks => mediaLeft layout media blocks

theorem yields_renderFrom_mediaLeft {layout : Layout} (hindent : Text.blank layout.indent)
    {blocks : List Block} (h : ∀ b ∈ blocks, b.IsCanonical) (media : Media) :
    Yields media (renderFrom layout media blocks) blocks (mediaLeft layout media blocks) := by
  -- `media` is what the writer has opened last and what the reader holds at the same place.
  induction blocks generalizing media with
  | nil =>
    unfold renderFrom mediaLeft
    split
    . exact yields_renderClose media
    . exact .blank rfl
  | cons b blocks ih =>
    simp only [List.mem_cons, forall_eq_or_imp] at h
    cases b with
    | ruleset r =>
      have hr : r.IsCanonical := h.1
      have hruleset := hr.yields (blank_groupIndent hindent r.media) hindent
      have hblock := (yields_renderSwitch media hr.media).append hruleset
      apply Yields.append (hblock.append_blank (w := ['\n', '\n']) rfl)
      exact ih h.2 r.media
    | _ =>
      have hblock := h.1.yields rfl media
      apply Yields.append (hblock.append_blank (w := ['\n', '\n']) rfl)
      exact ih h.2 media

theorem yields_renderFrom {layout : Layout} (hindent : Text.blank layout.indent)
    {blocks : List Block} (h : ∀ b ∈ blocks, b.IsCanonical) (media : Media) :
    ∃ next, Yields media (renderFrom layout media blocks) blocks next :=
  ⟨_, yields_renderFrom_mediaLeft hindent h media⟩

end Sheet

theorem State.innermost?_of_isClear {s : State} {t : Text} (h : (s.draft t).IsClear) :
    s.innermost? = none := by
  have hreading : s.reading.draft t = .code := h.reading
  have hscope : s.scope.draft t = .outer := h.scope
  unfold innermost?
  cases hr : s.reading with
  | code =>
    cases hs : s.scope with
    | outer => rfl
    | _ =>
      rw [hs] at hscope
      cases hscope
  | _ =>
    rw [hr] at hreading
    cases hreading

theorem Notice.ofEnd_of_reads {t : Text} {records : List Record} (h : Draft.Reads t records) :
    Notice.ofEnd t = none := by
  have hclear := h.clear
  rw [← State.draft_ofText] at hclear
  rw [Notice.ofEnd, State.unterminated?, State.innermost?_of_isClear hclear]

/--
A canonical sheet is read back from its text, with the same blocks in the same order and no notices.
-/
theorem Sheet.ofText_renderWith {s : Sheet} (h : s.IsCanonical) {layout : Layout}
    (hindent : Text.blank layout.indent) :
    Sheet.ofText (s.renderWith layout) = s ∧ Notice.ofText (s.renderWith layout) = [] := by
  unfold renderWith
  rcases yields_renderFrom hindent h none with ⟨next, records, hreads, -, hblocks, hnotices⟩
  have hrecords : Record.ofText (renderFrom layout none s.blocks) = records := by
    rw [Record.ofText_eq_read]
    exact hreads.records_eq
  constructor
  . rw [Sheet.ofText, hrecords, Block.ofRecords, hblocks]
  . rw [Notice.ofText, hrecords, Notice.ofRecords, hnotices, Notice.ofEnd_of_reads hreads]
    rfl

theorem Sheet.ofText_renderWith_media :
    Sheet.IsCanonical ⟨[.ruleset ⟨[.element ['a']], ⟨[(['b'], "\"\x7d\"".toList)], by decide⟩,
        some [['c']], by decide⟩, .comment "/*c*/".toList]⟩ ∧
      Text.blank (Layout.mk ['\n'] false).indent ∧
      Sheet.ofText (renderWith ⟨['\n'], false⟩
        ⟨[.ruleset ⟨[.element ['a']], ⟨[(['b'], "\"\x7d\"".toList)], by decide⟩,
          some [['c']], by decide⟩, .comment "/*c*/".toList]⟩) =
        ⟨[.ruleset ⟨[.element ['a']], ⟨[(['b'], "\"\x7d\"".toList)], by decide⟩,
          some [['c']], by decide⟩, .comment "/*c*/".toList]⟩ ∧
      Notice.ofText (renderWith ⟨['\n'], false⟩
        ⟨[.ruleset ⟨[.element ['a']], ⟨[(['b'], "\"\x7d\"".toList)], by decide⟩,
          some [['c']], by decide⟩, .comment "/*c*/".toList]⟩) = [] := by
  have hcanonical : Sheet.IsCanonical ⟨[.ruleset ⟨[.element ['a']],
      ⟨[(['b'], "\"\x7d\"".toList)], by decide⟩, some [['c']], by decide⟩,
      .comment "/*c*/".toList]⟩ := by
    intro b hb
    simp only [List.mem_cons, List.not_mem_nil, or_false] at hb
    rcases hb with rfl | rfl
    . refine ⟨?_, by decide, by decide, by decide, by decide, by decide⟩
      intro types htypes
      cases htypes
      refine ⟨by decide, ?_⟩
      intro t ht
      rw [List.mem_singleton] at ht
      subst ht
      exact ⟨by decide, rfl, by simp, by decide⟩
    . exact @Block.IsComment.comment ['c'] (by decide) (by decide)
  exact ⟨hcanonical, rfl, ofText_renderWith hcanonical rfl⟩

end Stylesheet
