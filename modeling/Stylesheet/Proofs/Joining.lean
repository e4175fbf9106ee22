import Stylesheet.Proofs.Faithful
import Stylesheet.Proofs.RoundTrip

/-!
This module contains what is read from the texts of two sheets, one right after the other. The first
text may leave a group open, which the first rulesets of the second sheet then fall into unless they
have a group of their own.
-/

namespace Stylesheet

theorem Yields.blocks_ofText {t : Text} {blocks : List Block} {next : Media}
    (h : Yields none t blocks next) : (Sheet.ofText t).blocks = blocks := by
  rcases h with ⟨records, hreads, -, hblocks, -⟩
  rw [Sheet.ofText, Record.ofText_eq_read, hreads.records_eq, Block.ofRecords, hblocks]

theorem Declarations.agrees_self (d : Declarations) : d.agrees d := by
  rw [agrees, beq_self_eq_true, Bool.true_and, List.all_eq_true]
  intro entry hentry
  rw [get?_of_mem hentry]
  exact beq_self_eq_true _

theorem Ruleset.agrees_self (r : Ruleset) : r.agrees r := by
  simp [agrees, Declarations.agrees_self]

theorem Block.agrees_self (b : Block) : b.agrees b := by
  cases b with
  | ruleset r => exact Ruleset.agrees_self r
  | _ => simp [agrees]

namespace Sheet

/--
The blocks that are read from the text of `blocks` inside of a group for `media`: up to the first
ruleset with a group of its own all rulesets belong to that group.
-/
def adopt (media : Media) : List Block → List Block
  | [] => []
  | .ruleset r :: blocks =>
    if r.media = none then
      .ruleset { r with media } :: adopt media blocks
    else
      .ruleset r :: blocks
  | b :: blocks => b :: adopt media blocks

section Reading

variable {layout : Layout} {media : Media} {blocks : List Block}

theorem mediaLeft_isType (hmedia : ∀ types ∈ media, types ≠ [] ∧ ∀ t ∈ types, Media.IsType t)
    (h : ∀ b ∈ blocks, b.IsCanonical) :
    ∀ types ∈ mediaLeft layout media blocks, types ≠ [] ∧ ∀ t ∈ types, Media.IsType t := by
  induction blocks generalizing media with
  | nil =>
    unfold mediaLeft
    split
    . simp
    . exact hmedia
  | cons b blocks ih =>
    rw [List.forall_mem_cons] at h
    cases b with
    | ruleset r => exact ih (Ruleset.IsCanonical.media h.1) h.2
    | _ => exact ih hmedia h.2

theorem yields_adopt (hindent : Text.blank layout.indent)
    (hmedia : ∀ types ∈ media, types ≠ [] ∧ ∀ t ∈ types, Media.IsType t)
    (h : ∀ b ∈ blocks, b.IsCanonical) :
    ∃ next, Yields media (renderFrom layout none blocks) (adopt media blocks) next := by
  -- The writer has opened nothing yet, but `media` is what the reader holds.
  induction blocks with
  | nil =>
    refine ⟨media, ?_⟩
    unfold renderFrom
    split <;> exact .blank rfl
  | cons b blocks ih =>
    rw [List.forall_mem_cons] at h
    rcases ih h.2 with ⟨next, hrest⟩
    cases b with
    | ruleset r =>
      have hr : r.IsCanonical := h.1
      cases hnone : r.media with
      | none =>
        have hadopted : Ruleset.IsCanonical { r with media } :=
          { hr with media := hmedia }
        have hblock := hadopted.yields (blank_groupIndent hindent none) hindent
        refine ⟨next, ?_⟩
        rw [adopt, if_pos hnone, renderFrom, hnone]
        exact (hblock.append_blank (w := ['\n', '\n']) rfl).append hrest
      | some types =>
        have htypes := hr.media types hnone
        have hopen := yields_renderOpen_some media htypes.1 htypes.2
        have hruleset := hr.yields (blank_groupIndent hindent r.media) hindent
        rw [← hnone] at hopen
        have hblock := (hopen.append hruleset).append_blank (w := ['\n', '\n']) rfl
        have hrest := yields_renderFrom_mediaLeft hindent h.2 r.media
        refine ⟨mediaLeft layout r.media blocks, ?_⟩
        rw [adopt, if_neg (by simp [hnone]), renderFrom, renderSwitch, if_neg (by simp [hnone])]
        exact hblock.append hrest
    | _ =>
      refine ⟨next, ?_⟩
      have hblock := h.1.yields rfl media
      exact (hblock.append_blank (w := ['\n', '\n']) rfl).append hrest

theorem blocks_ofText_append_renderWith {s₁ s₂ : Sheet} (h₁ : s₁.IsCanonical)
    (h₂ : s₂.IsCanonical) (hindent : Text.blank layout.indent) :
    (Sheet.ofText (s₁.renderWith layout ++ s₂.renderWith layout)).blocks =
      s₁.blocks ++ adopt (mediaLeft layout none s₁.blocks) s₂.blocks := by
  have hfirst := yields_renderFrom_mediaLeft hindent h₁ none
  have htypes : ∀ types ∈ mediaLeft layout none s₁.blocks,
      types ≠ [] ∧ ∀ t ∈ types, Media.IsType t :=
    mediaLeft_isType (by simp) h₁
  rcases yields_adopt hindent htypes h₂ with ⟨next, hsecond⟩
  exact (hfirst.append hsecond).blocks_ofText

end Reading

section Agreement

variable {media : Media} {blocks : List Block}

theorem mediaLeft_eq (layout : Layout) (media : Media) (blocks : List Block) :
    mediaLeft layout media blocks =
      if layout.closeTrailingMedia then
        none
      else
        (blocks.filterMap Block.ruleset?).getLast?.elim media Ruleset.media := by
  induction blocks generalizing media with
  | nil => rfl
  | cons b blocks ih =>
    cases b with
    | ruleset r =>
      have hcons : (Block.ruleset r :: blocks).filterMap Block.ruleset? =
          r :: blocks.filterMap Block.ruleset? := rfl
      rw [mediaLeft, ih, hcons, List.getLast?_cons]
      cases (blocks.filterMap Block.ruleset?).getLast? <;> rfl
    | _ => exact ih media

theorem mediaLeft_eq_none_iff {layout : Layout} :
    mediaLeft layout none blocks = none ↔
      layout.closeTrailingMedia ∨
        ∀ r ∈ (blocks.filterMap Block.ruleset?).getLast?, r.media = none := by
  rw [mediaLeft_eq]
  cases layout.closeTrailingMedia with
  | true => simp
  | false => cases (blocks.filterMap Block.ruleset?).getLast? <;> simp

/--
Whether rulesets that are read inside of a group for `media` are what they are outside of it.
-/
def SetsMedia (media : Media) (blocks : List Block) : Prop :=
  media = none ∨ ∀ r ∈ (blocks.filterMap Block.ruleset?).head?, r.media ≠ none

theorem adopt_eq_self (h : SetsMedia media blocks) : adopt media blocks = blocks := by
  induction blocks with
  | nil => rfl
  | cons b blocks ih =>
    cases b with
    | ruleset r =>
      by_cases hr : r.media = none
      . rcases h with rfl | h
        . rw [adopt, if_pos hr, ih (.inl rfl), ← hr]
        . exact absurd hr (h r rfl)
      . rw [adopt, if_neg hr]
    | _ => exact congrArg (List.cons _) (ih h)

theorem setsMedia_of_agrees
    (h : ((adopt media blocks).zip blocks).all fun pair => pair.1.agrees pair.2) :
    SetsMedia media blocks := by
  induction blocks with
  | nil => exact .inr (by simp)
  | cons b blocks ih =>
    cases b with
    | ruleset r =>
      by_cases hr : r.media = none
      . rw [adopt, if_pos hr, List.zip_cons_cons, List.all_cons, Bool.and_eq_true] at h
        have hmedia : media = r.media := by
          simp only [Block.agrees, Ruleset.agrees, Bool.and_eq_true, beq_iff_eq] at h
          exact h.1.2
        exact .inl (hmedia.trans hr)
      . right
        intro r' hr'
        cases hr'
        exact hr
    | _ =>
      rw [adopt, List.zip_cons_cons, List.all_cons, Bool.and_eq_true] at h
      · exact ih h.2
      all_goals simp

end Agreement

theorem agrees_self (s : Sheet) : s.agrees s := by
  rw [agrees, beq_self_eq_true, Bool.true_and, List.all_eq_true]
  intro pair hpair
  have hsame : pair.1 = pair.2 := by
    rw [← List.map_id s.blocks, List.zip_map'] at hpair
    rcases List.mem_map.1 hpair with ⟨b, -, rfl⟩
    rfl
  rw [hsame]
  exact Block.agrees_self pair.2

theorem agrees_append_iff {as bs cs : List Block} :
    agrees ⟨as ++ bs⟩ ⟨as ++ cs⟩ ↔ agrees ⟨bs⟩ ⟨cs⟩ := by
  have hself := agrees_self ⟨as⟩
  simp only [agrees, length, List.length_append, beq_self_eq_true, Bool.true_and, Bool.and_eq_true,
    beq_iff_eq, Nat.add_left_cancel_iff] at hself ⊢
  rw [List.zip_append rfl, List.all_append, hself, Bool.true_and]

/--
The texts of two faithful sheets, one right after the other, are read as the blocks of both unless
the first leaves a group open and the first ruleset of the second is for no media types. In that
case the second has rulesets that the group adopts, and what is read does not even agree with the
blocks of both.
-/
theorem ofText_append_renderWith_iff {s₁ s₂ : Sheet} (h₁ : s₁.IsFaithful) (h₂ : s₂.IsFaithful)
    {layout : Layout} (hindent : Text.blank layout.indent) :
    ofText (s₁.renderWith layout ++ s₂.renderWith layout) =
        ⟨s₁.blocks ++ adopt (mediaLeft layout none s₁.blocks) s₂.blocks⟩ ∧
      (ofText (s₁.renderWith layout ++ s₂.renderWith layout) = ⟨s₁.blocks ++ s₂.blocks⟩ ↔
        layout.closeTrailingMedia ∨
          (∀ r ∈ (s₁.blocks.filterMap Block.ruleset?).getLast?, r.media = none) ∨
            ∀ r ∈ (s₂.blocks.filterMap Block.ruleset?).head?, r.media ≠ none) ∧
      ((ofText (s₁.renderWith layout ++ s₂.renderWith layout)).agrees ⟨s₁.blocks ++ s₂.blocks⟩ ↔
        layout.closeTrailingMedia ∨
          (∀ r ∈ (s₁.blocks.filterMap Block.ruleset?).getLast?, r.media = none) ∨
            ∀ r ∈ (s₂.blocks.filterMap Block.ruleset?).head?, r.media ≠ none) := by
  have hread : ofText (s₁.renderWith layout ++ s₂.renderWith layout) =
      ⟨s₁.blocks ++ adopt (mediaLeft layout none s₁.blocks) s₂.blocks⟩ := by
    have hblocks := blocks_ofText_append_renderWith h₁.isCanonical h₂.isCanonical hindent
    rw [← hblocks]
  have hsets : SetsMedia (mediaLeft layout none s₁.blocks) s₂.blocks ↔
      layout.closeTrailingMedia ∨
        (∀ r ∈ (s₁.blocks.filterMap Block.ruleset?).getLast?, r.media = none) ∨
          ∀ r ∈ (s₂.blocks.filterMap Block.ruleset?).head?, r.media ≠ none := by
    rw [SetsMedia, mediaLeft_eq_none_iff, or_assoc]
  have hagrees : (ofText (s₁.renderWith layout ++ s₂.renderWith layout)).agrees
      ⟨s₁.blocks ++ s₂.blocks⟩ → SetsMedia (mediaLeft layout none s₁.blocks) s₂.blocks := by
    rw [hread, agrees_append_iff, agrees, Bool.and_eq_true]
    intro h
    exact setsMedia_of_agrees h.2
  have heq (h : SetsMedia (mediaLeft layout none s₁.blocks) s₂.blocks) :
      ofText (s₁.renderWith layout ++ s₂.renderWith layout) = ⟨s₁.blocks ++ s₂.blocks⟩ := by
    rw [hread, adopt_eq_self h]
  rw [← hsets]
  refine ⟨hread, ⟨?_, heq⟩, ⟨hagrees, ?_⟩⟩
  . intro h
    apply hagrees
    rw [h]
    exact agrees_self _
  . intro h
    rw [heq h]
    exact agrees_self _

/--
The sheet of the one ruleset `a { b: c; }` where `media` holds.
-/
def single (media : Media) : Sheet :=
  ⟨[.ruleset ⟨[.element ['a']], ⟨[(['b'], ['c'])], by decide⟩, media, by decide⟩]⟩

theorem isFaithful_single {media : Media}
    (h : ∀ types ∈ media, types ≠ [] ∧ ∀ t ∈ types, Media.IsType t) :
    (single media).IsFaithful := by
  intro b hb
  rw [single, List.mem_singleton] at hb
  rw [hb]
  refine ⟨h, ?_, ?_, ?_, ?_, ?_⟩
  all_goals dsimp only
  . decide
  . decide
  . decide
  . simp
  . decide

theorem ofText_append_renderWith_single :
    (single (some [['d']])).IsFaithful ∧ (single none).IsFaithful ∧
      Text.blank (Layout.mk ['\t'] false).indent ∧ Text.blank (Layout.mk ['\t'] true).indent ∧
      ofText ((single (some [['d']])).renderWith ⟨['\t'], false⟩ ++
        (single none).renderWith ⟨['\t'], false⟩) ≠
          ⟨(single (some [['d']])).blocks ++ (single none).blocks⟩ ∧
      ofText ((single (some [['d']])).renderWith ⟨['\t'], true⟩ ++
        (single none).renderWith ⟨['\t'], true⟩) =
          ⟨(single (some [['d']])).blocks ++ (single none).blocks⟩ := by
  have hgroup : (single (some [['d']])).IsFaithful := by
    apply isFaithful_single
    intro types htypes
    cases htypes
    refine ⟨by decide, ?_⟩
    intro t ht
    rw [List.mem_singleton] at ht
    rw [ht]
    exact ⟨by decide, rfl, by simp, by decide⟩
  have hnone : (single none).IsFaithful := isFaithful_single (by simp)
  have hleftOpen := @ofText_append_renderWith_iff _ _ hgroup hnone ⟨['\t'], false⟩ rfl
  have hclosed := @ofText_append_renderWith_iff _ _ hgroup hnone ⟨['\t'], true⟩ rfl
  refine ⟨hgroup, hnone, rfl, rfl, ?_, hclosed.2.1.2 (.inl rfl)⟩
  rw [ne_eq, hleftOpen.2.1]
  decide

end Sheet

end Stylesheet
