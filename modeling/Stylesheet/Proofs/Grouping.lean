import Mathlib.Data.List.Basic
import Mathlib.Data.List.Induction
import Stylesheet.Proofs.Sheet.Part
import Stylesheet.Sheet.Edit

/-!
This module contains the text of a sheet as that of its parts, and the loop that writes it: the loop
keeps the media types of the last ruleset and, beside them, the indentation that goes with them.
-/

namespace Stylesheet
namespace Sheet

section Render

variable (layout : Layout) (last? : Option Media)

theorem renderClose_some (types : List Text) : renderClose (some types) = Part.close.text := rfl

theorem renderOpen_some (types : List Text) :
    renderOpen (some types) = (Part.head types).text := rfl

theorem groupIndent_eq (media : Media) :
    groupIndent layout media = if media.isSome then layout.indent else [] := by
  cases media <;> rfl

/--
The text of a ruleset with the end and the head of a group before it.
-/
theorem flatMap_text_partsOf_ruleset (r : Ruleset) :
    (partsOf layout last? (.ruleset r)).flatMap Part.text =
      (closing last? r.media ++ opening last? r.media).flatMap Part.text ++
        (r.render (if r.media.isSome then layout.indent else []) layout.indent ++
          ['\n', '\n']) := by
  have hlines := Part.text_block_lines (if r.media.isSome then layout.indent else []) layout.indent
    (.ruleset r)
  rw [partsOf, List.flatMap_append, List.flatMap_singleton]
  exact congrArg (_ ++ ·) hlines

theorem flatMap_text_partsOf {b : Block} (h : b.ruleset? = none) :
    (partsOf layout last? b).flatMap Part.text = b.render [] ++ ['\n', '\n'] := by
  cases b with
  | ruleset r => cases h
  | _ => exact (List.append_nil _).trans (Part.text_block_lines [] Block.defaultStep _)

/--
That there is no ruleset before and that the one before is for no media types makes no difference to
the text.
-/
theorem renderSwitch_eq (media : Media) :
    renderSwitch (last?.getD none) media =
      (closing last? media ++ opening last? media).flatMap Part.text := by
  rcases last? with _ | _ | types
  . cases media with
    | none => rfl
    | some types' => exact (List.append_nil _).symm
  . cases media with
    | none => rfl
    | some types' => exact (List.append_nil _).symm
  . cases media with
    | none => rfl
    | some types' =>
      have hswitch : renderSwitch (some types) (some types') =
          if types = types' then [] else Part.close.text ++ (Part.head types').text := by
        simp only [renderSwitch, Option.some.injEq, renderClose_some, renderOpen_some]
      rw [Option.getD_some, hswitch, closing_append_opening]
      split
      . rfl
      . rw [List.flatMap_cons, List.flatMap_singleton]

theorem renderFrom_cons (b : Block) (blocks : List Block) :
    renderFrom layout (last?.getD none) (b :: blocks) =
      (partsOf layout last? b).flatMap Part.text ++
        renderFrom layout ((nextMedia? last? b).getD none) blocks := by
  cases b with
  | ruleset r =>
    have hnext : (nextMedia? last? (.ruleset r)).getD none = r.media := rfl
    rw [renderFrom, hnext, flatMap_text_partsOf_ruleset, renderSwitch_eq, groupIndent_eq,
      List.append_assoc (List.flatMap _ _)]
  | _ => exact congrArg (· ++ _) (flatMap_text_partsOf layout last? rfl).symm

theorem renderFrom_eq_flatMap (blocks : List Block) :
    renderFrom layout (last?.getD none) blocks =
      (partsFrom layout last? blocks ++
        ending layout ((lastMedia? blocks).or last?)).flatMap Part.text := by
  induction blocks generalizing last? with
  | nil =>
    have hlast : (lastMedia? []).or last? = last? := rfl
    rw [hlast, renderFrom, partsFrom, List.nil_append, ending]
    cases layout.closeTrailingMedia with
    | false => rfl
    | true => rcases last? with _ | _ | types <;> rfl
  | cons b blocks ih =>
    rw [renderFrom_cons, ih, partsFrom, List.append_assoc, lastMedia?_cons_or]
    exact List.flatMap_append.symm

theorem flatMap_text_parts (s : Sheet) :
    (s.parts layout).flatMap Part.text = s.renderWith layout := by
  have hfrom := renderFrom_eq_flatMap layout none s.blocks
  rw [Option.or_none, ← parts_eq] at hfrom
  exact hfrom.symm

end Render

theorem lastMedia?_concat (blocks : List Block) (b : Block) :
    lastMedia? (blocks ++ [b]) = nextMedia? (lastMedia? blocks) b := by
  unfold lastMedia? nextMedia?
  rw [List.filterMap_append]
  cases b <;> simp [Block.ruleset?]

theorem partsFrom_concat (layout : Layout) (blocks : List Block) (b : Block) :
    partsFrom layout none (blocks ++ [b]) =
      partsFrom layout none blocks ++ partsOf layout (lastMedia? blocks) b := by
  rw [partsFrom_append, Option.or_none, partsFrom, partsFrom, List.append_nil]

/--
A sheet of which some blocks are written: the text so far, the media types of the last ruleset, if
there is one, and the indentation of rulesets, which stays until these change.
-/
structure Writing where
  text : Text
  last? : Option Media
  indent : Text

namespace Writing

def start : Writing :=
  ⟨[], none, []⟩

/--
Ends the group of the last ruleset and starts that of the next one, unless they are the same.
-/
def switch (layout : Layout) (w : Writing) (media : Media) : Writing :=
  if w.last? = some media then
    w
  else
    let text := w.text ++ if w.last?.any Option.isSome then ['}', '\n', '\n'] else []
    match media with
    | none => ⟨text, some none, []⟩
    | some types =>
      let head := "@media ".toList ++ Text.ofCommaList types ++ [' ', '{', '\n']
      ⟨text ++ head, some (some types), layout.indent⟩

def write (layout : Layout) (w : Writing) : Block → Writing
  | .ruleset r =>
    let w := w.switch layout r.media
    { w with text := w.text ++ (r.render w.indent layout.indent ++ ['\n', '\n']) }
  | b => { w with text := w.text ++ (b.render [] ++ ['\n', '\n']) }

def run (layout : Layout) (blocks : List Block) : Writing :=
  blocks.foldl (write layout) start

def finish (layout : Layout) (w : Writing) : Text :=
  w.text ++
    if layout.closeTrailingMedia ∧ w.last?.any Option.isSome then ['}', '\n', '\n'] else []

/--
Whether exactly the given blocks are written.
-/
structure Covers (layout : Layout) (blocks : List Block) (w : Writing) : Prop where
  text : w.text = (partsFrom layout none blocks).flatMap Part.text
  last? : w.last? = lastMedia? blocks
  indent : w.indent = if (lastMedia? blocks).any Option.isSome then layout.indent else []

variable {layout : Layout} {blocks : List Block} {w : Writing}

theorem covers_start (layout : Layout) : Covers layout [] start := by
  constructor <;> rfl

theorem switch_of_ne {media : Media} (h : w.last? ≠ some media) :
    w.switch layout media =
      ⟨w.text ++ (closing w.last? media ++ opening w.last? media).flatMap Part.text, some media,
        if media.isSome then layout.indent else []⟩ := by
  rw [switch, if_neg h, List.flatMap_append, flatMap_text_closing h]
  cases media with
  | none => simp [opening]
  | some types =>
    rw [opening_of_ne h, List.flatMap_singleton, ← List.append_assoc]
    rfl

/--
The indentation goes with the media types also where these stay the same.
-/
theorem switch_eq (h : w.indent = if w.last?.any Option.isSome then layout.indent else [])
    (media : Media) :
    w.switch layout media =
      ⟨w.text ++ (closing w.last? media ++ opening w.last? media).flatMap Part.text, some media,
        if media.isSome then layout.indent else []⟩ := by
  by_cases hsame : w.last? = some media
  . have hindent : w.indent = if media.isSome then layout.indent else [] := by
      rw [h, hsame]
      rfl
    rw [switch, if_pos hsame, hsame, closing_self, opening_self, ← hindent, ← hsame]
    simp
  . exact switch_of_ne hsame

theorem text_write_ruleset (r : Ruleset) :
    (w.write layout (.ruleset r)).text =
      (w.switch layout r.media).text ++
        (r.render (w.switch layout r.media).indent layout.indent ++ ['\n', '\n']) := rfl

theorem Covers.write (h : Covers layout blocks w) (b : Block) :
    Covers layout (blocks ++ [b]) (w.write layout b) := by
  have hindent := h.indent
  rw [← h.last?] at hindent
  cases b with
  | ruleset r =>
    have hswitch := switch_eq hindent r.media
    constructor
    . rw [partsFrom_concat, List.flatMap_append, flatMap_text_partsOf_ruleset, text_write_ruleset,
        hswitch, h.text, h.last?, List.append_assoc]
    . rw [lastMedia?_concat]
      exact congrArg Writing.last? hswitch
    . rw [lastMedia?_concat]
      exact congrArg Writing.indent hswitch
  | _ =>
    -- nothing but a ruleset changes the media types or the indentation
    constructor
    . rw [partsFrom_concat, List.flatMap_append, flatMap_text_partsOf _ _ rfl, ← h.text]
      rfl
    . rw [lastMedia?_concat]
      exact h.last?
    . rw [lastMedia?_concat]
      exact h.indent

theorem covers_run (layout : Layout) (blocks : List Block) :
    Covers layout blocks (run layout blocks) := by
  induction blocks using List.reverseRecOn with
  | nil => exact covers_start layout
  | append_singleton blocks b ih =>
    rw [run, List.foldl_concat, ← run]
    exact ih.write b

theorem Covers.finish {s : Sheet} (h : Covers layout s.blocks w) :
    w.finish layout = s.renderWith layout := by
  rw [← flatMap_text_parts, parts_eq, List.flatMap_append, Writing.finish, h.text, h.last?,
    ending]
  split <;> rfl

end Writing

theorem blocks_foldl_add (s : Sheet) (blocks : List Block) :
    (blocks.foldl add s).blocks = s.blocks ++ blocks := by
  induction blocks generalizing s with
  | nil => exact (List.append_nil _).symm
  | cons b blocks ih =>
    rw [List.foldl_cons, ih, add, List.append_assoc]
    rfl

/--
What is written while the last group stays open is where the text of a sheet with more blocks, or
with that group closed, starts too.
-/
theorem parts_foldl_add (indent : Text) (s : Sheet) (blocks : List Block) (isClosed : Bool) :
    (blocks.foldl add s).parts ⟨indent, isClosed⟩ =
      s.parts ⟨indent, false⟩ ++
        (partsFrom ⟨indent, isClosed⟩ (lastMedia? s.blocks) blocks ++
          ending ⟨indent, isClosed⟩ (lastMedia? (s.blocks ++ blocks))) := by
  have hopen : s.parts ⟨indent, false⟩ = partsFrom ⟨indent, isClosed⟩ none s.blocks := by
    rw [parts_eq, partsFrom_closeTrailing none indent isClosed]
    exact List.append_nil _
  rw [hopen, parts_eq, blocks_foldl_add, partsFrom_append, Option.or_none, List.append_assoc]

/--
The text of a sheet is that of its parts. It is what the loop writes that keeps the indentation of
rulesets beside the media types of the last one, and rulesets are indented exactly while these are
some, even if there are none of them. Wherever the parts are cut, at most one group is open; at the
end it is the one of the last ruleset, unless the layout closes it. If it does not, then adding
blocks, or closing that group, only adds to the text.
-/
theorem renderWith_eq_flatMap (s : Sheet) (layout : Layout) :
    s.renderWith layout = (s.parts layout).flatMap Part.text ∧
      ((Writing.run layout s.blocks).finish layout = s.renderWith layout ∧
        (Writing.run layout s.blocks).last? = lastMedia? s.blocks ∧
        (Writing.run layout s.blocks).indent =
          if (lastMedia? s.blocks).any Option.isSome then layout.indent else []) ∧
      (∀ ps, ps <+: s.parts layout →
        ps.countP Part.isHead = ps.countP Part.isClose ∨
          ps.countP Part.isHead = ps.countP Part.isClose + 1) ∧
      (s.parts layout).countP Part.isHead = (s.parts layout).countP Part.isClose +
        (!layout.closeTrailingMedia && (lastMedia? s.blocks).any Option.isSome).toNat ∧
      ∀ (blocks : List Block) isClosed, s.renderWith ⟨layout.indent, false⟩ <+:
        (blocks.foldl add s).renderWith ⟨layout.indent, isClosed⟩ := by
  have hloop := Writing.covers_run layout s.blocks
  refine ⟨(flatMap_text_parts layout s).symm, ⟨hloop.finish, hloop.last?, hloop.indent⟩, ?_, ?_, ?_⟩
  . intro ps
    apply Part.countP_of_prefix
    apply run_parts
  . have hcount := Part.countP_of_run (run_parts layout s)
    simpa using hcount
  . intro blocks isClosed
    rw [← flatMap_text_parts, ← flatMap_text_parts, parts_foldl_add, List.flatMap_append]
    apply List.prefix_append

end Sheet
end Stylesheet
