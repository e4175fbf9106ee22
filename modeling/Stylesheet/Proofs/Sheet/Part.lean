import Stylesheet.Sheet.Writer

/-!
This module contains the parts that a sheet is written in: the lines of its blocks, and between them
the heads and the ends of `@media` groups. Which of these stand before a ruleset follows from its
media types and those of the ruleset before it. Groups do not nest, and at most the last one is left
open.
-/

namespace Stylesheet

/--
The lines that a ruleset is written in: one for its selectors, one for each of its declarations,
which are indented by `step` beyond the others, and one for the brace at its end.
-/
def Ruleset.lines (indent step : Text) (r : Ruleset) : List Text :=
  [indent ++ [',', ' '].intercalate (r.selectors.map Selector.render) ++ [' ', '{']] ++
    r.declarations.entries.map (fun (name, value) =>
      indent ++ step ++ name ++ [':', ' '] ++ value ++ [';']) ++
    [indent ++ ['}']]

theorem Ruleset.flatMap_lines (indent step : Text) (r : Ruleset) :
    (r.lines indent step).flatMap (· ++ ['\n']) = r.render indent step ++ ['\n'] := by
  have hentries : (r.declarations.entries.map fun (name, value) =>
        indent ++ step ++ name ++ [':', ' '] ++ value ++ [';']).flatMap (· ++ ['\n']) =
      r.declarations.entries.flatMap (renderEntry (indent ++ step)) := by
    rw [List.flatMap_map]
    congr 1
    funext entry
    simp [renderEntry]
  rw [lines, List.flatMap_append, List.flatMap_append, hentries]
  simp [render, Selector.renderList, Text.ofCommaList]

namespace Block

/--
The lines that a block is written in. A comment may have more lines inside of it.
-/
def lines (indent step : Text) : Block → List Text
  | comment t => [t]
  | importRule i =>
    let types := if i.mediaTypes = [] then [] else [' '] ++ [',', ' '].intercalate i.mediaTypes
    ["@import url(\"".toList ++ i.url ++ "\")".toList ++ types ++ [';']]
  | charset name => ["@charset \"".toList ++ name ++ "\";".toList]
  | ruleset r => r.lines indent step

theorem flatMap_lines (indent step : Text) (b : Block) :
    (b.lines indent step).flatMap (· ++ ['\n']) = b.renderWith indent step ++ ['\n'] := by
  cases b with
  | ruleset r => exact r.flatMap_lines indent step
  | _ => exact List.flatMap_singleton ..

end Block

namespace Sheet

inductive Part where
  /--
  The head of an `@media` group.
  -/
  | head (types : List Text)
  /--
  The end of an `@media` group.
  -/
  | close
  /--
  The lines of a block.
  -/
  | block (lines : List Text)
deriving DecidableEq, Repr

namespace Part

def text : Part → Text
  | head types => "@media ".toList ++ [',', ' '].intercalate types ++ [' ', '{', '\n']
  | close => ['}', '\n', '\n']
  | block lines => lines.flatMap (· ++ ['\n']) ++ ['\n']

theorem text_block_lines (indent step : Text) (b : Block) :
    (block (b.lines indent step)).text = b.renderWith indent step ++ ['\n', '\n'] := by
  have htext : (block (b.lines indent step)).text =
      (b.lines indent step).flatMap (· ++ ['\n']) ++ ['\n'] := rfl
  rw [htext, Block.flatMap_lines, List.append_assoc, List.singleton_append]

def isHead : Part → Bool
  | head _ => true
  | _ => false

def isClose : Part → Bool
  | close => true
  | _ => false

/--
Whether a group is open after parts, when `isOpen` says so for the place before them; `none` if a
group starts inside of another one or one ends that has not started.
-/
def run (isOpen : Bool) : List Part → Option Bool
  | [] => some isOpen
  | head _ :: ps => if isOpen then none else run true ps
  | close :: ps => if isOpen then run false ps else none
  | block _ :: ps => run isOpen ps

theorem run_append (isOpen : Bool) (ps qs : List Part) :
    run isOpen (ps ++ qs) = (run isOpen ps).bind fun isOpen => run isOpen qs := by
  induction ps generalizing isOpen with
  | nil => rfl
  | cons p ps ih =>
    cases p with
    | head types => cases isOpen <;> simp [run, ih]
    | close => cases isOpen <;> simp [run, ih]
    | block lines => simp [run, ih]

/--
What is open at the end is what was open at the start or has been opened, less what has been closed.
-/
theorem countP_of_run {isOpen isOpen' : Bool} {ps : List Part} (h : run isOpen ps = some isOpen') :
    isOpen.toNat + ps.countP isHead = ps.countP isClose + isOpen'.toNat := by
  induction ps generalizing isOpen with
  | nil =>
    cases h
    simp
  | cons p ps ih =>
    cases p with
    | head types =>
      cases isOpen with
      | true => cases h
      | false =>
        have hrest := ih h
        simp only [List.countP_cons, isHead, isClose, Bool.toNat_true, Bool.toNat_false,
          ↓reduceIte, Bool.false_eq_true] at hrest ⊢
        omega
    | close =>
      cases isOpen with
      | true =>
        have hrest := ih h
        simp only [List.countP_cons, isHead, isClose, Bool.toNat_true, Bool.toNat_false,
          ↓reduceIte, Bool.false_eq_true] at hrest ⊢
        omega
      | false => cases h
    | block lines =>
      have hrest := ih h
      simp only [List.countP_cons, isHead, isClose, ↓reduceIte, Bool.false_eq_true] at hrest ⊢
      omega

/--
At any place inside of parts that start and end groups in turn, at most one group is open.
-/
theorem countP_of_prefix {ps qs : List Part} {isOpen : Bool} (h : run false qs = some isOpen)
    (hps : ps <+: qs) :
    ps.countP isHead = ps.countP isClose ∨ ps.countP isHead = ps.countP isClose + 1 := by
  rcases hps with ⟨rest, rfl⟩
  rw [run_append, Option.bind_eq_some_iff] at h
  rcases h with ⟨isOpen', hps, -⟩
  have hcount := countP_of_run hps
  cases isOpen' with
  | false =>
    left
    simpa using hcount
  | true =>
    right
    simpa using hcount

end Part

/--
The media types of the last ruleset, if there is a ruleset.
-/
def lastMedia? (blocks : List Block) : Option Media :=
  (blocks.filterMap Block.ruleset?).getLast?.map Ruleset.media

/--
The end of the group of a ruleset for `last?`, if there is one, when a ruleset for `media` follows.
-/
def closing (last? : Option Media) (media : Media) : List Part :=
  if last?.any Option.isSome ∧ last? ≠ some media then [.close] else []

/--
The head of the group of a ruleset when one for `last?`, or none, stands before it.
-/
def opening (last? : Option Media) : Media → List Part
  | none => []
  | some types => if last? = some (some types) then [] else [.head types]

/--
The parts of a block when the last ruleset before it, if there is one, is for `last?`.
-/
def partsOf (layout : Layout) (last? : Option Media) : Block → List Part
  | .ruleset r =>
    closing last? r.media ++ opening last? r.media ++
      [.block (r.lines (if r.media.isSome then layout.indent else []) layout.indent)]
  | b => [.block (b.lines [] Block.defaultStep)]

/--
The end of the group that the last ruleset is in, if the layout asks for it.
-/
def ending (layout : Layout) (last? : Option Media) : List Part :=
  if layout.closeTrailingMedia ∧ last?.any Option.isSome then [.close] else []

def parts (layout : Layout) (s : Sheet) : List Part :=
  (s.blocks.mapIdx fun i b => partsOf layout (lastMedia? (s.blocks.take i)) b).flatten ++
    ending layout (lastMedia? s.blocks)

/--
The media types of the last ruleset after a block, when `last?` are those before it.
-/
def nextMedia? (last? : Option Media) (b : Block) : Option Media :=
  (b.ruleset?.map Ruleset.media).or last?

/--
The parts of blocks that follow a ruleset for `last?`, or none.
-/
def partsFrom (layout : Layout) (last? : Option Media) : List Block → List Part
  | [] => []
  | b :: blocks => partsOf layout last? b ++ partsFrom layout (nextMedia? last? b) blocks

section Parts

variable (layout : Layout) (last? : Option Media)

/--
Whether the last group is closed does not matter to the parts before its end.
-/
theorem partsFrom_closeTrailing (indent : Text) (isClosed : Bool) (blocks : List Block) :
    partsFrom ⟨indent, isClosed⟩ last? blocks = partsFrom ⟨indent, false⟩ last? blocks := by
  induction blocks generalizing last? with
  | nil => rfl
  | cons b blocks ih =>
    rw [partsFrom, partsFrom, ih]
    cases b <;> rfl

theorem lastMedia?_cons_or (b : Block) (blocks : List Block) :
    (lastMedia? (b :: blocks)).or last? = (lastMedia? blocks).or (nextMedia? last? b) := by
  unfold lastMedia? nextMedia?
  cases b with
  | ruleset r =>
    have hcons : (Block.ruleset r :: blocks).filterMap Block.ruleset? =
        r :: blocks.filterMap Block.ruleset? := rfl
    rw [hcons, List.getLast?_cons]
    cases (blocks.filterMap Block.ruleset?).getLast? <;> rfl
  | _ => rfl

theorem partsFrom_eq_flatten (blocks : List Block) :
    partsFrom layout last? blocks =
      (blocks.mapIdx fun i b =>
        partsOf layout ((lastMedia? (blocks.take i)).or last?) b).flatten := by
  induction blocks generalizing last? with
  | nil => rfl
  | cons b blocks ih =>
    rw [partsFrom, ih, List.mapIdx_cons, List.flatten_cons]
    simp only [List.take_succ_cons, lastMedia?_cons_or]
    rfl

theorem parts_eq (s : Sheet) :
    s.parts layout = partsFrom layout none s.blocks ++ ending layout (lastMedia? s.blocks) := by
  rw [parts, partsFrom_eq_flatten]
  simp only [Option.or_none]

theorem partsFrom_append (blocks blocks' : List Block) :
    partsFrom layout last? (blocks ++ blocks') =
      partsFrom layout last? blocks ++ partsFrom layout ((lastMedia? blocks).or last?) blocks' := by
  induction blocks generalizing last? with
  | nil => rfl
  | cons b blocks ih =>
    rw [List.cons_append, partsFrom, partsFrom, ih, lastMedia?_cons_or, List.append_assoc]

theorem closing_self (media : Media) : closing (some media) media = [] := by
  simp [closing]

theorem opening_self (media : Media) : opening (some media) media = [] := by
  cases media <;> simp [opening]

theorem opening_of_ne {last? : Option Media} {types : List Text} (h : last? ≠ some (some types)) :
    opening last? (some types) = [.head types] :=
  if_neg h

theorem flatMap_text_closing {last? : Option Media} {media : Media} (h : last? ≠ some media) :
    (closing last? media).flatMap Part.text =
      if last?.any Option.isSome then ['}', '\n', '\n'] else [] := by
  simp only [closing, h, ne_eq, not_false_eq_true, and_true]
  split <;> rfl

theorem closing_append_opening (types types' : List Text) :
    closing (some (some types)) (some types') ++ opening (some (some types)) (some types') =
      if types = types' then [] else [.close, .head types'] := by
  by_cases h : types = types' <;> simp [closing, opening, h]

theorem run_switch (media : Media) :
    Part.run (last?.any Option.isSome) (closing last? media ++ opening last? media) =
      some media.isSome := by
  rcases last? with _ | _ | types
  . cases media <;> rfl
  . cases media <;> rfl
  . cases media with
    | none => rfl
    | some types' =>
      rw [closing_append_opening]
      split <;> rfl

theorem run_partsOf (b : Block) :
    Part.run (last?.any Option.isSome) (partsOf layout last? b) =
      some ((nextMedia? last? b).any Option.isSome) := by
  cases b with
  | ruleset r =>
    rw [partsOf, Part.run_append, run_switch]
    rfl
  | _ => rfl

theorem run_partsFrom (blocks : List Block) :
    Part.run (last?.any Option.isSome) (partsFrom layout last? blocks) =
      some (((lastMedia? blocks).or last?).any Option.isSome) := by
  induction blocks generalizing last? with
  | nil => rfl
  | cons b blocks ih =>
    rw [partsFrom, Part.run_append, run_partsOf, Option.bind_some, ih, lastMedia?_cons_or]

theorem run_parts (s : Sheet) :
    Part.run false (s.parts layout) =
      some (!layout.closeTrailingMedia && (lastMedia? s.blocks).any Option.isSome) := by
  have hblocks : Part.run false (partsFrom layout none s.blocks) =
      some (((lastMedia? s.blocks).or none).any Option.isSome) := run_partsFrom layout none s.blocks
  rw [parts_eq, Part.run_append, hblocks, Option.bind_some, Option.or_none, ending]
  cases layout.closeTrailingMedia <;> cases (lastMedia? s.blocks).any Option.isSome <;> rfl

end Parts

end Sheet
end Stylesheet
