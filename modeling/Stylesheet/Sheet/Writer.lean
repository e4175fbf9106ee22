import Stylesheet.Block.Printer
import Stylesheet.Sheet.Basic

/-!
This module contains the text of a sheet. A blank line follows each block. Rulesets for the same
media types share one `@media` group, which other blocks do not interrupt; the last group is left
open unless the layout says otherwise.
-/

namespace Stylesheet

structure Layout where
  /--
  One level of indentation.
  -/
  indent : Text
  closeTrailingMedia : Bool
deriving DecidableEq, Repr

def Layout.default : Layout :=
  ⟨['\t'], false⟩

namespace Sheet

/--
The end of an `@media` group; there is nothing to end outside of one.
-/
def renderClose : Media → Text
  | none => []
  | some _ => ['}', '\n', '\n']

def renderOpen : Media → Text
  | none => []
  | some types => "@media ".toList ++ Text.ofCommaList types ++ [' ', '{', '\n']

/--
What stands between a ruleset for `media` and one for `next`.
-/
def renderSwitch (media next : Media) : Text :=
  if media = next then [] else renderClose media ++ renderOpen next

def groupIndent (layout : Layout) : Media → Text
  | none => []
  | some _ => layout.indent

/--
The text of blocks that follow a ruleset for `media`.
-/
def renderFrom (layout : Layout) (media : Media) : List Block → Text
  | [] => if layout.closeTrailingMedia then renderClose media else []
  | .ruleset r :: blocks =>
    renderSwitch media r.media ++ r.render (groupIndent layout r.media) layout.indent ++
      ['\n', '\n'] ++ renderFrom layout r.media blocks
  | b :: blocks => b.render [] ++ ['\n', '\n'] ++ renderFrom layout media blocks

def renderWith (layout : Layout) (s : Sheet) : Text :=
  renderFrom layout none s.blocks

def render (s : Sheet) : Text :=
  s.renderWith .default

end Sheet

end Stylesheet
