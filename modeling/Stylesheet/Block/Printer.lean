import Stylesheet.Block.Basic

/-!
This module contains the text of a block. Only rulesets are indented.
-/

namespace Stylesheet

def Import.render (i : Import) : Text :=
  let types := if i.mediaTypes = [] then [] else ' ' :: Text.ofCommaList i.mediaTypes
  "@import url(\"".toList ++ i.url ++ "\")".toList ++ types ++ [';']

namespace Block

/--
How far a declaration is indented beyond its ruleset when nothing else is asked for.
-/
def defaultStep : Text :=
  ['\t']

/--
The text of a block with `indent` before each line of a ruleset, and `step` besides before each of
its declarations.
-/
def renderWith (indent step : Text) : Block → Text
  | comment t => t
  | importRule i => i.render
  | charset name => "@charset \"".toList ++ name ++ "\";".toList
  | ruleset r => r.render indent step

def render (indent : Text) (b : Block) : Text :=
  b.renderWith indent defaultStep

end Block

end Stylesheet
