import Stylesheet.Selector.Basic

/-!
This module contains the text of a selector. A value is written between double quotes, whatever it
holds.
-/

namespace Stylesheet.Selector

/--
The operator and the value of an attribute selector as they are written; without a value the
operator is left out.
-/
def renderValue (operator : Operator) : Option Text → Text
  | none => []
  | some value => operator.symbol ++ '"' :: value ++ ['"']

def render : Selector → Text
  | element name => name
  | byClass name qualifier => qualifier.getD [] ++ '.' :: name
  | byId name qualifier => qualifier.getD [] ++ '#' :: name
  | byAttribute name operator value qualifier =>
    qualifier.getD [] ++ '[' :: name ++ renderValue operator value ++ [']']
  | pseudo inner name => inner.render ++ ':' :: name
  | joined left combinator right => left.render ++ combinator.spelling ++ right.render

def renderList (selectors : List Selector) : Text :=
  Text.ofCommaList (selectors.map render)

@[simp]
theorem renderList_singleton (s : Selector) : renderList [s] = s.render := by
  simp [renderList, Text.ofCommaList]

end Stylesheet.Selector
