import Stylesheet.Text.Basic

/-!
This module contains selectors. A selector is simple, or a selector with a pseudo-class or
pseudo-element after it, or two selectors that a combinator joins.
-/

namespace Stylesheet

inductive Combinator where
  | descendant
  | child
  | adjacent
deriving DecidableEq, Repr

def Combinator.spelling : Combinator → Text
  | descendant => [' ']
  | child => [' ', '>', ' ']
  | adjacent => [' ', '+', ' ']

/--
How an attribute is compared with a value; `present` compares with none.
-/
inductive Operator where
  | present
  | equals
  | includes
  | dashMatch
deriving DecidableEq, Repr

namespace Operator

def symbol : Operator → Text
  | present => []
  | equals => ['=']
  | includes => ['~', '=']
  | dashMatch => ['|', '=']

/--
The operator that is written as `t`; `present` is not written.
-/
def ofSymbol? (t : Text) : Option Operator :=
  [equals, includes, dashMatch].find? (·.symbol = t)

theorem ofSymbol?_eq_some_iff {t : Text} {o : Operator} :
    ofSymbol? t = some o ↔ o ≠ present ∧ o.symbol = t := by
  constructor
  . intro h
    have hmem := List.mem_of_find?_eq_some h
    have hsymbol := List.find?_some h
    refine ⟨?_, by simpa using hsymbol⟩
    rintro rfl
    simp at hmem
  . rintro ⟨hne, rfl⟩
    cases o <;> first | contradiction | rfl

end Operator

/--
Simple selectors may carry the qualifier that is written before them, an element name or `*`. No
qualifier and an empty one are written alike, but are not the same.
-/
inductive Selector where
  | element (name : Text)
  | byClass (name : Text) (qualifier : Option Text)
  | byId (name : Text) (qualifier : Option Text)
  | byAttribute (name : Text) (operator : Operator) (value : Option Text)
    (qualifier : Option Text)
  | pseudo (inner : Selector) (name : Text)
  | joined (left : Selector) (combinator : Combinator) (right : Selector)
deriving DecidableEq, Repr

namespace Selector

/--
A selector and all selectors inside it, each one before its parts.
-/
def flatten : Selector → List Selector
  | pseudo inner name => pseudo inner name :: inner.flatten
  | joined left combinator right =>
    joined left combinator right :: (left.flatten ++ right.flatten)
  | simple => [simple]

theorem self_mem_flatten (s : Selector) : s ∈ s.flatten := by
  cases s <;> simp [flatten]

end Selector

end Stylesheet
