import Stylesheet.Notice
import Stylesheet.Selector.Atom
import Stylesheet.Selector.Spacing

/-!
This module contains the reader of a selector list. Commas separate its groups; one comma too many
at either end is tolerated. A group that cannot be read is left out of the list and noted.
-/

namespace Stylesheet

namespace Selector

/--
A group cut at its combinators: the text before the first one, and each combinator with the text
after it. A run of blanks is one combinator.
-/
def chain : Text → Text × List (Combinator × Text)
  | [] => ([], [])
  | c :: t =>
    let (head, joints) := chain t
    if c = '>' then
      ([], (.child, head) :: joints)
    else if c = '+' then
      ([], (.adjacent, head) :: joints)
    else if isBlank c then
      if t.head?.any isBlank then
        (head, joints)
      else
        ([], (.descendant, head) :: joints)
    else
      (c :: head, joints)

/--
Joins a selector and the one that is written after a combinator.
-/
def link? (left : Selector) (joint : Combinator × Text) : Option Selector :=
  (ofAtom? joint.2).map fun right => .joined left joint.1 right

/--
The selector of a group; combinators associate to the left.
-/
def ofGroup? (t : Text) : Option Selector :=
  let (head, joints) := chain t
  (ofAtom? head).bind fun first => joints.foldlM link? first

/--
The groups of a selector list in which no blank is left that means nothing.
-/
def groups (t : Text) : List Text :=
  let t := if t.head? = some ',' then t.tail else t
  let t := if t.getLast? = some ',' then t.dropLast else t
  if t = [] then [] else t.splitOn ','

def ofText (t : Text) : List Selector :=
  (groups (tidy t)).filterMap ofGroup?

@[simp]
theorem groups_nil : groups [] = [] := rfl

end Selector

/--
The notices about the groups of a selector list that cannot be read.
-/
def Notice.ofSelectors (t : Text) : List Notice :=
  ((Selector.groups (Selector.tidy t)).filter fun g => (Selector.ofGroup? g).isNone).map
    .droppedSelector

theorem Selector.length_ofText_add_notices (t : Text) :
    (ofText t).length + (Notice.ofSelectors t).length = (groups (tidy t)).length := by
  unfold ofText Notice.ofSelectors
  induction groups (tidy t) with
  | nil => rfl
  | cons g gs ih =>
    cases h : ofGroup? g <;> simp [h] at ih ⊢ <;> omega

end Stylesheet
