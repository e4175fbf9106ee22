import Stylesheet.Sheet.Basic

/-!
This module contains the queries of a sheet for rulesets. An id, a class or an element counts
wherever it stands in a selector, but not as a qualifier. Blank arguments are refused; all others
are compared as they are.
-/

namespace Stylesheet

inductive Query where
  /--
  The rulesets for a media type, or those outside of any `@media`.
  -/
  | media (type? : Option Text)
  | id (t : Text)
  | className (t : Text)
  | tagName (t : Text)
  | name (t : Text)
deriving DecidableEq, Repr

namespace Query

/--
Whether `m` is the media of rulesets for a type, or of those outside of any `@media`.
-/
def holdsFor (type? : Option Text) (m : Media) : Bool :=
  match type? with
  | none => m.isNone
  | some type => m.any (type ∈ ·)

def isId (t : Text) : Selector → Bool
  | .byId n _ => n = t
  | _ => false

def isClass (t : Text) : Selector → Bool
  | .byClass n _ => n = t
  | _ => false

def isElement (t : Text) : Selector → Bool
  | .element n => n = t
  | _ => false

/--
Whether a query selects a ruleset.
-/
def selects : Query → Ruleset → Bool
  | media type?, r => holdsFor type? r.media
  | id t, r => r.parts.any (isId t)
  | className t, r => r.parts.any (isClass t)
  | tagName t, r => r.parts.any (isElement t)
  | name t, r => r.name = t

/--
The argument of a query with its kind; a query for rulesets outside of `@media` has none.
-/
def argument? : Query → Option (Argument × Text)
  | media type? => type?.map fun t => (.mediaType, t)
  | id t => some (.id, t)
  | className t => some (.className, t)
  | tagName t => some (.tagName, t)
  | name t => some (.name, t)

def check (q : Query) : Except Fault Unit :=
  match q.argument? with
  | some (argument, t) => if Text.blank t then .error (.emptyArgument argument) else .ok ()
  | none => .ok ()

end Query

namespace Sheet

/--
The positions of the rulesets that a query selects, in increasing order.
-/
def positions (s : Sheet) (q : Query) : List Nat :=
  s.blocks.zipIdx.filterMap fun (b, index) => if b.ruleset?.any q.selects then some index else none

def indicesOf (s : Sheet) (q : Query) : Except Fault (List Nat) := do
  q.check
  return s.positions q

def rulesetsOf (s : Sheet) (q : Query) : Except Fault (List Ruleset) := do
  return s.rulesets (← s.indicesOf q)

theorem indicesOf_of_check {s : Sheet} {q : Query} (h : q.check = .ok ()) :
    s.indicesOf q = .ok (s.positions q) := by
  rw [indicesOf, h]
  rfl

end Sheet

end Stylesheet
