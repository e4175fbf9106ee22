import Stylesheet.Text.Basic

/-!
This module contains the faults of a request to a sheet. Reading a text has none: what cannot be
read is left out.
-/

namespace Stylesheet

/--
The arguments that a query does not take blank.
-/
inductive Argument where
  | mediaType
  | id
  | className
  | tagName
  | name
deriving DecidableEq, Repr

def Argument.label : Argument → Text
  | mediaType => "media type".toList
  | id => "id".toList
  | className => "class".toList
  | tagName => "tag name".toList
  | name => "name".toList

inductive Fault where
  | emptySelectorList
  | emptyArgument (argument : Argument)
  | indexOutOfRange (index length : Nat)
  | notARuleset (index : Nat)
deriving DecidableEq, Repr

namespace Fault

def message : Fault → Text
  | emptySelectorList => "a ruleset needs at least one selector".toList
  | emptyArgument argument => argument.label ++ " must not be empty".toList
  | indexOutOfRange index length =>
    "block index ".toList ++ Nat.toDigits 10 index ++
      " is out of range for a stylesheet of ".toList ++ Nat.toDigits 10 length ++ " blocks".toList
  | notARuleset index => "block ".toList ++ Nat.toDigits 10 index ++ " is not a ruleset".toList

end Fault

end Stylesheet
