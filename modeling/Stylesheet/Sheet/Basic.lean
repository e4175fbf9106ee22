import Stylesheet.Block.Resolution

/-!
This module contains sheets: the blocks of a style sheet in order. Any text can be read as a sheet;
what of it cannot is left out and noted.
-/

namespace Stylesheet

structure Sheet where
  blocks : List Block
deriving DecidableEq, Repr

namespace Sheet

def empty : Sheet :=
  ⟨[]⟩

/--
The sheet that a text is read as.
-/
def ofText (t : Text) : Sheet :=
  ⟨Block.ofRecords (Record.ofText t)⟩

def length (s : Sheet) : Nat :=
  s.blocks.length

def isEmpty (s : Sheet) : Bool :=
  s.blocks.isEmpty

def block? (s : Sheet) (index : Nat) : Option Block :=
  s.blocks[index]?

/--
The ruleset at a position that is expected to hold one.
-/
def ruleset (s : Sheet) (index : Nat) : Except Fault Ruleset :=
  match s.blocks[index]? with
  | none => .error (.indexOutOfRange index s.length)
  | some (.ruleset r) => .ok r
  | some _ => .error (.notARuleset index)

/--
The rulesets at those of the given positions that hold one.
-/
def rulesets (s : Sheet) (indices : List Nat) : List Ruleset :=
  indices.filterMap fun index => s.blocks[index]?.bind Block.ruleset?

/--
Whether two sheets are equal but for the order of declarations inside their rulesets.
-/
def agrees (s t : Sheet) : Bool :=
  s.length == t.length && (s.blocks.zip t.blocks).all fun pair => pair.1.agrees pair.2

theorem ruleset_eq_ok_iff {s : Sheet} {index : Nat} {r : Ruleset} :
    s.ruleset index = .ok r ↔ s.blocks[index]? = some (.ruleset r) := by
  unfold ruleset
  split <;> simp_all

end Sheet

/--
The notices from reading a text as a sheet.
-/
def Notice.ofText (t : Text) : List Notice :=
  (Notice.ofEnd t).toList ++ Notice.ofRecords (Record.ofText t)

end Stylesheet
