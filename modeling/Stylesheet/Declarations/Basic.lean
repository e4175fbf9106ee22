import Stylesheet.Text.Basic

/-!
This module contains the declarations of a ruleset: names with their values, in the order in which
the names were first declared. A name that is declared again gets a new value at its old place.
-/

namespace Stylesheet

structure Declarations where
  entries : List (Text × Text)
  nodup_names : (entries.map Prod.fst).Nodup
deriving DecidableEq, Repr

namespace Declarations

def empty : Declarations :=
  ⟨[], List.nodup_nil⟩

def names (d : Declarations) : List Text :=
  d.entries.map Prod.fst

def get? (d : Declarations) (name : Text) : Option Text :=
  d.entries.lookup name

/--
Replaces the value of `name`, or adds it at the end.
-/
def insertEntry (name value : Text) : List (Text × Text) → List (Text × Text)
  | [] => [(name, value)]
  | entry :: entries =>
    if entry.1 = name then
      (name, value) :: entries
    else
      entry :: insertEntry name value entries

theorem map_fst_insertEntry (name value : Text) (entries : List (Text × Text)) :
    (insertEntry name value entries).map Prod.fst =
      if name ∈ entries.map Prod.fst then
        entries.map Prod.fst
      else
        entries.map Prod.fst ++ [name] := by
  induction entries with
  | nil => rfl
  | cons entry entries ih =>
    by_cases h : entry.1 = name
    . simp [insertEntry, h]
    . simp only [insertEntry, h, ↓reduceIte, List.map_cons, ih, List.mem_cons, Ne.symm h,
        false_or]
      split <;> rfl

theorem nodup_insertEntry (name value : Text) {entries : List (Text × Text)}
    (h : (entries.map Prod.fst).Nodup) :
    ((insertEntry name value entries).map Prod.fst).Nodup := by
  rw [map_fst_insertEntry]
  split
  . exact h
  . next hmem =>
    rw [List.nodup_append]
    simp only [h, true_and]
    refine ⟨by simp, ?_⟩
    rintro a ha b hb rfl
    simp at hb
    exact hmem (hb ▸ ha)

def insert (d : Declarations) (name value : Text) : Declarations :=
  ⟨insertEntry name value d.entries, nodup_insertEntry name value d.nodup_names⟩

/--
Declares the pairs of a list one after the other.
-/
def insertAll (d : Declarations) (pairs : List (Text × Text)) : Declarations :=
  pairs.foldl (fun d pair => d.insert pair.1 pair.2) d

def ofList (pairs : List (Text × Text)) : Declarations :=
  empty.insertAll pairs

/--
Whether two collections declare the same names with the same values, in whatever order.
-/
def agrees (d e : Declarations) : Bool :=
  d.entries.length == e.entries.length && d.entries.all fun entry => e.get? entry.1 == some entry.2

@[ext]
theorem ext {d e : Declarations} (h : d.entries = e.entries) : d = e := by
  cases d
  cases e
  simpa using h

theorem insertAll_append (d : Declarations) (ps qs : List (Text × Text)) :
    d.insertAll (ps ++ qs) = (d.insertAll ps).insertAll qs :=
  List.foldl_append

theorem lookup_insertEntry (name value other : Text) (entries : List (Text × Text)) :
    (insertEntry name value entries).lookup other =
      if other = name then some value else entries.lookup other := by
  induction entries with
  | nil => by_cases h : other = name <;> grind [insertEntry]
  | cons entry entries ih =>
    simp only [insertEntry]
    by_cases h : entry.1 = name <;> by_cases h' : other = entry.1 <;> grind

theorem get?_insert (d : Declarations) (name value other : Text) :
    (d.insert name value).get? other = if other = name then some value else d.get? other :=
  lookup_insertEntry name value other d.entries

end Declarations

end Stylesheet
