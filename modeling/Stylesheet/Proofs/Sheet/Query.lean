import Stylesheet.Proofs.Sheet.Basic
import Stylesheet.Sheet.Query

/-!
This module contains what queries are about. A query holds for rulesets by what is inside their
selectors, at any depth, by their media types or by their first selector; it finds the positions of
exactly these rulesets, in order.
-/

namespace Stylesheet

namespace Selector

/--
Whether a selector is another one or stands somewhere inside of it.
-/
inductive Inside (p : Selector) : Selector → Prop
  | self : Inside p p
  | pseudo {inner : Selector} (h : Inside p inner) (name : Text) : Inside p (pseudo inner name)
  | left {left : Selector} (h : Inside p left) (combinator : Combinator) (right : Selector) :
      Inside p (joined left combinator right)
  | right {right : Selector} (h : Inside p right) (left : Selector) (combinator : Combinator) :
      Inside p (joined left combinator right)

theorem inside_of_mem_flatten {p s : Selector} (h : p ∈ s.flatten) : Inside p s := by
  induction s with
  | pseudo inner name ih =>
    rw [flatten, List.mem_cons] at h
    rcases h with rfl | h
    . exact .self
    . exact .pseudo (ih h) name
  | joined left combinator right ihleft ihright =>
    rw [flatten, List.mem_cons, List.mem_append] at h
    rcases h with rfl | h | h
    . exact .self
    . exact .left (ihleft h) combinator right
    . exact .right (ihright h) left combinator
  | _ =>
    cases List.mem_singleton.1 h
    exact .self

theorem mem_flatten_iff {p s : Selector} : p ∈ s.flatten ↔ Inside p s := by
  refine ⟨inside_of_mem_flatten, ?_⟩
  intro h
  induction h with
  | self => exact self_mem_flatten p
  | pseudo h name ih => simp [flatten, ih]
  | left h combinator right ih => simp [flatten, ih]
  | right h left combinator ih => simp [flatten, ih]

end Selector

theorem Ruleset.mem_parts_iff {r : Ruleset} {p : Selector} :
    p ∈ r.parts ↔ ∃ s ∈ r.selectors, Selector.Inside p s := by
  simp [parts, Selector.mem_flatten_iff]

namespace Query

/--
Whether a query has no argument that is blank.
-/
def IsValid (q : Query) : Prop :=
  ∀ a ∈ q.argument?, ¬Text.blank a.2

/--
What a query asks of a ruleset.
-/
def Holds : Query → Ruleset → Prop
  | media none, r => r.media = none
  | media (some type), r => ∃ types, r.media = some types ∧ type ∈ types
  | id t, r => ∃ s ∈ r.selectors, ∃ q, Selector.Inside (.byId t q) s
  | className t, r => ∃ s ∈ r.selectors, ∃ q, Selector.Inside (.byClass t q) s
  | tagName t, r => ∃ s ∈ r.selectors, Selector.Inside (.element t) s
  | name t, r => ∃ s, r.selectors.head? = some s ∧ s.render = t

theorem isId_iff {t : Text} {s : Selector} : isId t s ↔ ∃ q, s = .byId t q := by
  cases s <;> simp [isId]

theorem isClass_iff {t : Text} {s : Selector} : isClass t s ↔ ∃ q, s = .byClass t q := by
  cases s <;> simp [isClass]

theorem isElement_iff {t : Text} {s : Selector} : isElement t s ↔ s = .element t := by
  cases s <;> simp [isElement]

theorem any_parts_iff {r : Ruleset} {f : Selector → Bool} :
    r.parts.any f ↔ ∃ s ∈ r.selectors, ∃ p, f p ∧ Selector.Inside p s := by
  rw [List.any_eq_true]
  simp only [Ruleset.mem_parts_iff]
  constructor
  . rintro ⟨p, ⟨s, hs, hp⟩, hf⟩
    exact ⟨s, hs, p, hf, hp⟩
  . rintro ⟨s, hs, p, hf, hp⟩
    exact ⟨p, ⟨s, hs, hp⟩, hf⟩

theorem holds_name_iff {t : Text} {r : Ruleset} : (name t).Holds r ↔ r.name = t := by
  have hfirst : r.selectors.head? = some r.first := List.head?_eq_some_head r.selectors_ne_nil
  simp [Holds, hfirst, Ruleset.name]

theorem selects_iff {q : Query} {r : Ruleset} : q.selects r ↔ q.Holds r := by
  cases q with
  | media type? => cases type? <;> cases h : r.media <;> simp [selects, holdsFor, Holds, h]
  | id t =>
    simp only [selects, Holds, any_parts_iff, isId_iff]
    grind
  | className t =>
    simp only [selects, Holds, any_parts_iff, isClass_iff]
    grind
  | tagName t =>
    simp only [selects, Holds, any_parts_iff, isElement_iff]
    grind
  | name t => simp [selects, holds_name_iff]

theorem check_eq_ok_iff {q : Query} : q.check = .ok () ↔ q.IsValid := by
  unfold check IsValid
  split
  . next argument t h => simp [h]
  . next h => simp [h]

theorem check_of_blank {q : Query} {argument : Argument} {t : Text}
    (h : q.argument? = some (argument, t)) (ht : Text.blank t) :
    q.check = .error (.emptyArgument argument) := by
  simp [check, h, ht]

end Query

namespace Sheet

variable {s : Sheet} {q : Query}

theorem mem_positions_iff {i : Nat} :
    i ∈ s.positions q ↔ ∃ r, s.ruleset i = .ok r ∧ q.Holds r := by
  simp only [ruleset_eq_ok_iff, ← Query.selects_iff, positions, List.mem_filterMap, Prod.exists,
    List.mem_zipIdx_iff_getElem?]
  constructor
  . rintro ⟨b, index, hb, hi⟩
    split at hi
    . next hselects =>
      cases hi
      rw [Option.any_eq_true] at hselects
      rcases hselects with ⟨r, hr, hselects⟩
      rw [Block.ruleset?_eq_some_iff] at hr
      exact ⟨r, by rw [hb, hr], hselects⟩
    . cases hi
  . rintro ⟨r, hr, hselects⟩
    exact ⟨.ruleset r, i, hr, by simp [Block.ruleset?, hselects]⟩

theorem lt_length_of_mem_positions {i : Nat} (h : i ∈ s.positions q) : i < s.length := by
  rcases mem_positions_iff.1 h with ⟨r, hr, -⟩
  rw [ruleset_eq_ok_iff, List.getElem?_eq_some_iff] at hr
  rcases hr with ⟨hlt, -⟩
  exact hlt

theorem pairwise_positions (s : Sheet) (q : Query) : (s.positions q).Pairwise (· < ·) := by
  induction s using add_induction with
  | empty => exact .nil
  | add s b ih =>
    rw [positions_add, List.pairwise_append]
    refine ⟨ih, ?_, ?_⟩
    . split
      . exact List.pairwise_singleton _ _
      . exact .nil
    . intro i hi j hj
      have hlt := lt_length_of_mem_positions hi
      split at hj
      . rwa [List.mem_singleton.1 hj]
      . cases hj

/--
If all of the given positions hold rulesets, then none is skipped.
-/
theorem map_ruleset {indices : List Nat} (h : ∀ i ∈ indices, ∃ r, s.ruleset i = .ok r) :
    indices.map s.ruleset = (s.rulesets indices).map .ok := by
  induction indices with
  | nil => rfl
  | cons i indices ih =>
    rw [List.forall_mem_cons] at h
    rcases h with ⟨⟨r, hr⟩, hrest⟩
    have hblock := ruleset_eq_ok_iff.1 hr
    have hfound : s.rulesets (i :: indices) = r :: s.rulesets indices := by
      simp [rulesets, hblock, Block.ruleset?]
    rw [hfound, List.map_cons, List.map_cons, hr, ih hrest]

theorem rulesetsOf_of_check (h : q.check = .ok ()) :
    s.rulesetsOf q = .ok (s.rulesets (s.positions q)) := by
  rw [rulesetsOf, indicesOf_of_check h]
  rfl

theorem indicesOf_of_check_error {fault : Fault} (h : q.check = .error fault) :
    s.indicesOf q = .error fault ∧ s.rulesetsOf q = .error fault := by
  have hindices : s.indicesOf q = .error fault := by
    rw [indicesOf, h]
    rfl
  refine ⟨hindices, ?_⟩
  rw [rulesetsOf, hindices]
  rfl

/--
A query without a blank argument finds exactly the positions of the rulesets that it holds for, in
increasing order, and the rulesets that it gives are the ones at these positions. A query with a
blank argument is refused for every sheet.
-/
theorem indicesOf_exact (s : Sheet) (q : Query) :
    (q.IsValid → ∃ indices rulesets,
      s.indicesOf q = .ok indices ∧ s.rulesetsOf q = .ok rulesets ∧
        indices.Pairwise (· < ·) ∧
        (∀ i, i ∈ indices ↔ ∃ r, s.ruleset i = .ok r ∧ q.Holds r) ∧
        indices.map s.ruleset = rulesets.map .ok) ∧
      ∀ argument t, q.argument? = some (argument, t) → Text.blank t →
        s.indicesOf q = .error (.emptyArgument argument) ∧
          s.rulesetsOf q = .error (.emptyArgument argument) := by
  constructor
  . intro hvalid
    have hcheck := Query.check_eq_ok_iff.2 hvalid
    refine ⟨s.positions q, s.rulesets (s.positions q), indicesOf_of_check hcheck,
      rulesetsOf_of_check hcheck, pairwise_positions s q, fun i => mem_positions_iff, ?_⟩
    apply map_ruleset
    intro i hi
    rcases mem_positions_iff.1 hi with ⟨r, hr, -⟩
    exact ⟨r, hr⟩
  . intro argument t hargument ht
    exact indicesOf_of_check_error (Query.check_of_blank hargument ht)

theorem indicesOf_exact_nested :
    (Query.className ['x']).IsValid ∧
      (ofText "/**/a>.x:y{}".toList).indicesOf (.className ['x']) = .ok [1] ∧
      ∃ r, (ofText "/**/a>.x:y{}".toList).ruleset 1 = .ok r ∧
        (Query.className ['x']).Holds r := by
  have hvalid : (Query.className ['x']).IsValid := Query.check_eq_ok_iff.1 rfl
  have hfound : (ofText "/**/a>.x:y{}".toList).indicesOf (.className ['x']) = .ok [1] := by
    decide
  rcases (indicesOf_exact (ofText "/**/a>.x:y{}".toList) (.className ['x'])).1 hvalid with
    ⟨indices, rulesets, hindices, -, -, hmem, -⟩
  rw [hfound] at hindices
  cases hindices
  exact ⟨hvalid, hfound, (hmem 1).1 List.mem_cons_self⟩

end Sheet
end Stylesheet
