import Stylesheet.Proofs.Delimiter.CodePoint
import Stylesheet.Proofs.Text.Position
import Stylesheet.Record.OfText

/-!
This module contains the constructs of a text with the delimiters that open them. The ones that are
open at the end of the text are told apart by a stack; the notice about the end names the innermost
of them, but the place in it is that of the last delimiter that opened any construct.
-/

namespace Stylesheet

namespace Construct

/--
Whether a mark ends a construct in which nothing else is open. A ruleset ends also where another one
starts in its place.
-/
def endsAt : Construct → Mark → Bool
  | comment, m => m = .commentClose
  | string, m => m = .quote
  | ruleset, m => m = .braceClose ∨ m = .braceOpen
  | atRule, m => m = .semicolon ∨ m = .braceOpen

/--
What a mark opens, by the innermost construct around it. The block of an at-rule is no construct.
-/
def opened? : Option Construct → Mark → Option Construct
  | some comment, _ => none
  | some string, _ => none
  | _, .commentOpen => some comment
  | _, .quote => some string
  | some atRule, .braceOpen => none
  | _, .braceOpen => some ruleset
  | none, .atSign => some atRule
  | _, _ => none

end Construct

/--
A construct with the delimiter that opens it.
-/
structure Opening where
  construct : Construct
  delimiter : Delimiter
deriving DecidableEq, Repr

namespace Opening

/--
What a mark leaves open of a stack; it ends the innermost construct or none.
-/
def leave (m : Mark) (stack : List Opening) : List Opening :=
  if (stack.head?.map construct).any (·.endsAt m) then stack.tail else stack

/--
What is open after a delimiter, the innermost construct first, and what the delimiter opens. A quote
that is escaped does nothing.
-/
def step (t : Text) (stack : List Opening) (d : Delimiter) : List Opening × Option Opening :=
  if d.mark = .quote ∧ t.escapedAt d.byteOffset then
    (stack, none)
  else
    match Construct.opened? (stack.head?.map construct) d.mark with
    | some c => (⟨c, d⟩ :: leave d.mark stack, some ⟨c, d⟩)
    | none => (leave d.mark stack, none)

/--
Takes the delimiters one after the other and lists all openings in order.
-/
def run (t : Text) : List Opening → List Delimiter → List Opening × List Opening
  | stack, [] => (stack, [])
  | stack, d :: ds =>
    let (stack, opening?) := step t stack d
    let (stack, openings) := run t stack ds
    (stack, opening?.toList ++ openings)

/--
The constructs that are still open at the end of a text, the innermost one first.
-/
def unclosed (t : Text) : List Opening :=
  (run t [] (Delimiter.scan t)).1

/--
All constructs of a text in the order in which they are opened.
-/
def list (t : Text) : List Opening :=
  (run t [] (Delimiter.scan t)).2

theorem run_cons (t : Text) (stack : List Opening) (d : Delimiter) (ds : List Delimiter) :
    run t stack (d :: ds) =
      ((run t (step t stack d).1 ds).1,
        (step t stack d).2.toList ++ (run t (step t stack d).1 ds).2) := rfl

variable {t : Text} {stack : List Opening}

theorem map_construct_leave (m : Mark) (stack : List Opening) :
    (leave m stack).map construct =
      if (stack.head?.map construct).any (·.endsAt m) then (stack.map construct).tail
      else stack.map construct := by
  unfold leave
  split
  . rw [List.map_tail]
  . rfl

theorem delimiter_of_mem_step {d : Delimiter} {o : Opening} (h : o ∈ (step t stack d).2) :
    o.delimiter = d := by
  unfold step at h
  split at h
  . cases h
  split at h
  . cases h
    rfl
  . cases h

theorem mem_of_mem_leave {m : Mark} {o : Opening} (h : o ∈ leave m stack) : o ∈ stack := by
  unfold leave at h
  split at h
  . exact List.mem_of_mem_tail h
  . exact h

theorem mem_of_mem_step {d : Delimiter} {o : Opening} (h : o ∈ (step t stack d).1) :
    o ∈ (step t stack d).2 ∨ o ∈ stack := by
  revert h
  unfold step
  split
  . exact .inr
  split
  . intro h
    rcases List.mem_cons.1 h with rfl | h
    . exact .inl rfl
    . exact .inr (mem_of_mem_leave h)
  . exact fun h => .inr (mem_of_mem_leave h)

theorem mem_of_mem_run {ds : List Delimiter} {o : Opening} (h : o ∈ (run t stack ds).1) :
    o ∈ (run t stack ds).2 ∨ o ∈ stack := by
  induction ds generalizing stack with
  | nil => exact .inr h
  | cons d ds ih =>
    rw [run_cons] at h ⊢
    rcases ih h with h | h
    . exact .inl (List.mem_append_right _ h)
    . rcases mem_of_mem_step h with h | h
      . exact .inl (List.mem_append_left _ (Option.mem_toList.2 h))
      . exact .inr h

theorem map_delimiter_run_sublist (ds : List Delimiter) :
    ((run t stack ds).2.map delimiter).Sublist ds := by
  induction ds generalizing stack with
  | nil => exact .slnil
  | cons d ds ih =>
    rw [run_cons, List.map_append]
    cases hopening : (step t stack d).2 with
    | none => exact ih.cons d
    | some o =>
      rw [← delimiter_of_mem_step hopening]
      exact ih.cons_cons o.delimiter

theorem mem_list_of_mem_unclosed {o : Opening} (h : o ∈ unclosed t) : o ∈ list t := by
  rcases mem_of_mem_run h with h | h
  . exact h
  . cases h

theorem delimiter_mem_scan {o : Opening} (h : o ∈ list t) : o.delimiter ∈ Delimiter.scan t :=
  (map_delimiter_run_sublist _).subset (List.mem_map_of_mem h)

theorem pairwise_list (t : Text) :
    (list t).Pairwise (·.delimiter.byteOffset < ·.delimiter.byteOffset) := by
  have hsublist : ((list t).map delimiter).Sublist (Delimiter.scan t) :=
    map_delimiter_run_sublist _
  have h := (Delimiter.pairwise_scan t).sublist hsublist
  rwa [List.pairwise_map] at h

theorem le_of_getLast? {last : Opening} (h : (list t).getLast? = some last) :
    ∀ o ∈ list t, o.delimiter.byteOffset ≤ last.delimiter.byteOffset := by
  rcases List.getLast?_eq_some_iff.1 h with ⟨openings, hlist⟩
  have hpairwise := pairwise_list t
  rw [hlist, List.pairwise_append] at hpairwise
  intro o ho
  rw [hlist, List.mem_append, List.mem_singleton] at ho
  rcases ho with ho | rfl
  . exact Nat.le_of_lt (hpairwise.2.2 o ho last (List.mem_singleton_self last))
  . exact Nat.le_refl _

end Opening

def Reading.construct? : Reading → Option Construct
  | code => none
  | string => some .string
  | comment _ => some .comment

def Scope.construct? : Scope → Option Construct
  | outer => none
  | atRule _ => some .atRule
  | ruleset _ => some .ruleset

namespace State

/--
The constructs that are open in a state, the innermost one first.
-/
def constructs (s : State) : List Construct :=
  s.reading.construct?.toList ++ s.scope.construct?.toList

theorem innermost?_eq_head? (s : State) : s.innermost? = s.constructs.head? := by
  cases hr : s.reading <;> cases hs : s.scope <;>
    simp [innermost?, constructs, hr, hs, Reading.construct?, Scope.construct?]

theorem find?_constructs (s : State) :
    [Construct.comment, .string, .ruleset, .atRule].find? (· ∈ s.constructs) = s.innermost? := by
  rcases s with ⟨reading, scope, -, -, -⟩
  cases reading <;> cases scope <;> rfl

section Step

variable {s : State} {t : Text} {d : Delimiter}

theorem step_of_escaped (h : d.mark = .quote ∧ t.escapedAt d.byteOffset) :
    (s.step t d).1 = s := by
  cases hr : s.reading <;> simp [step, stepCode, hr, h]

/--
All that a step does to the constructs of a state, and to the delimiter that it keeps. A comment or a
string that is open afterwards is opened by the step, or was open before it.
-/
theorem step_of_not_escaped (h : ¬(d.mark = .quote ∧ t.escapedAt d.byteOffset)) :
    (s.step t d).1.constructs =
        (Construct.opened? s.innermost? d.mark).toList ++
          (if s.innermost?.any (·.endsAt d.mark) then s.constructs.tail else s.constructs) ∧
      (s.step t d).1.opener =
        (if (Construct.opened? s.innermost? d.mark).isSome then some d else s.opener) ∧
      ((s.step t d).1.reading ≠ .code → (Construct.opened? s.innermost? d.mark).isSome ∨
        s.reading ≠ .code ∧ s.innermost?.any (·.endsAt d.mark) = false) := by
  rcases s with ⟨reading, scope, buffer, taken, opener⟩
  rcases d with ⟨m, n, k⟩
  cases reading with
  | comment start =>
    cases m
    all_goals
      simp [step, innermost?, constructs, Reading.construct?, Construct.opened?, Construct.endsAt]
  | string =>
    cases m
    all_goals
      simp_all [step, innermost?, constructs, Reading.construct?, Construct.opened?,
        Construct.endsAt]
  | code =>
    cases scope
    all_goals
      cases m
      all_goals
        simp_all [step, stepCode, close, flush, innermost?, constructs, Reading.construct?,
          Scope.construct?, Construct.opened?, Construct.endsAt]

end Step

/--
Whether the constructs of a state are those of a stack, where `last?` is the last opening. A comment
or a string is the last to be opened while it is open.
-/
structure Follows (s : State) (stack : List Opening) (last? : Option Opening) : Prop where
  constructs_eq : s.constructs = stack.map Opening.construct
  opener_eq : s.opener = last?.map Opening.delimiter
  head?_eq : s.reading ≠ .code → stack.head? = last?

theorem follows_start : start.Follows [] none := by
  constructor
  . rfl
  . rfl
  . intro
    rfl

section Run

variable {s : State} {stack : List Opening} {last? : Option Opening}

theorem Follows.innermost?_eq (h : s.Follows stack last?) :
    s.innermost? = stack.head?.map Opening.construct := by
  rw [innermost?_eq_head?, h.constructs_eq, List.head?_map]

theorem Follows.step (h : s.Follows stack last?) (t : Text) (d : Delimiter) :
    (s.step t d).1.Follows (Opening.step t stack d).1 ((Opening.step t stack d).2.or last?) := by
  unfold Opening.step
  split
  . next hescaped =>
    rw [step_of_escaped hescaped]
    exact h
  . next hescaped =>
    rcases step_of_not_escaped (s := s) hescaped with ⟨hconstructs, hopener, hreading⟩
    rw [h.innermost?_eq] at hconstructs hopener hreading
    rw [h.constructs_eq, ← Opening.map_construct_leave] at hconstructs
    split
    . next c hopened =>
      rw [hopened] at hconstructs hopener
      exact ⟨hconstructs, hopener, fun _ => rfl⟩
    . next hopened =>
      rw [hopened] at hconstructs hopener hreading
      refine ⟨hconstructs, hopener.trans h.opener_eq, fun hr => ?_⟩
      rcases hreading hr with hsome | ⟨hs, hends⟩
      . cases hsome
      . simpa [Opening.leave, hends] using h.head?_eq hs

theorem Follows.run (h : s.Follows stack last?) (t : Text) (ds : List Delimiter) :
    (s.run t ds).1.Follows (Opening.run t stack ds).1
      ((Opening.run t stack ds).2.getLast?.or last?) := by
  induction ds generalizing s stack last? with
  | nil => exact h
  | cons d ds ih =>
    have := ih (h.step t d)
    rw [run_cons, Opening.run_cons, List.getLast?_append, Option.or_assoc]
    cases hopening : (Opening.step t stack d).2 <;> simpa [hopening] using this

end Run

theorem follows_ofText (t : Text) :
    (ofText t).Follows (Opening.unclosed t) (Opening.list t).getLast? := by
  have h := follows_start.run t (Delimiter.scan t)
  rwa [Option.or_none] at h

end State

/--
The number of code points before the delimiter that opens a construct.
-/
def Opening.place (t : Text) (o : Opening) : Nat :=
  (t.takeBytes o.delimiter.byteOffset).length

namespace Opening

variable {t : Text} {o : Opening}

theorem charOffset_eq_place (h : o ∈ list t) : o.delimiter.charOffset = o.place t :=
  Delimiter.charOffset_of_mem_scan (delimiter_mem_scan h)

theorem byteOffset_eq_of_place_eq {o' : Opening} (ho : o ∈ list t) (ho' : o' ∈ list t)
    (h : o.place t = o'.place t) : o.delimiter.byteOffset = o'.delimiter.byteOffset := by
  have hb := Delimiter.isBoundary_of_mem_scan (delimiter_mem_scan ho)
  have hb' := Delimiter.isBoundary_of_mem_scan (delimiter_mem_scan ho')
  rcases Nat.lt_trichotomy o.delimiter.byteOffset o'.delimiter.byteOffset with hlt | heq | hgt
  . exact absurd h (Nat.ne_of_lt (hb.length_takeBytes_lt hb' hlt))
  . exact heq
  . exact absurd h.symm (Nat.ne_of_lt (hb'.length_takeBytes_lt hb hgt))

end Opening

namespace Notice

variable {t : Text} {o : Opening}

theorem ofEnd_of_unclosed_eq_nil (h : Opening.unclosed t = []) : ofEnd t = none := by
  have hfollows := State.follows_ofText t
  rw [ofEnd, State.unterminated?, hfollows.innermost?_eq, h]
  rfl

theorem exists_ofEnd_eq (h : (Opening.unclosed t).head? = some o) :
    ∃ last, (Opening.list t).getLast? = some last ∧
      ofEnd t = some (.unterminated o.construct (last.place t)) := by
  have hfollows := State.follows_ofText t
  have ho := Opening.mem_list_of_mem_unclosed (List.mem_of_head? h)
  cases hlast : (Opening.list t).getLast? with
  | none =>
    rw [List.getLast?_eq_none_iff] at hlast
    rw [hlast] at ho
    cases ho
  | some last =>
    refine ⟨last, rfl, ?_⟩
    rw [ofEnd, State.unterminated?, hfollows.innermost?_eq, hfollows.opener_eq, h, hlast,
      ← Opening.charOffset_eq_place (List.mem_of_getLast? hlast)]
    rfl

theorem getLast?_of_innermost (h : (Opening.unclosed t).head? = some o)
    (ho : o.construct = .comment ∨ o.construct = .string) : (Opening.list t).getLast? = some o := by
  have hfollows := State.follows_ofText t
  rw [← hfollows.head?_eq, h]
  intro hr
  have hinner := hfollows.innermost?_eq
  rw [h, State.innermost?_eq_head?, State.constructs, hr] at hinner
  cases hs : (State.ofText t).scope <;>
    simp [hs, Reading.construct?, Scope.construct?] at hinner <;> simp [← hinner] at ho

/--
There is a notice about the end of a text if and only if a construct is open there, and it names the
innermost one. The place in the notice is that of the last delimiter that opened anything, so that it
is the place where this construct starts if and only if nothing was opened inside of it. Nothing is
ever opened inside of a comment or a string.
-/
theorem ofEnd_eq_iff (t : Text) :
    (ofEnd t = none ↔ Opening.unclosed t = []) ∧
      ∀ o, (Opening.unclosed t).head? = some o →
        [Construct.comment, .string, .ruleset, .atRule].find?
            (· ∈ (Opening.unclosed t).map Opening.construct) = some o.construct ∧
          (∃ last ∈ Opening.list t,
            (∀ o' ∈ Opening.list t, o'.delimiter.byteOffset ≤ last.delimiter.byteOffset) ∧
              ofEnd t = some (.unterminated o.construct (last.place t))) ∧
          (ofEnd t = some (.unterminated o.construct (o.place t)) ↔
            ∀ o' ∈ Opening.list t, o'.delimiter.byteOffset ≤ o.delimiter.byteOffset) ∧
          (o.construct = .comment ∨ o.construct = .string →
            ofEnd t = some (.unterminated o.construct (o.place t))) := by
  refine ⟨⟨?_, ofEnd_of_unclosed_eq_nil⟩, ?_⟩
  . intro hnone
    cases hunclosed : Opening.unclosed t with
    | nil => rfl
    | cons o stack =>
      rcases exists_ofEnd_eq (t := t) (o := o) (by rw [hunclosed, List.head?_cons]) with
        ⟨last, -, hend⟩
      rw [hnone] at hend
      cases hend
  . intro o ho
    have hfollows := State.follows_ofText t
    have hmem := Opening.mem_list_of_mem_unclosed (List.mem_of_head? ho)
    rcases exists_ofEnd_eq ho with ⟨last, hlast, hend⟩
    have hle := Opening.le_of_getLast? hlast
    have hlastMem := List.mem_of_getLast? hlast
    refine ⟨?_, ⟨last, hlastMem, hle, hend⟩, ⟨?_, ?_⟩, ?_⟩
    . rw [← hfollows.constructs_eq, State.find?_constructs, hfollows.innermost?_eq, ho]
      rfl
    . intro hplace
      rw [hend, Option.some.injEq, unterminated.injEq] at hplace
      rw [← Opening.byteOffset_eq_of_place_eq hlastMem hmem hplace.2]
      exact hle
    . intro hmax
      have hsame := Nat.le_antisymm (hmax last hlastMem) (hle o hmem)
      rw [hend, Opening.place, hsame]
      rfl
    . intro hinner
      rw [getLast?_of_innermost ho hinner, Option.some.injEq] at hlast
      rw [hend, hlast]

/--
A string in a ruleset, after a comment and a wide character.
-/
theorem ofEnd_string :
    (Opening.unclosed "é\x7b/*→*/\"".toList).head? = some ⟨.string, ⟨.quote, 10, 7⟩⟩ ∧
      ofEnd "é\x7b/*→*/\"".toList = some (.unterminated .string 7) := by
  have h : (Opening.unclosed "é\x7b/*→*/\"".toList).head? =
      some ⟨.string, ⟨.quote, 10, 7⟩⟩ := by
    decide
  exact ⟨h, ((ofEnd_eq_iff _).2 _ h).2.2.2 (.inr rfl)⟩

/--
The ruleset that is open at the end starts at its brace, but the notice names the place of the
string in it, which is complete.
-/
theorem ofEnd_ruleset :
    Opening.unclosed "a\x7b\"x\"".toList = [⟨.ruleset, ⟨.braceOpen, 1, 1⟩⟩] ∧
      ofEnd "a\x7b\"x\"".toList = some (.unterminated .ruleset 2) := by
  decide

end Notice

end Stylesheet
