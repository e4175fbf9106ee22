import Stylesheet.Proofs.Cutter.Agreement
import Stylesheet.Proofs.Opening

/-!
This module contains why a cutter never fails. A state keeps only places of delimiters that are read
already, and these are in order; so the cutter that goes along with it takes each part of the text
from an earlier place up to a later one, and has no two flags set that exclude each other.
-/

namespace Stylesheet

namespace State

/--
Whether the positions of a state are places of the delimiters `seen` that are read so far, and an
opener is there whenever anything is open.
-/
structure Anchored (s : State) (seen : List Delimiter) : Prop where
  taken : s.taken = 0 ∨ ∃ d ∈ seen, s.taken = d.byteOffset ∨ s.taken = d.stop
  comment : ∀ n, s.reading = .comment n → ∃ d ∈ seen, d.mark = .commentOpen ∧ d.byteOffset = n
  atRule : ∀ n, s.scope = .atRule n → ∃ d ∈ seen, d.mark = .atSign ∧ d.byteOffset = n
  opener : s.constructs ≠ [] → s.opener.isSome

variable {s : State} {t : Text} {seen : List Delimiter} {d : Delimiter}

theorem anchored_start : start.Anchored [] := by
  constructor <;> simp [start, constructs, Reading.construct?, Scope.construct?]

theorem Anchored.append (h : s.Anchored seen) (ds : List Delimiter) : s.Anchored (seen ++ ds) := by
  constructor
  . rcases h.taken with h | ⟨d, hd, h⟩
    . exact .inl h
    . exact .inr ⟨d, List.mem_append_left _ hd, h⟩
  . intro n hn
    rcases h.comment n hn with ⟨d, hd, h⟩
    exact ⟨d, List.mem_append_left _ hd, h⟩
  . intro n hn
    rcases h.atRule n hn with ⟨d, hd, h⟩
    exact ⟨d, List.mem_append_left _ hd, h⟩
  . exact h.opener

/--
A step goes on from where the text was collected before, or from one end of the delimiter.
-/
theorem taken_step (s : State) (t : Text) (d : Delimiter) :
    (s.step t d).1.taken = s.taken ∨ (s.step t d).1.taken = d.byteOffset ∨
      (s.step t d).1.taken = d.stop := by
  unfold State.step stepCode
  repeat' split
  all_goals simp [flush, close]

theorem reading_of_step {n : Nat} (h : (s.step t d).1.reading = .comment n) :
    s.reading = .comment n ∨ d.mark = .commentOpen ∧ d.byteOffset = n := by
  revert h
  unfold State.step stepCode
  repeat' split
  all_goals simp_all [close]

theorem scope_of_step {n : Nat} (h : (s.step t d).1.scope = .atRule n) :
    s.scope = .atRule n ∨ d.mark = .atSign ∧ d.byteOffset = n := by
  revert h
  unfold State.step stepCode
  repeat' split
  all_goals simp_all [flush, close]

theorem constructs_of_step (h : (s.step t d).1.constructs ≠ []) :
    (s.step t d).1.opener = some d ∨
      s.constructs ≠ [] ∧ (s.step t d).1.opener = s.opener := by
  revert h
  unfold State.step stepCode
  repeat' split
  all_goals simp_all [flush, close, constructs, Reading.construct?, Scope.construct?]

theorem Anchored.step (h : s.Anchored seen) (t : Text) (d : Delimiter) :
    (s.step t d).1.Anchored (seen ++ [d]) := by
  have hd : d ∈ seen ++ [d] := List.mem_append_right _ (List.mem_singleton_self d)
  have hseen := h.append [d]
  constructor
  . rcases taken_step s t d with htaken | htaken
    . rw [htaken]
      exact hseen.taken
    . exact .inr ⟨d, hd, htaken⟩
  . intro n hn
    rcases reading_of_step hn with hr | hnew
    . exact hseen.comment n hr
    . exact ⟨d, hd, hnew⟩
  . intro n hn
    rcases scope_of_step hn with hscope | hnew
    . exact hseen.atRule n hscope
    . exact ⟨d, hd, hnew⟩
  . intro hopen
    rcases constructs_of_step hopen with hnew | ⟨hbefore, hsame⟩
    . rw [hnew]
      rfl
    . rw [hsame]
      exact hseen.opener hbefore

theorem Anchored.run (h : s.Anchored seen) (t : Text) (ds : List Delimiter) :
    (s.run t ds).1.Anchored (seen ++ ds) := by
  induction ds generalizing s seen with
  | nil => rwa [List.append_nil]
  | cons d ds ih =>
    rw [run_cons, List.append_cons]
    exact ih (h.step t d)

theorem Anchored.within (h : s.Anchored seen) (hseen : seen <+: Delimiter.scan t) {n : Nat}
    (hn : ∀ d ∈ seen, d.stop ≤ n) : s.Within t n := by
  have hplace : ∀ d ∈ seen, t.IsBoundary d.byteOffset ∧ d.byteOffset ≤ n := by
    intro d hd
    have hlt := d.byteOffset_lt_stop
    have hle := hn d hd
    exact ⟨Delimiter.isBoundary_of_mem_scan (hseen.subset hd), by omega⟩
  constructor
  . rcases h.taken with h | ⟨d, hd, h | h⟩
    . rw [h]
      exact ⟨Text.isBoundary_zero t, Nat.zero_le n⟩
    . rw [h]
      exact hplace d hd
    . rw [h]
      exact ⟨Delimiter.isBoundary_stop_of_mem_scan (hseen.subset hd), hn d hd⟩
  . intro k hk
    rcases h.comment k hk with ⟨d, hd, -, rfl⟩
    exact hplace d hd
  . intro k hk
    rcases h.atRule k hk with ⟨d, hd, -, rfl⟩
    exact hplace d hd

end State

namespace Cutter

variable {c : Cutter} {s : State} {t : Text} {seen : List Delimiter} {d : Delimiter}

/--
The cutter reads on without failing, up to any delimiter of the text.
-/
theorem Shows.run? (h : c.Shows s) (hs : s.Anchored seen) {ds : List Delimiter}
    (hds : seen ++ ds <+: Delimiter.scan t) :
    ∃ c', c.run? t ds = some (c', (s.run t ds).2) ∧ c'.Shows (s.run t ds).1 := by
  induction ds generalizing c s seen with
  | nil => exact ⟨c, rfl, h⟩
  | cons d ds ih =>
    rw [List.append_cons] at hds
    have hd := (List.prefix_append (seen ++ [d]) ds).trans hds
    have hwithin := hs.within ((List.prefix_append seen [d]).trans hd)
      (Delimiter.stop_le_of_concat hd)
    rcases h.stepsAlike hwithin (Delimiter.mem_scan_of_concat hd) with ⟨c', hstep, h'⟩
    rcases ih h' (hs.step t d) hds with ⟨c'', hrun, h''⟩
    refine ⟨c'', ?_, h''⟩
    simp [Cutter.run?, hstep, hrun, State.run_cons]

/--
What is true of a cutter after the delimiters `seen`: no two flags are set that exclude each other,
and what belongs to a flag is there while it is set.
-/
structure IsValid (c : Cutter) (seen : List Delimiter) : Prop where
  reading : ¬(c.inComment ∧ c.inString)
  scope : ¬(c.inRuleset ∧ c.inAtRule)
  selectors : ¬c.inRuleset → c.selectors = []
  opener : c.inComment ∨ c.inString ∨ c.inRuleset ∨ c.inAtRule → c.opener.isSome
  taken : c.taken ≤ Delimiter.lastStop seen
  comment : c.inComment → ∃ d ∈ seen, d.mark = .commentOpen ∧ d.byteOffset = c.commentStart
  atRule : c.inAtRule → ∃ d ∈ seen, d.mark = .atSign ∧ d.byteOffset = c.atRuleStart

theorem Shows.isValid (h : c.Shows s) (hs : s.Anchored seen) (hseen : seen <+: Delimiter.scan t) :
    c.IsValid seen := by
  have hreads := h.reading
  have hholds := h.scope
  constructor
  . cases hr : s.reading <;> simp_all [Reads]
  . cases hscope : s.scope <;> simp_all [Holds]
  . cases hscope : s.scope <;> simp_all [Holds]
  . intro hflag
    rw [h.opener]
    apply hs.opener
    cases hr : s.reading <;> cases hscope : s.scope <;>
      simp_all [Reads, Holds, State.constructs, Reading.construct?, Scope.construct?]
  . rw [h.taken]
    exact (hs.within hseen (Delimiter.stop_le_lastStop hseen)).taken.2
  . intro hcomment
    rcases h.inComment_iff.1 hcomment with ⟨n, hr⟩
    rw [h.commentStart_eq hr]
    exact hs.comment n hr
  . intro hatRule
    rcases h.inAtRule_iff.1 hatRule with ⟨n, hscope⟩
    rw [h.atRuleStart_eq hscope]
    exact hs.atRule n hscope

/--
The text of a comment has both of its marks apart.
-/
theorem Shows.exists_step?_of_close (h : c.Shows s) (hs : s.Anchored seen)
    (hd : seen ++ [d] <+: Delimiter.scan t) (hcomment : c.inComment) (hm : d.mark = .commentClose) :
    ∃ c' u, c.step? t d = some (c', some (.text u)) ∧ 4 ≤ u.byteSize := by
  have hseen := (List.prefix_append seen [d]).trans hd
  have hmem := Delimiter.mem_scan_of_concat hd
  rcases (h.isValid hs hseen).comment hcomment with ⟨o, ho, hopen, hstart⟩
  have hoffset := Delimiter.isBoundary_of_mem_scan (hseen.subset ho)
  have hle := Delimiter.stop_le_of_concat hd o ho
  rw [hstart] at hoffset
  have hwidth : c.commentStart + 4 ≤ d.stop := by
    simp only [Delimiter.stop, hopen, hm, Mark.width] at hle ⊢
    omega
  have hslice := Delimiter.slice?_stop hmem
    ⟨hoffset, hstart ▸ Nat.le_trans (Nat.le_of_lt o.byteOffset_lt_stop) hle⟩
  refine ⟨{ c with inComment := false, taken := d.stop }, t.slice c.commentStart d.stop, ?_, ?_⟩
  . simp [step?, hm, hcomment, hslice]
  . rw [hoffset.byteSize_slice (Delimiter.isBoundary_stop_of_mem_scan hmem)]
    all_goals omega

theorem exists_run?_start (hseen : seen <+: Delimiter.scan t) :
    ∃ c, start.run? t seen = some (c, (State.start.run t seen).2) ∧
      c.Shows (State.start.run t seen).1 :=
  shows_start.run? State.anchored_start hseen

/--
A cutter cuts every text, and into the records that the text has. It is valid after any first part
of the delimiters, can collect the text up to the next one without going back, and a comment that
ends there has at least four bytes.
-/
theorem ofText?_eq_some (t : Text) :
    ofText? t = some (Record.ofText t, Notice.ofEnd t) ∧
      ∀ seen, seen <+: Delimiter.scan t →
        ∃ c records, start.run? t seen = some (c, records) ∧ c.IsValid seen ∧
          ∀ d, seen ++ [d] <+: Delimiter.scan t →
            (∃ c', c.flush? t d.byteOffset = some c' ∧ c.taken ≤ c'.taken) ∧
            (c.inComment → d.mark = .commentClose →
              ∃ c' u, c.step? t d = some (c', some (.text u)) ∧ 4 ≤ u.byteSize) := by
  constructor
  . rcases exists_run?_start (List.prefix_refl (Delimiter.scan t)) with ⟨c, hrun, h⟩
    have hend : c.unterminated? = Notice.ofEnd t := h.unterminated?_eq
    simp only [ofText?, hrun, Option.map_some, hend, Record.ofText]
  . intro seen hseen
    rcases exists_run?_start hseen with ⟨c, hrun, h⟩
    have hs := State.anchored_start.run t seen
    refine ⟨c, _, hrun, h.isValid hs hseen, ?_⟩
    intro d hd
    refine ⟨?_, h.exists_step?_of_close hs hd⟩
    have htaken := (hs.within hseen (Delimiter.stop_le_of_concat hd)).taken
    have hoffset := Delimiter.isBoundary_of_mem_scan (Delimiter.mem_scan_of_concat hd)
    rcases h.flush? htaken hoffset with ⟨c', hflush, h'⟩
    refine ⟨c', hflush, ?_⟩
    rw [h.taken, h'.taken]
    exact htaken.2

/--
A comment after a wide character is cut between code points.
-/
theorem ofText?_eq_some_comment :
    [⟨.commentOpen, 2, 1⟩, ⟨.commentClose, 4, 3⟩] <+: Delimiter.scan "é/**/".toList ∧
      ∃ c records, start.run? "é/**/".toList [⟨.commentOpen, 2, 1⟩] = some (c, records) ∧
        c.IsValid [⟨.commentOpen, 2, 1⟩] ∧ c.inComment ∧
        ∃ c' u, c.step? "é/**/".toList ⟨.commentClose, 4, 3⟩ = some (c', some (.text u)) ∧
          4 ≤ u.byteSize := by
  have hseen : [⟨.commentOpen, 2, 1⟩] <+: Delimiter.scan "é/**/".toList := by
    decide
  have hd : [⟨.commentOpen, 2, 1⟩, ⟨.commentClose, 4, 3⟩] <+: Delimiter.scan "é/**/".toList := by
    decide
  have hopen : (start.run? "é/**/".toList [⟨.commentOpen, 2, 1⟩]).map (·.1.inComment) =
      some true := by
    decide
  rcases (ofText?_eq_some _).2 _ hseen with ⟨c, records, hrun, hvalid, hnext⟩
  rw [hrun, Option.map_some, Option.some.injEq] at hopen
  exact ⟨hd, c, records, hrun, hvalid, hopen, (hnext _ hd).2 hopen rfl⟩

end Cutter

end Stylesheet
