import Stylesheet.Proofs.Cutter.Basic
import Stylesheet.Proofs.Delimiter

/-!
This module contains the agreement of cutters and states. Where a state keeps only places at which
the text can be cut, the cutter that goes along with it does not fail and completes the same record.
-/

namespace Stylesheet

namespace Delimiter

variable {t : Text} {d : Delimiter} {n : Nat}

theorem slice?_byteOffset (hd : d ∈ scan t) (hn : t.IsBoundary n ∧ n ≤ d.byteOffset) :
    t.slice? n d.byteOffset = some (t.slice n d.byteOffset) :=
  Text.slice?_eq_some hn.1 (isBoundary_of_mem_scan hd) hn.2

theorem slice?_stop (hd : d ∈ scan t) (hn : t.IsBoundary n ∧ n ≤ d.byteOffset) :
    t.slice? n d.stop = some (t.slice n d.stop) :=
  Text.slice?_eq_some hn.1 (isBoundary_stop_of_mem_scan hd)
    (Nat.le_trans hn.2 (Nat.le_of_lt d.byteOffset_lt_stop))

end Delimiter

/--
Whether a state keeps places where the text can be cut, and none of them after position `n`.
-/
structure State.Within (s : State) (t : Text) (n : Nat) : Prop where
  taken : t.IsBoundary s.taken ∧ s.taken ≤ n
  comment : ∀ k, s.reading = .comment k → t.IsBoundary k ∧ k ≤ n
  atRule : ∀ k, s.scope = .atRule k → t.IsBoundary k ∧ k ≤ n

namespace Cutter

/--
Whether a cutter and a state are in the same kind of text.
-/
def Reads (c : Cutter) : Reading → Prop
  | .code => c.inComment = false ∧ c.inString = false
  | .string => c.inComment = false ∧ c.inString = true
  | .comment n => c.inComment = true ∧ c.inString = false ∧ c.commentStart = n

/--
Whether a cutter and a state have the same open besides. Outside of rulesets no selectors are kept.
-/
def Holds (c : Cutter) : Scope → Prop
  | .outer => c.inRuleset = false ∧ c.inAtRule = false ∧ c.selectors = []
  | .atRule n => c.inRuleset = false ∧ c.inAtRule = true ∧ c.atRuleStart = n ∧ c.selectors = []
  | .ruleset selectors => c.inRuleset = true ∧ c.inAtRule = false ∧ c.selectors = selectors

structure Shows (c : Cutter) (s : State) : Prop where
  reading : c.Reads s.reading
  scope : c.Holds s.scope
  buffer : c.buffer = s.buffer
  taken : c.taken = s.taken
  opener : c.opener = s.opener

theorem shows_start : start.Shows .start := by
  constructor <;> simp [start, State.start, Reads, Holds]

variable {c : Cutter} {s : State} {t : Text} {d : Delimiter}

theorem Shows.inComment_iff (h : c.Shows s) : c.inComment ↔ ∃ n, s.reading = .comment n := by
  have := h.reading
  cases hr : s.reading <;> simp_all [Reads]

theorem Shows.inString_iff (h : c.Shows s) : c.inString ↔ s.reading = .string := by
  have := h.reading
  cases hr : s.reading <;> simp_all [Reads]

theorem Shows.inAtRule_iff (h : c.Shows s) : c.inAtRule ↔ ∃ n, s.scope = .atRule n := by
  have := h.scope
  cases hs : s.scope <;> simp_all [Holds]

theorem Shows.commentStart_eq (h : c.Shows s) {n : Nat} (hr : s.reading = .comment n) :
    c.commentStart = n := by
  have := h.reading
  rw [hr] at this
  exact this.2.2

theorem Shows.atRuleStart_eq (h : c.Shows s) {n : Nat} (hs : s.scope = .atRule n) :
    c.atRuleStart = n := by
  have := h.scope
  rw [hs] at this
  exact this.2.2.1

/--
To collect the text up to a later place does not fail.
-/
theorem Shows.flush? (h : c.Shows s) {n : Nat} (htaken : t.IsBoundary s.taken ∧ s.taken ≤ n)
    (hn : t.IsBoundary n) : ∃ c', c.flush? t n = some c' ∧ c'.Shows (s.flush t n) := by
  refine ⟨{ c with buffer := c.buffer ++ t.slice c.taken n, taken := n }, ?_, ?_⟩
  . rw [← h.taken] at htaken
    unfold Cutter.flush?
    split
    . rw [Text.slice?_eq_some htaken.1 hn htaken.2]
      rfl
    . next hlt =>
      have heq : c.taken = n := by
        omega
      simp [heq, Text.slice, Text.takeBytes]
  . refine ⟨h.reading, h.scope, ?_, rfl, h.opener⟩
    rw [h.buffer, h.taken]
    rfl

/--
Whether a cutter takes the same step as a state.
-/
def StepsAlike (c : Cutter) (s : State) (t : Text) (d : Delimiter) : Prop :=
  ∃ c', c.step? t d = some (c', (s.step t d).2) ∧ c'.Shows (s.step t d).1

theorem Shows.stepsAlike_of_keep (h : c.Shows s) (hc : c.step? t d = some (c, none))
    (hs : s.step t d = (s, none)) : StepsAlike c s t d := by
  rw [StepsAlike, hs]
  exact ⟨c, hc, h⟩

theorem stepsAlike_of_comment (h : c.Shows s) (hs : s.Within t d.byteOffset)
    (hd : d ∈ Delimiter.scan t) {n : Nat} (hr : s.reading = .comment n) : StepsAlike c s t d := by
  have hcomment : c.inComment = true := h.inComment_iff.2 ⟨n, hr⟩
  have hstring : c.inString = false := by
    simpa [hr] using h.inString_iff
  by_cases hm : d.mark = .commentClose
  . have hslice := Delimiter.slice?_stop hd (hs.comment n hr)
    rw [← h.commentStart_eq hr] at hslice hr
    simp only [StepsAlike, step?, State.step, hr, hm, hcomment, hslice, ↓reduceIte,
      Option.map_some]
    exact ⟨_, rfl, ⟨rfl, hstring⟩, h.scope, h.buffer, rfl, h.opener⟩
  . apply h.stepsAlike_of_keep
    . cases hmark : d.mark <;> simp_all [step?]
    . simp only [State.step, hr, hm, ↓reduceIte]

theorem stepsAlike_of_string (h : c.Shows s) (hd : d ∈ Delimiter.scan t)
    (hr : s.reading = .string) : StepsAlike c s t d := by
  have hcomment : c.inComment = false := by
    simpa [hr] using h.inComment_iff
  have hstring : c.inString = true := h.inString_iff.2 hr
  have hescaped := Text.escapedAt?_eq_some (Delimiter.isBoundary_of_mem_scan hd)
  by_cases hm : d.mark = .quote ∧ !t.escapedAt d.byteOffset
  . have hfree : t.escapedAt d.byteOffset = false := by
      simpa using hm.2
    simp only [StepsAlike, step?, State.step, hr, hm, hcomment, hstring, hescaped, hfree,
      Bool.false_eq_true, ↓reduceIte, Option.map_some]
    exact ⟨_, rfl, ⟨rfl, rfl⟩, h.scope, h.buffer, h.taken, h.opener⟩
  . apply h.stepsAlike_of_keep
    . cases hmark : d.mark <;> simp_all [step?]
    . simp only [State.step, hr, hm, ↓reduceIte]

theorem Shows.of_code (h : c.Shows s) (hr : s.reading = .code) :
    c.inComment = false ∧ c.inString = false := by
  have := h.reading
  rwa [hr] at this

theorem stepsAlike_of_quote (h : c.Shows s) (hd : d ∈ Delimiter.scan t) (hr : s.reading = .code)
    (hm : d.mark = .quote) : StepsAlike c s t d := by
  rcases h.of_code hr with ⟨hcomment, hstring⟩
  have hescaped := Text.escapedAt?_eq_some (Delimiter.isBoundary_of_mem_scan hd)
  by_cases he : t.escapedAt d.byteOffset
  . apply h.stepsAlike_of_keep
    . simp [step?, hm, hcomment, hescaped, he]
    . simp [State.step, State.stepCode, hr, hm, he]
  . simp only [StepsAlike, step?, State.step, State.stepCode, hr, hm, hcomment, hstring, hescaped,
      he, Bool.false_eq_true, ↓reduceIte, Option.map_some]
    exact ⟨_, rfl, ⟨rfl, rfl⟩, h.scope, h.buffer, h.taken, rfl⟩

theorem stepsAlike_of_commentOpen (h : c.Shows s) (hs : s.Within t d.byteOffset)
    (hd : d ∈ Delimiter.scan t) (hr : s.reading = .code) (hm : d.mark = .commentOpen) :
    StepsAlike c s t d := by
  rcases h.of_code hr with ⟨hcomment, hstring⟩
  rcases h.flush? hs.taken (Delimiter.isBoundary_of_mem_scan hd) with ⟨c', hflush, h'⟩
  simp only [StepsAlike, step?, State.step, State.stepCode, hr, hm, hcomment, hstring, hflush,
    Bool.or_self, Bool.false_eq_true, ↓reduceIte, Option.map_some]
  exact ⟨_, rfl, ⟨rfl, (h'.of_code hr).2, rfl⟩, h'.scope, h'.buffer, h'.taken, rfl⟩

theorem stepsAlike_of_commentClose (h : c.Shows s) (hr : s.reading = .code)
    (hm : d.mark = .commentClose) : StepsAlike c s t d := by
  apply h.stepsAlike_of_keep
  . simp [step?, hm, (h.of_code hr).1]
  . simp [State.step, State.stepCode, hr, hm]

theorem stepsAlike_of_atSign (h : c.Shows s) (hr : s.reading = .code) (hm : d.mark = .atSign) :
    StepsAlike c s t d := by
  rcases h.of_code hr with ⟨hcomment, hstring⟩
  have hholds := h.scope
  cases hscope : s.scope with
  | outer =>
    rw [hscope] at hholds
    rcases hholds with ⟨hruleset, hatRule, hselectors⟩
    simp only [StepsAlike, step?, State.step, State.stepCode, hr, hm, hscope, hcomment, hstring,
      hatRule, hruleset, Bool.or_self, Bool.false_eq_true, ↓reduceIte]
    exact ⟨_, rfl, ⟨rfl, rfl⟩, ⟨rfl, rfl, rfl, hselectors⟩, h.buffer, h.taken, rfl⟩
  | atRule n | ruleset selectors =>
    apply h.stepsAlike_of_keep
    . simp_all [step?, Holds]
    . simp [State.step, State.stepCode, hr, hm, hscope]

theorem stepsAlike_of_semicolon (h : c.Shows s) (hs : s.Within t d.byteOffset)
    (hd : d ∈ Delimiter.scan t) (hr : s.reading = .code) (hm : d.mark = .semicolon) :
    StepsAlike c s t d := by
  rcases h.of_code hr with ⟨hcomment, hstring⟩
  have hholds := h.scope
  cases hscope : s.scope with
  | atRule n =>
    have hslice := Delimiter.slice?_stop hd (hs.atRule n hscope)
    rw [hscope] at hholds
    rcases hholds with ⟨hruleset, hatRule, rfl, hselectors⟩
    simp only [StepsAlike, step?, State.step, State.stepCode, hr, hm, hscope, hcomment, hstring,
      hatRule, hslice, Bool.not_false, Bool.and_self, ↓reduceIte, Option.map_some]
    exact ⟨_, rfl, h.reading, ⟨hruleset, rfl, hselectors⟩, rfl, rfl, h.opener⟩
  | outer | ruleset selectors =>
    apply h.stepsAlike_of_keep
    . simp_all [step?, Holds]
    . simp [State.step, State.stepCode, hr, hm, hscope]

theorem stepsAlike_of_braceOpen (h : c.Shows s) (hs : s.Within t d.byteOffset)
    (hd : d ∈ Delimiter.scan t) (hr : s.reading = .code) (hm : d.mark = .braceOpen) :
    StepsAlike c s t d := by
  rcases h.of_code hr with ⟨hcomment, hstring⟩
  have hholds := h.scope
  cases hscope : s.scope with
  | atRule n =>
    -- the brace starts the block of the at-rule and no ruleset
    have hslice := Delimiter.slice?_byteOffset hd (hs.atRule n hscope)
    rw [hscope] at hholds
    rcases hholds with ⟨hruleset, hatRule, rfl, hselectors⟩
    simp only [StepsAlike, step?, State.step, State.stepCode, hr, hm, hscope, hcomment, hstring,
      hatRule, hslice, Bool.or_self, Bool.false_eq_true, ↓reduceIte, Option.map_some]
    exact ⟨_, rfl, h.reading, ⟨hruleset, rfl, hselectors⟩, rfl, rfl, h.opener⟩
  | outer | ruleset selectors =>
    have hatRule : c.inAtRule = false := by
      rw [hscope] at hholds
      exact hholds.2.1
    rcases h.flush? hs.taken (Delimiter.isBoundary_of_mem_scan hd) with ⟨c', hflush, h'⟩
    have hatRule' : c'.inAtRule = false := by
      have := h'.scope
      rw [State.flush, hscope] at this
      exact this.2.1
    simp only [StepsAlike, step?, State.step, State.stepCode, hr, hm, hscope, hcomment, hstring,
      hatRule, hflush, Bool.or_self, Bool.false_eq_true, ↓reduceIte, Option.map_some]
    exact ⟨_, rfl, h'.reading, ⟨rfl, hatRule', by rw [← h'.buffer]⟩, rfl, rfl, rfl⟩

theorem stepsAlike_of_braceClose (h : c.Shows s) (hs : s.Within t d.byteOffset)
    (hd : d ∈ Delimiter.scan t) (hr : s.reading = .code) (hm : d.mark = .braceClose) :
    StepsAlike c s t d := by
  rcases h.of_code hr with ⟨hcomment, hstring⟩
  have hholds := h.scope
  cases hscope : s.scope with
  | ruleset selectors =>
    rcases h.flush? hs.taken (Delimiter.isBoundary_of_mem_scan hd) with ⟨c', hflush, h'⟩
    have hholds' := h'.scope
    rw [State.flush, hscope] at hholds'
    rw [hscope] at hholds
    rcases hholds' with ⟨hruleset', hatRule', hselectors⟩
    simp only [StepsAlike, step?, State.step, State.stepCode, hr, hm, hscope, hcomment, hstring,
      hholds.1, hflush, Bool.or_self, Bool.false_eq_true, ↓reduceIte, Option.map_some]
    rw [hselectors, h'.buffer]
    exact ⟨_, rfl, h'.reading, ⟨rfl, hatRule', rfl⟩, rfl, rfl, h'.opener⟩
  | outer | atRule n =>
    have hruleset : c.inRuleset = false := by
      rw [hscope] at hholds
      exact hholds.1
    simp only [StepsAlike, step?, State.step, State.stepCode, hr, hm, hscope, hcomment, hstring,
      hruleset, Bool.or_self, Bool.false_eq_true, ↓reduceIte]
    -- the scope stays as it is, also where an at-rule is open
    rw [← hscope]
    exact ⟨_, rfl, h.reading, h.scope, rfl, rfl, h.opener⟩

theorem Shows.stepsAlike (h : c.Shows s) (hs : s.Within t d.byteOffset)
    (hd : d ∈ Delimiter.scan t) : StepsAlike c s t d := by
  cases hr : s.reading with
  | comment n => exact stepsAlike_of_comment h hs hd hr
  | string => exact stepsAlike_of_string h hd hr
  | code =>
    cases hm : d.mark with
    | quote => exact stepsAlike_of_quote h hd hr hm
    | commentOpen => exact stepsAlike_of_commentOpen h hs hd hr hm
    | commentClose => exact stepsAlike_of_commentClose h hr hm
    | atSign => exact stepsAlike_of_atSign h hr hm
    | semicolon => exact stepsAlike_of_semicolon h hs hd hr hm
    | braceOpen => exact stepsAlike_of_braceOpen h hs hd hr hm
    | braceClose => exact stepsAlike_of_braceClose h hs hd hr hm

theorem Shows.unterminated?_eq (h : c.Shows s) : c.unterminated? = s.unterminated? := by
  have hconstruct : c.construct? = s.innermost? := by
    have hreads := h.reading
    have hholds := h.scope
    unfold construct? State.innermost?
    cases hr : s.reading <;> cases hscope : s.scope <;> simp_all [Reads, Holds]
  cases hinnermost : s.innermost? with
  | none => simp [unterminated?, State.unterminated?, hconstruct, hinnermost]
  | some construct =>
    cases hopener : s.opener <;>
      simp [unterminated?, State.unterminated?, hconstruct, hinnermost, h.opener, hopener]

end Cutter

end Stylesheet
