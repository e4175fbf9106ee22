import Stylesheet.Proofs.Delimiter
import Stylesheet.Proofs.Origin.Basic

/-!
This module contains which records share a part of the text: none do, but an at-rule shares the
comments and the closing braces that it goes around.
-/

namespace Stylesheet

namespace Region

def Apart (r r' : Region) : Prop :=
  r.stop ≤ r'.start ∨ r'.stop ≤ r.start

end Region

namespace Trail

/--
What a delimiter can do to the positions that a state and a trail keep.
-/
inductive Move (g : Trail) (s : State) (d : Delimiter) : Trail → State → Option Origin → Prop
  | keep {s' : State} (hreading : ∀ n, s'.reading = .comment n → s.reading = .comment n)
      (hscope : s'.scope = s.scope) (htaken : s'.taken = s.taken) : Move g s d g s' none
  | openComment {s' : State} (hreading : s'.reading = .comment d.byteOffset)
      (hscope : s'.scope = s.scope) (htaken : s'.taken = d.byteOffset) :
      Move g s d { g with buffer := g.flush s d.byteOffset } s' none
  | closeComment {s' : State} {n : Nat} (hcomment : s.reading = .comment n)
      (hreading : s'.reading = .code) (hscope : s'.scope = s.scope) (htaken : s'.taken = d.stop) :
      Move g s d g s' (some (.comment ⟨n, d.stop⟩))
  | openAtRule {s' : State} (houter : s.scope = .outer) (hreading : s'.reading = .code)
      (hscope : s'.scope = .atRule d.byteOffset) (htaken : s'.taken = s.taken) :
      Move g s d g s' none
  | closeAtRule {s' : State} {n stop : Nat} (hatRule : s.scope = .atRule n)
      (hreading : s'.reading = .code) (hscope : s'.scope = .outer) (htaken : s'.taken = d.stop)
      (hstart : d.byteOffset ≤ stop) (hstop : stop ≤ d.stop) :
      Move g s d { g with buffer := [] } s' (some (.atRule ⟨n, stop⟩))
  | openRule {s' : State} {selectors : Text} (hreading : s'.reading = .code)
      (hscope : s'.scope = .ruleset selectors) (htaken : s'.taken = d.stop) :
      Move g s d { buffer := [], selectors := g.flush s d.byteOffset } s' none
  | closeRule {s' : State} (hreading : s'.reading = .code) (hscope : s'.scope = .outer)
      (htaken : s'.taken = d.stop) :
      Move g s d start s' (some (.rule g.selectors (g.flush s d.byteOffset)))
  | closeGroup {s' : State} (hmark : d.mark = .braceClose)
      (hrule : ∀ selectors, s.scope ≠ .ruleset selectors) (hreading : s'.reading = .code)
      (hscope : s'.scope = s.scope) (htaken : s'.taken = d.stop) :
      Move g s d { g with buffer := [] } s' (some (.groupEnd ⟨d.byteOffset, d.stop⟩))

theorem move_stepCode (g : Trail) {s : State} (hr : s.reading = .code) (t : Text)
    (d : Delimiter) :
    Move g s d (g.stepCode s d).1 (s.stepCode t d).1 (g.stepCode s d).2 := by
  have hlt := d.byteOffset_lt_stop
  have hkeep : Move g s d g s none := .keep (fun _ h => h) rfl rfl
  unfold stepCode State.stepCode
  cases hm : d.mark with
  | quote =>
    by_cases he : t.escapedAt d.byteOffset
    . simp only [he, ↓reduceIte]
      exact hkeep
    . simp only [he]
      exact .keep (by simp) rfl rfl
  | commentOpen => exact .openComment rfl rfl rfl
  | commentClose => exact hkeep
  | atSign =>
    cases hs : s.scope with
    | outer => exact .openAtRule hs hr rfl rfl
    | _ => exact hkeep
  | semicolon =>
    cases hs : s.scope with
    | atRule n => exact .closeAtRule hs hr rfl rfl (Nat.le_of_lt hlt) (Nat.le_refl _)
    | _ => exact hkeep
  | braceOpen =>
    cases hs : s.scope with
    | atRule n => exact .closeAtRule hs hr rfl rfl (Nat.le_refl _) (Nat.le_of_lt hlt)
    | _ => exact .openRule hr rfl rfl
  | braceClose =>
    cases hs : s.scope with
    | ruleset selectors => exact .closeRule hr rfl rfl
    | _ => exact .closeGroup hm (by simp [hs]) hr hs.symm rfl

theorem move_step (g : Trail) (s : State) (t : Text) (d : Delimiter) :
    Move g s d (g.step s d).1 (s.step t d).1 (g.step s d).2 := by
  have hkeep : Move g s d g s none := .keep (fun _ h => h) rfl rfl
  unfold step State.step
  cases hr : s.reading with
  | code => exact move_stepCode g hr t d
  | string =>
    dsimp only
    split
    . exact .keep (by simp) rfl rfl
    . exact hkeep
  | comment n =>
    dsimp only
    split
    . exact .closeComment hr rfl rfl rfl
    . exact hkeep

/--
Whether all that is kept up to position `now` lies in order.
-/
structure Ordered (g : Trail) (s : State) (now : Nat) : Prop where
  taken : s.taken ≤ now
  kept : (g.selectors ++ g.buffer).Pairwise fun r r' => r.stop ≤ r'.start
  kept_le : ∀ r ∈ g.selectors ++ g.buffer, r.stop ≤ s.taken
  selectors : (∀ selectors, s.scope ≠ .ruleset selectors) → g.selectors = []
  comment : ∀ n, s.reading = .comment n → s.taken = n ∧ n < now
  atRule : ∀ n, s.scope = .atRule n → n < now ∧ ∀ n', s.reading = .comment n' → n < n'

variable {g g' : Trail} {s s' : State} {d : Delimiter} {origin? : Option Origin} {now : Nat}

theorem Ordered.flush (h : g.Ordered s now) {n : Nat} (hnow : now ≤ n) :
    (g.selectors ++ g.flush s n).Pairwise (fun r r' => r.stop ≤ r'.start) ∧
      ∀ r ∈ g.selectors ++ g.flush s n, r.stop ≤ n := by
  have htaken := h.taken
  have hlist : g.selectors ++ g.flush s n = g.selectors ++ g.buffer ++ [⟨s.taken, n⟩] := by
    rw [Trail.flush, List.append_assoc]
  rw [hlist]
  constructor
  . rw [List.pairwise_append]
    refine ⟨h.kept, List.pairwise_singleton _ _, ?_⟩
    intro r hr r' hr'
    rw [List.mem_singleton] at hr'
    subst hr'
    exact h.kept_le r hr
  . intro r hr
    rcases List.mem_append.1 hr with hr | hr
    . have := h.kept_le r hr
      omega
    . rw [List.mem_singleton] at hr
      subst hr
      exact Nat.le_refl n

theorem Ordered.move (h : g.Ordered s now) (hnow : now ≤ d.byteOffset)
    (hmove : Move g s d g' s' origin?) : g'.Ordered s' d.stop := by
  have hlt := d.byteOffset_lt_stop
  have hflush := h.flush hnow
  rcases h with ⟨htaken, hkept, hkept_le, hselectors, hcomment, hatRule⟩
  cases hmove with
  | keep hreading hscope htaken' =>
    refine ⟨by omega, hkept, ?_, ?_, ?_, ?_⟩
    . rwa [htaken']
    . rwa [hscope]
    . intro n hn
      have := hcomment n (hreading n hn)
      omega
    . intro n hn
      have := hatRule n (hscope ▸ hn)
      exact ⟨by omega, fun n' hn' => this.2 n' (hreading n' hn')⟩
  | openComment hreading hscope htaken' =>
    refine ⟨by omega, hflush.1, ?_, ?_, ?_, ?_⟩
    . rw [htaken']
      exact hflush.2
    . rwa [hscope]
    . intro n hn
      rw [hreading] at hn
      cases hn
      exact ⟨htaken', hlt⟩
    . intro n hn
      have := hatRule n (hscope ▸ hn)
      refine ⟨by omega, ?_⟩
      intro n' hn'
      rw [hreading] at hn'
      cases hn'
      omega
  | closeComment hcomment' hreading hscope htaken' =>
    refine ⟨by omega, hkept, ?_, ?_, ?_, ?_⟩
    . intro r hr
      have := hkept_le r hr
      omega
    . rwa [hscope]
    . simp [hreading]
    . intro n hn
      have := hatRule n (hscope ▸ hn)
      exact ⟨by omega, by simp [hreading]⟩
  | openAtRule houter hreading hscope htaken' =>
    refine ⟨by omega, hkept, ?_, ?_, ?_, ?_⟩
    . rwa [htaken']
    . intro _
      exact hselectors (by simp [houter])
    . simp [hreading]
    . intro n hn
      rw [hscope] at hn
      cases hn
      exact ⟨hlt, by simp [hreading]⟩
  | closeAtRule hatRule' hreading hscope htaken' =>
    have hnone := hselectors (by simp [hatRule'])
    refine ⟨by omega, ?_, ?_, ?_, ?_, ?_⟩
    . simp [hnone]
    . simp [hnone]
    . exact fun _ => hnone
    . simp [hreading]
    . simp [hscope]
  | openRule hreading hscope htaken' =>
    have hnone (r : Region) (hr : r ∈ g.flush s d.byteOffset) : r.stop ≤ s'.taken := by
      have := hflush.2 r (List.mem_append_right _ hr)
      omega
    refine ⟨by omega, ?_, ?_, ?_, ?_, ?_⟩
    . simpa using (List.pairwise_append.1 hflush.1).2.1
    . simpa using hnone
    . intro hrule
      exact absurd hscope (hrule _)
    . simp [hreading]
    . simp [hscope]
  | closeRule hreading hscope htaken' =>
    refine ⟨by omega, ?_, ?_, ?_, ?_, ?_⟩
    . simp [start]
    . simp [start]
    . exact fun _ => rfl
    . simp [hreading]
    . simp [hscope]
  | closeGroup hmark hrule hreading hscope htaken' =>
    have hnone := hselectors hrule
    refine ⟨by omega, ?_, ?_, ?_, ?_, ?_⟩
    . simp [hnone]
    . simp [hnone]
    . exact fun _ => hnone
    . simp [hreading]
    . intro n hn
      have := hatRule n (hscope ▸ hn)
      exact ⟨by omega, by simp [hreading]⟩

end Trail

namespace Origin

theorem not_shares_of_apart {o o' : Origin}
    (h : ∀ r ∈ o.regions, ∀ r' ∈ o'.regions, r.Apart r') : ¬o.Shares o' := by
  rintro ⟨n, ⟨r, hr, hstart, hstop⟩, ⟨r', hr', hstart', hstop'⟩⟩
  rcases h r hr r' hr' with hapart | hapart
  . omega
  . omega

/--
Whether the regions of an origin lie in order, and comments and closing braces are not empty.
-/
structure Sound (o : Origin) : Prop where
  ordered : o.regions.Pairwise fun r r' => r.stop ≤ r'.start
  nonempty : ∀ r, o = comment r ∨ o = groupEnd r → r.start < r.stop

end Origin

namespace Trail

variable {g g' : Trail} {s s' : State} {d : Delimiter} {o o' : Origin} {now : Nat}

theorem Ordered.sound (h : g.Ordered s now) (hnow : now ≤ d.byteOffset)
    (hmove : Move g s d g' s' (some o)) : o.Sound := by
  have hlt := d.byteOffset_lt_stop
  cases hmove with
  | closeComment hcomment =>
    have := h.comment _ hcomment
    refine ⟨List.pairwise_singleton _ _, ?_⟩
    rintro r (hr | hr)
    . cases hr
      simp only
      omega
    . cases hr
  | closeAtRule => exact ⟨List.pairwise_singleton _ _, by simp⟩
  | closeRule => exact ⟨(h.flush hnow).1, by simp⟩
  | closeGroup =>
    refine ⟨List.pairwise_singleton _ _, ?_⟩
    rintro r (hr | hr)
    . cases hr
    . cases hr
      exact hlt

/--
Whether a record that is complete keeps clear of what is kept for those to come, but for an at-rule
that is open around it.
-/
structure Past (g : Trail) (s : State) (o : Origin) : Prop where
  stop_le : ∀ r ∈ o.regions, r.stop ≤ s.taken
  apart : ∀ r ∈ o.regions, ∀ r' ∈ g.selectors ++ g.buffer, r.Apart r'
  atRule : ∀ n, s.scope = .atRule n → (∀ r ∈ o.regions, r.stop ≤ n) ∨
    ∃ r, (o = .comment r ∨ o = .groupEnd r) ∧ n ≤ r.start

theorem Past.apart_flush (h : g.Past s o) (n : Nat) :
    ∀ r ∈ o.regions, ∀ r' ∈ g.selectors ++ g.flush s n, r.Apart r' := by
  intro r hr r' hr'
  rw [Trail.flush, ← List.append_assoc] at hr'
  rcases List.mem_append.1 hr' with hr' | hr'
  . exact h.apart r hr r' hr'
  . rw [List.mem_singleton] at hr'
    subst hr'
    exact .inl (h.stop_le r hr)

theorem Past.move (hpast : g.Past s o) (h : g.Ordered s now) (hnow : now ≤ d.byteOffset)
    {origin? : Option Origin} (hmove : Move g s d g' s' origin?) : g'.Past s' o := by
  have hlt := d.byteOffset_lt_stop
  have htaken := h.taken
  have hflush := hpast.apart_flush d.byteOffset
  have hstop (n : Nat) (hn : s.taken ≤ n) : ∀ r ∈ o.regions, r.stop ≤ n := by
    intro r hr
    have := hpast.stop_le r hr
    omega
  rcases hpast with ⟨-, hapart, hatRule⟩
  have hselectors : ∀ r ∈ o.regions, ∀ r' ∈ g.selectors ++ [], r.Apart r' := by
    intro r hr r' hr'
    rw [List.append_nil] at hr'
    exact hapart r hr r' (List.mem_append_left _ hr')
  cases hmove with
  | keep hreading hscope htaken' => exact ⟨hstop _ (by omega), hapart, by rwa [hscope]⟩
  | openComment hreading hscope htaken' =>
    exact ⟨hstop _ (by omega), hflush, by rwa [hscope]⟩
  | closeComment hcomment hreading hscope htaken' =>
    exact ⟨hstop _ (by omega), hapart, by rwa [hscope]⟩
  | openAtRule houter hreading hscope htaken' =>
    refine ⟨hstop _ (by omega), hapart, ?_⟩
    intro n hn
    rw [hscope] at hn
    cases hn
    exact .inl (hstop _ (by omega))
  | closeAtRule hatRule' hreading hscope htaken' =>
    exact ⟨hstop _ (by omega), hselectors, by simp [hscope]⟩
  | openRule hreading hscope htaken' =>
    refine ⟨hstop _ (by omega), ?_, by simp [hscope]⟩
    intro r hr r' hr'
    rw [List.append_nil] at hr'
    exact hflush r hr r' (List.mem_append_right _ hr')
  | closeRule hreading hscope htaken' =>
    exact ⟨hstop _ (by omega), by simp [start], by simp [hscope]⟩
  | closeGroup hmark hrule hreading hscope htaken' =>
    exact ⟨hstop _ (by omega), hselectors, by rwa [hscope]⟩

theorem Ordered.past (h : g.Ordered s now) (hnow : now ≤ d.byteOffset)
    (hmove : Move g s d g' s' (some o)) : g'.Past s' o := by
  have hlt := d.byteOffset_lt_stop
  cases hmove with
  | @closeComment _ n hcomment hreading hscope htaken =>
    have hn := h.comment n hcomment
    refine ⟨?_, ?_, ?_⟩
    . simp [Origin.regions, htaken]
    . intro r hr r' hr'
      rw [Origin.regions, List.mem_singleton] at hr
      subst hr
      have := h.kept_le r' hr'
      exact .inr (by simp only; omega)
    . intro n' hn'
      have := (h.atRule n' (hscope ▸ hn')).2 n hcomment
      exact .inr ⟨_, .inl rfl, by simp only; omega⟩
  | closeAtRule hatRule hreading hscope htaken hstart hstop =>
    -- an at-rule opens outside of rulesets only, so there are no selectors left to keep clear of
    have hnone := h.selectors (by simp [hatRule])
    exact ⟨by simpa [Origin.regions, htaken] using hstop, by simp [hnone], by simp [hscope]⟩
  | closeRule hreading hscope htaken =>
    refine ⟨?_, by simp [start], by simp [hscope]⟩
    intro r hr
    have := (h.flush hnow).2 r hr
    omega
  | closeGroup hmark hrule hreading hscope htaken =>
    have hnone := h.selectors hrule
    refine ⟨by simp [Origin.regions, htaken], by simp [hnone], ?_⟩
    intro n hn
    have := (h.atRule n (hscope ▸ hn)).1
    exact .inr ⟨_, .inr rfl, by simp only; omega⟩

/--
A record that is just completed shares nothing with an earlier one that it does not go around.
-/
theorem Past.shares_iff (hpast : g.Past s o) (hsound : o.Sound) (h : g.Ordered s now)
    (hnow : now ≤ d.byteOffset) (hmove : Move g s d g' s' (some o')) :
    o.Shares o' ↔ o'.Encloses o := by
  have hlt := d.byteOffset_lt_stop
  have htaken := h.taken
  have hne (hapart : ∀ r ∈ o.regions, ∀ r' ∈ o'.regions, r.Apart r')
      (hatRule : ∀ r, o' ≠ .atRule r) : o.Shares o' ↔ o'.Encloses o := by
    refine ⟨fun hshares => absurd hshares (Origin.not_shares_of_apart hapart), ?_⟩
    rintro ⟨r, r', ho', -⟩
    exact absurd ho' (hatRule r)
  cases hmove with
  | @closeComment _ n hcomment =>
    have hn := h.comment n hcomment
    apply hne
    . intro r hr r' hr'
      rw [Origin.regions, List.mem_singleton] at hr'
      subst hr'
      have := hpast.stop_le r hr
      exact .inl (by simp only; omega)
    . simp
  | @closeAtRule _ n stop hatRule =>
    rcases hpast.atRule n hatRule with hbefore | ⟨r, ho, hstart⟩
    . -- the earlier record ends before the `@`
      have hapart : ∀ r ∈ o.regions, ∀ r' ∈ (Origin.atRule ⟨n, stop⟩).regions, r.Apart r' := by
        intro r hr r' hr'
        rw [Origin.regions, List.mem_singleton] at hr'
        subst hr'
        exact .inl (hbefore r hr)
      refine ⟨fun hshares => absurd hshares (Origin.not_shares_of_apart hapart), ?_⟩
      rintro ⟨_, r, ho', ho, hstart, hstop⟩
      cases ho'
      have hr : r ∈ o.regions := by
        rcases ho with rfl | rfl <;> exact List.mem_singleton_self r
      have := hbefore r hr
      have := hsound.nonempty r ho
      simp only at hstart
      omega
    . -- the earlier record was completed while the at-rule was open
      have hr : o.regions = [r] := by
        rcases ho with rfl | rfl <;> rfl
      have hle := hpast.stop_le r (hr ▸ List.mem_singleton_self r)
      have hlt' := hsound.nonempty r ho
      have hstop : r.stop ≤ stop := by omega
      refine ⟨fun _ => ⟨_, r, rfl, ho, hstart, hstop⟩, fun _ => ?_⟩
      -- the first byte of the comment or of the brace is one that both use
      refine ⟨r.start, ⟨r, hr ▸ List.mem_singleton_self r, Nat.le_refl _, hlt'⟩, ?_⟩
      exact ⟨⟨n, stop⟩, List.mem_singleton_self _, hstart, by simp only; omega⟩
  | closeRule => exact hne (hpast.apart_flush d.byteOffset) (by simp)
  | closeGroup =>
    apply hne
    . intro r hr r' hr'
      rw [Origin.regions, List.mem_singleton] at hr'
      subst hr'
      have := hpast.stop_le r hr
      exact .inl (by simp only; omega)
    . simp

theorem Ordered.run (t : Text) (h : g.Ordered s now) {ds : List Delimiter}
    (hds : Span.Ordered now (ds.map Delimiter.span)) (os : List Origin)
    (hpast : ∀ o ∈ os, g.Past s o) (hsound : ∀ o ∈ os, o.Sound)
    (hos : os.Pairwise fun o o' => o.Shares o' ↔ o'.Encloses o) :
    (∀ o ∈ os ++ g.run t s ds, o.Sound) ∧
      (os ++ g.run t s ds).Pairwise fun o o' => o.Shares o' ↔ o'.Encloses o := by
  -- `os` are the origins so far: each is `Past`, so each keeps clear of the next one
  induction ds generalizing g s now os with
  | nil =>
    rw [Trail.run, List.append_nil]
    exact ⟨hsound, hos⟩
  | cons d ds ih =>
    rcases hds with ⟨hnow, hds⟩
    have hmove := move_step g s t d
    rw [Trail.run, ← List.append_assoc]
    apply ih (h.move hnow hmove) hds
    . intro o ho
      rcases List.mem_append.1 ho with ho | ho
      . exact (hpast o ho).move h hnow hmove
      . rw [Option.mem_toList] at ho
        exact h.past hnow (ho ▸ hmove)
    . intro o ho
      rcases List.mem_append.1 ho with ho | ho
      . exact hsound o ho
      . rw [Option.mem_toList] at ho
        exact h.sound hnow (ho ▸ hmove)
    . rw [List.pairwise_append]
      refine ⟨hos, ?_, ?_⟩
      . cases (g.step s d).2 with
        | none => exact .nil
        | some o => exact List.pairwise_singleton _ o
      . intro o ho o' ho'
        rw [Option.mem_toList] at ho'
        exact (hpast o ho).shares_iff (hsound o ho) h hnow (ho' ▸ hmove)

theorem ordered_start : start.Ordered .start 0 := by
  constructor <;> simp [start, State.start]

theorem Move.mark_of_groupEnd {r : Region} (h : Move g s d g' s' (some (.groupEnd r))) :
    d.mark = .braceClose ∧ r = ⟨d.byteOffset, d.stop⟩ := by
  cases h with
  | closeGroup hmark => exact ⟨hmark, rfl⟩

theorem mark_of_groupEnd_mem_run {t : Text} {r : Region} {ds : List Delimiter}
    (h : .groupEnd r ∈ g.run t s ds) :
    ∃ d ∈ ds, d.mark = .braceClose ∧ r = ⟨d.byteOffset, d.stop⟩ := by
  induction ds generalizing g s with
  | nil => cases h
  | cons d ds ih =>
    rw [Trail.run, List.mem_append, Option.mem_toList] at h
    rcases h with h | h
    . exact ⟨d, List.mem_cons_self, (h ▸ move_step g s t d).mark_of_groupEnd⟩
    . rcases ih h with ⟨d', hd', hr⟩
      exact ⟨d', List.mem_cons_of_mem d hd', hr⟩

end Trail

namespace Origin

/--
The text of a record comes from regions of its own, in order, with one exception: an at-rule shares
with a comment, or with the closing brace of a group, whatever of them it goes around.
-/
theorem shares_iff_encloses (t : Text) :
    (ofText t).map (record t) = Record.ofText t ∧
      (∀ r, .groupEnd r ∈ ofText t → t.slice r.start r.stop = ['}']) ∧
      (∀ o ∈ ofText t, o.regions.Pairwise fun r r' => r.stop ≤ r'.start) ∧
      (ofText t).Pairwise fun o o' => o.Shares o' ↔ o'.Encloses o := by
  have hrun := Trail.ordered_start.run t (Delimiter.ordered_scan t) [] (by simp) (by simp) .nil
  rw [List.nil_append] at hrun
  refine ⟨map_record_ofText t, ?_, fun o ho => (hrun.1 o ho).ordered, hrun.2⟩
  intro r hr
  rcases Trail.mark_of_groupEnd_mem_run hr with ⟨d, hd, hmark, rfl⟩
  rw [Delimiter.slice_of_mem_scan hd, hmark]
  rfl

/--
The comment in `@a/*c*/;` is a record of its own and part of another one.
-/
theorem shares_comment :
    Record.ofText "@a/*c*/;".toList = [.text "/*c*/".toList, .text "@a/*c*/;".toList] ∧
      ofText "@a/*c*/;".toList = [.comment ⟨2, 7⟩, .atRule ⟨0, 8⟩] ∧
      ¬(ofText "@a/*c*/;".toList).Pairwise fun o o' => ¬o.Shares o' := by
  have horigins : ofText "@a/*c*/;".toList = [.comment ⟨2, 7⟩, .atRule ⟨0, 8⟩] := by
    decide +kernel
  have hshares : (comment ⟨2, 7⟩).Shares (atRule ⟨0, 8⟩) :=
    ⟨2, ⟨_, List.mem_singleton_self _, by decide⟩, ⟨_, List.mem_singleton_self _, by decide⟩⟩
  refine ⟨by decide +kernel, horigins, ?_⟩
  rw [horigins, List.pairwise_pair]
  exact fun h => h hshares

end Origin

end Stylesheet
