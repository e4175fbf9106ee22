import Stylesheet.Proofs.Draft.Basic

/-!
This module contains clear drafts: those with nothing open and nothing but blanks collected. What is
read from a clear draft is read as if it stood at the start of a text.
-/

namespace Stylesheet

namespace Draft

structure IsClear (d : Draft) : Prop where
  reading : d.reading = .code
  scope : d.scope = .outer
  pending : Text.blank d.pending

/--
Whether two drafts are equal but for blanks at the start of what is collected.
-/
structure Alike (d e : Draft) : Prop where
  reading : d.reading = e.reading
  scope : d.scope = e.scope
  escaped : d.escaped = e.escaped
  pending : Text.trimStart d.pending = Text.trimStart e.pending

theorem Alike.trim_pending {d e : Draft} (h : d.Alike e) :
    Text.trim d.pending = Text.trim e.pending := by
  unfold Text.trim
  rw [h.pending]

theorem Alike.take {d e : Draft} (h : d.Alike e) (p : Piece) : (d.take p).Alike (e.take p) := by
  constructor
  . simp [Draft.take, h.reading]
  . simp [Draft.take, h.scope]
  . simp [Draft.take, h.escaped]
  . simp only [Draft.take, h.reading]
    cases e.reading with
    | comment t => exact h.pending
    | _ => exact Text.trimStart_append_congr h.pending p.text

theorem Alike.stepCode {d e : Draft} (h : d.Alike e) (m : Mark) :
    (d.stepCode m).1.Alike (e.stepCode m).1 ∧ (d.stepCode m).2 = (e.stepCode m).2 := by
  have hnext := h.take (.mark m)
  rcases hnext with ⟨hreading, hscope, hescaped, hpending⟩
  have htrim := h.trim_pending
  unfold Draft.stepCode
  rw [h.scope, h.escaped]
  cases m with
  | quote =>
    cases e.escaped
    . exact ⟨⟨rfl, hscope, hescaped, hpending⟩, rfl⟩
    . exact ⟨⟨hreading, hscope, hescaped, hpending⟩, rfl⟩
  | commentOpen => exact ⟨⟨rfl, hscope, hescaped, h.pending⟩, rfl⟩
  | commentClose => exact ⟨⟨hreading, hscope, hescaped, hpending⟩, rfl⟩
  | atSign =>
    cases e.scope with
    | outer => exact ⟨⟨hreading, rfl, hescaped, hpending⟩, rfl⟩
    | _ => exact ⟨⟨hreading, hscope, hescaped, hpending⟩, rfl⟩
  | semicolon =>
    cases e.scope with
    | atRule t => exact ⟨⟨hreading, rfl, hescaped, rfl⟩, rfl⟩
    | _ => exact ⟨⟨hreading, hscope, hescaped, hpending⟩, rfl⟩
  | braceOpen =>
    cases e.scope with
    | atRule t => exact ⟨⟨hreading, rfl, hescaped, rfl⟩, rfl⟩
    | _ => exact ⟨⟨hreading, by simp [htrim], hescaped, rfl⟩, rfl⟩
  | braceClose =>
    cases e.scope with
    | ruleset selectors => exact ⟨⟨hreading, rfl, hescaped, rfl⟩, by simp [htrim]⟩
    | _ => exact ⟨⟨hreading, hscope, hescaped, rfl⟩, rfl⟩

theorem Alike.step {d e : Draft} (h : d.Alike e) (p : Piece) :
    (d.step p).1.Alike (e.step p).1 ∧ (d.step p).2 = (e.step p).2 := by
  have hnext := h.take p
  rcases hnext with ⟨hreading, hscope, hescaped, hpending⟩
  unfold Draft.step
  rw [h.reading, h.escaped]
  split
  . apply h.stepCode
  . split
    . exact ⟨⟨hreading, hscope, hescaped, hpending⟩, rfl⟩
    . exact ⟨⟨rfl, hscope, hescaped, hpending⟩, rfl⟩
  . exact ⟨⟨rfl, hscope, hescaped, hpending⟩, rfl⟩
  . exact ⟨⟨hreading, hscope, hescaped, hpending⟩, rfl⟩

theorem Alike.run {d e : Draft} (h : d.Alike e) (ps : List Piece) :
    (d.run ps).1.Alike (e.run ps).1 ∧ (d.run ps).2 = (e.run ps).2 := by
  induction ps generalizing d e with
  | nil => exact ⟨h, rfl⟩
  | cons p ps ih =>
    have hstep := h.step p
    have hrest := ih hstep.1
    rw [run_cons, run_cons]
    exact ⟨hrest.1, by rw [hstep.2, hrest.2]⟩

/--
A backslash before the current place is part of what is collected.
-/
def Sound (d : Draft) : Prop :=
  d.escaped → d.reading = .code → Text.blank d.pending = false

theorem sound_start : start.Sound := by
  intro h
  cases h

theorem pending_take_char {d : Draft} {c : Char} (hr : (d.take (.char c)).reading = .code) :
    (d.take (.char c)).pending = d.pending ++ [c] := by
  cases hd : d.reading with
  | comment t => simp [take, hd, Reading.add] at hr
  | _ => simp [take, hd, Reading.collect, Piece.text]

theorem sound_step (d : Draft) (p : Piece) : (d.step p).1.Sound := by
  intro he hr
  cases p with
  | char c =>
    rw [step_char] at he hr ⊢
    have hc : c = '\\' := by
      simp only [take, Piece.char.injEq, Bool.and_eq_true, decide_eq_true_eq] at he
      exact he.1
    rw [pending_take_char hr, hc]
    simp [isBlank]
  | mark m =>
    have hmark : (d.step (.mark m)).1.escaped = false := by
      unfold step stepCode take close
      repeat' split
      all_goals simp
    rw [hmark] at he
    cases he

theorem sound_run {d : Draft} (h : d.Sound) (ps : List Piece) : (d.run ps).1.Sound := by
  induction ps generalizing d with
  | nil => exact h
  | cons p ps ih => exact ih (sound_step d p)

theorem IsClear.alike_start {d : Draft} (h : d.IsClear) (hd : d.Sound) : d.Alike start := by
  constructor
  . exact h.reading
  . exact h.scope
  . cases he : d.escaped with
    | false => rfl
    | true =>
      have := hd he h.reading
      rw [h.pending] at this
      cases this
  . exact Text.trimStart_eq_nil.2 h.pending

theorem IsClear.of_alike {d e : Draft} (he : e.IsClear) (h : d.Alike e) : d.IsClear := by
  constructor
  . rw [h.reading, he.reading]
  . rw [h.scope, he.scope]
  . rw [← Text.trimStart_eq_nil, h.pending]
    exact Text.trimStart_eq_nil.2 he.pending

theorem ofText_append_of_isClear {a : Text} (h : (start.read a).1.IsClear) (b : Text) :
    Piece.ofText (a ++ b) = Piece.ofText a ++ Piece.ofText b := by
  rcases Piece.ofText_append_or a b with hab | ⟨ps, c, m, b', -, hc, ha, -⟩
  . exact hab
  . -- Half of a comment mark is not blank, so it would have been collected.
    have hlast : (start.read a).1 = (start.run ps).1.take (.char c) := by
      simp [read, ha, run_append, run_cons, step_char]
    have hblank := h.pending
    have hreading := h.reading
    rw [hlast] at hblank hreading
    rw [pending_take_char hreading] at hblank
    rcases hc with ⟨rfl, -⟩ | ⟨rfl, -⟩
    . simp [isBlank] at hblank
    . simp [isBlank] at hblank

theorem read_append_of_isClear {a : Text} (h : (start.read a).1.IsClear) (b : Text) :
    (start.read (a ++ b)).1.Alike (start.read b).1 ∧
      (start.read (a ++ b)).2 = (start.read a).2 ++ (start.read b).2 := by
  have hb := (h.alike_start (sound_run sound_start (Piece.ofText a))).run (Piece.ofText b)
  have hab : start.read (a ++ b) =
      (((start.read a).1.run (Piece.ofText b)).1,
        (start.read a).2 ++ ((start.read a).1.run (Piece.ofText b)).2) := by
    rw [read, ofText_append_of_isClear h, run_append]
    rfl
  rw [hab]
  refine ⟨hb.1, ?_⟩
  dsimp
  rw [hb.2]
  rfl

end Draft

end Stylesheet
