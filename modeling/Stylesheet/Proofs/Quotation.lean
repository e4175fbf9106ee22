import Stylesheet.Proofs.Draft.Comment
import Stylesheet.Proofs.Draft.Place

/-!
This module contains what strings can do to the records of the text around them: whatever is in a
string, the records begin and end at the same places, and one of them at most holds the string.
-/

namespace Stylesheet

namespace Draft

theorem getLast?_append_quoted (a t : Text) : (a ++ t.quoted).getLast? = some '"' := by
  rw [Text.quoted, ← List.cons_append, ← List.append_assoc, List.getLast?_concat]

theorem escapes_append_quoted (a t : Text) : (a ++ t.quoted).escapes = false := by
  rw [Text.quoted, ← List.cons_append, ← List.append_assoc, Text.escapes_concat]
  rfl

/--
A string is collected as a whole.
-/
theorem read_append_quoted {a : Text} (hr : (start.read a).1.reading = .code)
    (he : a.escapes = false) {t : Text} (ht : t.IsQuotable) :
    start.read (a ++ t.quoted) =
      ((start.read a).1.collect t.quoted false false, (start.read a).2) := by
  have hsealed : t.quoted.isSealed (start.read a).1.scope.stops := ht.isSealed_append []
  have hread := read_append start (a := a) (b := t.quoted)
    fun c _ => Piece.not_joins_cons c _ (by decide) (by decide)
  rcases read_of_isSealed hr (by rw [escaped_read, he]) hsealed with ⟨escaped, hquoted⟩
  rw [hquoted, List.append_nil] at hread
  have hescaped : escaped = false := by
    rw [← escapes_append_quoted a t, ← escaped_read, hread]
    rfl
  rw [hread, hescaped]

/--
Where a draft keeps a string that it has just collected.
-/
theorem exists_put_collect (d : Draft) :
    ∃ place d', ∀ t : Text, d.collect t.quoted false false = Place.put t d' place := by
  cases hs : d.scope with
  | atRule head =>
    refine ⟨.atRule head [] fun t => d.pending ++ t.quoted, d.collect [] false false, ?_⟩
    intro t
    simp [collect, Place.put, hs, Scope.add]
  | _ =>
    refine ⟨.pending d.pending [], d.collect [] false false, ?_⟩
    intro t
    simp [collect, Place.put, hs, Scope.add]

end Draft

namespace Record

inductive Kind where
  | text
  | rule
  | groupEnd
deriving DecidableEq, Repr

def kind : Record → Kind
  | text _ => .text
  | rule _ _ => .rule
  | groupEnd => .groupEnd

@[simp]
theorem kind_fill (t u : Text) (frame : Frame) : (frame.fill t).kind = (frame.fill u).kind := by
  cases frame <;> rfl

/--
The inside of a string is part of one record at most, and changes nothing else: neither the other
records nor how many there are and of what kind.
-/
theorem ofText_quoted {a : Text} (hr : (State.ofText a).reading = .code)
    (he : a.escapes = false) (b : Text) :
    (∃ before frame? after, ∀ t : Text, t.IsQuotable →
      ofText (a ++ t.quoted ++ b) =
        before ++ (Option.map (Frame.fill t) frame?).toList ++ after) ∧
      ∀ t u : Text, t.IsQuotable → u.IsQuotable →
        (ofText (a ++ t.quoted ++ b)).map kind = (ofText (a ++ u.quoted ++ b)).map kind := by
  have hreading := State.reading_ofText_eq_code_iff.1 hr
  rcases Draft.exists_put_collect (Draft.start.read a).1 with ⟨place, d, hput⟩
  rcases Draft.exists_run_put place d (Piece.ofText b) with ⟨before, frame?, after, hrun⟩
  have hrecords (t : Text) (ht : t.IsQuotable) : ofText (a ++ t.quoted ++ b) =
      (Draft.start.read a).2 ++ before ++ (Option.map (Frame.fill t) frame?).toList ++ after := by
    have hjoins : ∀ c ∈ (a ++ t.quoted).getLast?, ¬Piece.joins c b := by
      intro c hc
      rw [Draft.getLast?_append_quoted, Option.mem_some_iff] at hc
      rw [← hc]
      exact Piece.not_joins_of_ne b (by decide) (by decide)
    rw [ofText_eq_read, Draft.read_append _ hjoins, Draft.read_append_quoted hreading he ht, hput,
      Draft.read, hrun]
    simp only [List.append_assoc]
  refine ⟨⟨(Draft.start.read a).2 ++ before, frame?, after, hrecords⟩, ?_⟩
  intro t u ht hu
  rw [hrecords t ht, hrecords u hu]
  cases frame? with
  | none => rfl
  | some frame => simp [kind_fill t u frame]

theorem ofText_quoted_brace :
    (State.ofText ['p', '{']).reading = .code ∧ Text.escapes ['p', '{'] = false ∧
      Text.IsQuotable ['\\', '"', '}'] ∧ Text.IsQuotable ['a'] ∧
      (ofText (['p', '{'] ++ Text.quoted ['\\', '"', '}'] ++ ['}'])).map kind =
        (ofText (['p', '{'] ++ Text.quoted ['a'] ++ ['}'])).map kind := by
  have hreading : (State.ofText ['p', '{']).reading = .code := by decide
  have hescapes : Text.escapes ['p', '{'] = false := by decide
  have hbrace : Text.IsQuotable ['\\', '"', '}'] := by
    refine ⟨?_, by decide⟩
    intro a b h
    rcases a with _ | ⟨c, _ | ⟨d, a⟩⟩
    . simp at h
    . rw [← (List.cons.inj h).1]
      decide
    . have hmem : '"' ∈ ['}'] := by
        rw [(List.cons.inj (List.cons.inj h).2).2]
        exact List.mem_append_right a List.mem_cons_self
      simp at hmem
  have hplain : Text.IsQuotable ['a'] := Text.isQuotable_of_not_mem (by decide) (by decide)
  exact ⟨hreading, hescapes, hbrace, hplain,
    (ofText_quoted hreading hescapes ['}']).2 _ _ hbrace hplain⟩

end Record

end Stylesheet
