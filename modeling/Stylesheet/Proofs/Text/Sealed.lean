import Mathlib.Data.List.Induction
import Stylesheet.Proofs.Text.Trim
import Stylesheet.Text.Bytes
import Stylesheet.Text.Ident

/-!
This module contains sealed texts: those in which every string ends, and outside of whose strings
there is no sign to stop at and no start of a comment. Strings themselves are sealed.
-/

namespace Stylesheet
namespace Text

/--
Whether a text is sealed when it starts inside a string or not, and with a backslash that escapes
right before it or not.
-/
def isSealedFrom (stops : List Char) : (inString escaped : Bool) → Text → Bool
  | inString, _, [] => !inString
  | inString, escaped, c :: t =>
    if c == '"' && !escaped then
      isSealedFrom stops (!inString) false t
    else
      (inString || !stops.contains c && !(c == '/' && t.head? == some '*')) &&
        isSealedFrom stops inString (c == '\\' && !escaped) t

def isSealed (stops : List Char) (t : Text) : Bool :=
  isSealedFrom stops false false t

/--
Whether a character neither is a stop nor has a part in strings, escapes or comments.
-/
def isPlain (stops : List Char) (c : Char) : Bool :=
  !stops.contains c && c != '"' && c != '\\' && c != '/' && c != '*'

variable {stops : List Char}

theorem isPlain_of_kind {p : Char → Bool}
    (hp : ('"' :: '\\' :: '/' :: '*' :: stops).all fun d => !p d) {c : Char} (hc : p c) :
    isPlain stops c := by
  have hne : ∀ d ∈ '"' :: '\\' :: '/' :: '*' :: stops, c ≠ d := by
    intro d hd heq
    subst heq
    have := List.all_eq_true.1 hp c hd
    rw [hc] at this
    cases this
  simp only [List.mem_cons, forall_eq_or_imp] at hne
  have hstop : c ∉ stops := by
    intro h
    exact hne.2.2.2.2 c h rfl
  simp [isPlain, hstop, hne]

theorem isSealedFrom_plain_cons {c : Char} (hc : isPlain stops c) (escaped : Bool) (t : Text) :
    isSealedFrom stops false escaped (c :: t) = isSealed stops t := by
  simp only [isPlain, bne, Bool.and_eq_true, Bool.not_eq_true'] at hc
  simp only [isSealedFrom, isSealed, hc, Bool.false_and, Bool.false_eq_true, ↓reduceIte,
    Bool.not_false, Bool.false_or, Bool.true_and]

theorem isSealed_plain_append {a : Text} (ha : a.all (isPlain stops)) (t : Text) :
    isSealed stops (a ++ t) = isSealed stops t := by
  induction a with
  | nil => rfl
  | cons c a ih =>
    simp only [List.all_cons, Bool.and_eq_true] at ha
    rw [List.cons_append, isSealed, isSealedFrom_plain_cons ha.1, ih ha.2]

theorem isSealed_of_plain {a : Text} (ha : a.all (isPlain stops)) : isSealed stops a := by
  have := isSealed_plain_append ha []
  rwa [List.append_nil] at this

theorem all_isPlain_of_blank (hstops : ('"' :: '\\' :: '/' :: '*' :: stops).all fun d => !isBlank d)
    {w : Text} (hw : blank w) : w.all (isPlain stops) := by
  rw [List.all_eq_true]
  intro c hc
  exact isPlain_of_kind hstops (isBlank_of_mem hw hc)

/--
Whether what follows a text is escaped, when its own start is or is not.
-/
def escapedAfter (escaped : Bool) (t : Text) : Bool :=
  t.foldl (fun escaped c => c == '\\' && !escaped) escaped

theorem escapes_eq_escapedAfter (t : Text) : escapes t = escapedAfter false t := by
  induction t using List.reverseRecOn with
  | nil => rfl
  | append_singleton t c ih =>
    rw [escapes_concat, ih, escapedAfter, escapedAfter, List.foldl_append]
    rfl

theorem escapes_append (t u : Text) : escapes (t ++ u) = escapedAfter (escapes t) u := by
  rw [escapes_eq_escapedAfter, escapes_eq_escapedAfter, escapedAfter, List.foldl_append]
  rfl

theorem isSealedFrom_append_escapedAfter {a b : Text} {inString escaped : Bool}
    (ha : isSealedFrom stops inString escaped a)
    (hb : isSealedFrom stops false (escapedAfter escaped a) b)
    (hseam : a.getLast? = some '/' → b.head? ≠ some '*') :
    isSealedFrom stops inString escaped (a ++ b) := by
  induction a generalizing inString escaped with
  | nil =>
    have hclosed : inString = false := by
      simpa [isSealedFrom] using ha
    subst hclosed
    exact hb
  | cons c a ih =>
    have hrest : a.getLast? = some '/' → b.head? ≠ some '*' := by
      intro hslash
      apply hseam
      simp [List.getLast?_cons, hslash]
    rw [List.cons_append, isSealedFrom]
    rw [isSealedFrom] at ha
    split
    . next h =>
      rw [if_pos h] at ha
      rw [Bool.and_eq_true, beq_iff_eq] at h
      rw [h.1] at hb
      exact ih ha hb hrest
    . next h =>
      rw [if_neg h, Bool.and_eq_true] at ha
      rw [Bool.and_eq_true]
      refine ⟨?_, ih ha.2 hb hrest⟩
      cases a with
      | cons d a => exact ha.1
      | nil =>
        -- The start of a comment could only come about where the two texts meet.
        have hfirst := ha.1
        simp only [List.head?_nil] at hfirst
        simp only [List.nil_append]
        simp only [List.getLast?_singleton, Option.some.injEq] at hseam
        grind

theorem isSealedFrom_append {a b : Text} {inString escaped : Bool}
    (ha : isSealedFrom stops inString escaped a) (hb : isSealed stops b)
    (hhead : b.head?.all (isPlain stops)) : isSealedFrom stops inString escaped (a ++ b) := by
  apply isSealedFrom_append_escapedAfter ha
  . cases b with
    | nil => rfl
    | cons c b =>
      have hc : isPlain stops c := hhead
      rw [isSealed, isSealedFrom_plain_cons hc] at hb
      rwa [isSealedFrom_plain_cons hc]
  . intro _ hstar
    rw [hstar] at hhead
    simp [isPlain] at hhead

theorem isSealed_append {a b : Text} (ha : isSealed stops a) (hb : isSealed stops b)
    (hhead : b.head?.all (isPlain stops)) : isSealed stops (a ++ b) :=
  isSealedFrom_append ha hb hhead

theorem isSealedFrom_of_not_infix {t : Text} (hquote : '"' ∉ t) (hstops : ∀ c ∈ t, c ∉ stops)
    (hcomment : ¬['/', '*'] <:+: t) (escaped : Bool) : isSealedFrom stops false escaped t := by
  induction t generalizing escaped with
  | nil => rfl
  | cons c t ih =>
    simp only [List.mem_cons, not_or, forall_eq_or_imp] at hquote hstops
    have hrest : ¬['/', '*'] <:+: t := by
      intro h
      exact hcomment (h.trans (List.suffix_cons c t).isInfix)
    have hopen : ¬(c = '/' ∧ t.head? = some '*') := by
      intro h
      rcases h with ⟨rfl, hhead⟩
      rcases List.head?_eq_some_iff.1 hhead with ⟨t', rfl⟩
      exact hcomment (List.prefix_append ['/', '*'] t').isInfix
    have := ih hquote.2 hstops.2 hrest (c == '\\' && !escaped)
    rw [isSealedFrom]
    grind

theorem isSealed_of_signs {signs : List Char} (hstops : '"' :: stops ⊆ signs) {t : Text}
    (hsigns : ∀ c ∈ t, c ∉ signs) (hcomment : ¬['/', '*'] <:+: t) : isSealed stops t := by
  rw [List.cons_subset] at hstops
  apply isSealedFrom_of_not_infix _ _ hcomment
  . intro hquote
    exact hsigns '"' hquote hstops.1
  . intro c hc hstop
    exact hsigns c hc (hstops.2 hstop)

theorem isSealedFrom_string {t : Text} {escaped : Bool}
    (hquotes : ∀ a b, t = a ++ '"' :: b → escapedAfter escaped a)
    (hescaped : escapedAfter escaped t = false) (u : Text) :
    isSealedFrom stops true escaped (t ++ '"' :: u) = isSealed stops u := by
  induction t generalizing escaped with
  | nil =>
    have hfalse : escaped = false := hescaped
    subst hfalse
    rfl
  | cons c t ih =>
    have hc : (c == '"' && !escaped) = false := by
      by_cases hquote : c = '"'
      . have hfirst : escaped = true := hquotes [] t (by rw [hquote, List.nil_append])
        rw [hfirst, Bool.not_true, Bool.and_false]
      . rw [beq_false_of_ne hquote, Bool.false_and]
    rw [List.cons_append, isSealedFrom, hc]
    simp only [Bool.false_eq_true, ↓reduceIte, Bool.true_or, Bool.true_and]
    apply ih
    . intro a b ht
      exact hquotes (c :: a) b (by rw [ht, List.cons_append])
    . exact hescaped

/--
Whether a text can be the inside of a string: the backslashes in it escape all quotes in it, and not
what follows it.
-/
structure IsQuotable (t : Text) : Prop where
  inner : ∀ a b, t = a ++ '"' :: b → escapes a
  outer : escapes t = false

theorem isQuotable_of_not_mem {t : Text} (hquote : '"' ∉ t) (hescapes : escapes t = false) :
    t.IsQuotable := by
  refine ⟨?_, hescapes⟩
  intro a b ht
  exact absurd (ht ▸ List.mem_append_right a List.mem_cons_self) hquote

theorem IsQuotable.isSealed_append {t : Text} (h : t.IsQuotable) (u : Text) :
    isSealed stops ('"' :: (t ++ '"' :: u)) = isSealed stops u := by
  have hinner := h.inner
  have houter := h.outer
  simp only [escapes_eq_escapedAfter] at hinner houter
  exact isSealedFrom_string hinner houter u

theorem isSealed_quoted {t : Text} (hquote : '"' ∉ t) (hescapes : escapes t = false) (u : Text) :
    isSealed stops ('"' :: (t ++ '"' :: u)) = isSealed stops u :=
  (isQuotable_of_not_mem hquote hescapes).isSealed_append u

/--
The string of which a text is the inside.
-/
def quoted (t : Text) : Text :=
  '"' :: (t ++ ['"'])

/--
Blanks inside of a string are not trimmed.
-/
theorem trim_quoted (before t after : Text) :
    trim (before ++ (t.quoted ++ after)) = trimStart before ++ (t.quoted ++ trimEnd after) := by
  have hstart : trimStart (before ++ (t.quoted ++ after)) =
      trimStart before ++ (t.quoted ++ after) := by
    rw [trimStart_append]
    split
    . next hblank =>
      rw [trimStart_eq_nil.2 hblank]
      rfl
    . rfl
  rcases exists_trimEnd after with ⟨w, hw, hafter⟩
  have hlast : ∀ c ∈ (trimStart before ++ (t.quoted ++ trimEnd after)).getLast?,
      isBlank c = false := by
    intro c hc
    cases hend : (trimEnd after).getLast? with
    | none =>
      rw [List.getLast?_eq_none_iff] at hend
      have hquote : trimStart before ++ (t.quoted ++ trimEnd after) =
          (trimStart before ++ '"' :: t) ++ ['"'] := by
        simp [quoted, hend]
      rw [hquote, List.getLast?_concat, Option.mem_some_iff] at hc
      rw [← hc]
      rfl
    | some d =>
      have hd : c = d := by
        simpa [hend, eq_comm] using hc
      rw [hd]
      exact getLast?_trimEnd after d hend
  have hsplit : trimStart before ++ (t.quoted ++ after) =
      trimStart before ++ (t.quoted ++ trimEnd after) ++ w := by
    rw [List.append_assoc, List.append_assoc, ← hafter]
  rw [trim, hstart, hsplit, trimEnd_append_blank hw, trimEnd_eq_self hlast]

end Text
end Stylesheet
