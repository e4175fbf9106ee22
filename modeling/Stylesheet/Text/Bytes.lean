import Stylesheet.Text.Basic

/-!
This module contains positions inside a text. They count the bytes of its UTF-8 form; only those
between two code points are boundaries, and a text is cut at boundaries alone.
-/

namespace Stylesheet

namespace Text

/--
The length of a text in UTF-8.
-/
def byteSize : Text → Nat
  | [] => 0
  | c :: t => c.utf8Size + byteSize t

/--
Whether position `n` lies between two code points, or at either end.
-/
def IsBoundary (t : Text) (n : Nat) : Prop :=
  ∃ before after, t = before ++ after ∧ byteSize before = n

/--
The text from position `n` on.
-/
def dropBytes : Nat → Text → Text
  | 0, t => t
  | _ + 1, [] => []
  | n + 1, c :: t => dropBytes (n + 1 - c.utf8Size) t

/--
The text up to position `n`.
-/
def takeBytes : Nat → Text → Text
  | 0, _ => []
  | _ + 1, [] => []
  | n + 1, c :: t => c :: takeBytes (n + 1 - c.utf8Size) t

/--
The text from position `start` up to position `stop`.
-/
def slice (t : Text) (start stop : Nat) : Text :=
  takeBytes (stop - start) (dropBytes start t)

/--
Whether a text ends in an odd number of backslashes, which escape a quote after it.
-/
def escapes (t : Text) : Bool :=
  (t.reverse.takeWhile (· == '\\')).length % 2 == 1

/--
Whether what stands at position `n` is escaped.
-/
def escapedAt (t : Text) (n : Nat) : Bool :=
  escapes (takeBytes n t)

@[simp]
theorem byteSize_nil : byteSize [] = 0 := rfl

@[simp]
theorem byteSize_cons (c : Char) (t : Text) : byteSize (c :: t) = c.utf8Size + byteSize t := rfl

@[simp]
theorem byteSize_append (a b : Text) : byteSize (a ++ b) = byteSize a + byteSize b := by
  induction a with
  | nil => simp
  | cons c a ih => simp [ih, Nat.add_assoc]

@[simp]
theorem dropBytes_append (a b : Text) : dropBytes (byteSize a) (a ++ b) = b := by
  induction a with
  | nil => cases b <;> simp [dropBytes]
  | cons c a ih =>
    have := c.utf8Size_pos
    have hsize : byteSize (c :: a) = (byteSize (c :: a) - 1) + 1 := by
      simp only [byteSize_cons]
      omega
    rw [hsize, List.cons_append, dropBytes, ← hsize, byteSize_cons, Nat.add_sub_cancel_left]
    exact ih

@[simp]
theorem takeBytes_append (a b : Text) : takeBytes (byteSize a) (a ++ b) = a := by
  induction a with
  | nil => cases b <;> simp [takeBytes]
  | cons c a ih =>
    have := c.utf8Size_pos
    have hsize : byteSize (c :: a) = (byteSize (c :: a) - 1) + 1 := by
      simp only [byteSize_cons]
      omega
    rw [hsize, List.cons_append, takeBytes, ← hsize, byteSize_cons, Nat.add_sub_cancel_left]
    exact congrArg (c :: ·) ih

/--
A slice between two boundaries is the text between them.
-/
theorem slice_append (a b c : Text) :
    slice (a ++ b ++ c) (byteSize a) (byteSize a + byteSize b) = b := by
  simp [slice]

@[simp]
theorem escapes_nil : escapes [] = false := rfl

theorem escapes_concat (t : Text) (c : Char) :
    escapes (t ++ [c]) = (c == '\\' && !escapes t) := by
  by_cases h : c = '\\'
  . simp only [escapes, h, List.reverse_append, List.reverse_cons, List.reverse_nil, List.nil_append,
      List.singleton_append, List.takeWhile_cons, beq_self_eq_true, ↓reduceIte, List.length_cons,
      Bool.true_and]
    rw [Bool.eq_iff_iff]
    simp only [beq_iff_eq, Bool.not_eq_true', beq_eq_false_iff_ne]
    omega
  . simp [escapes, h]

end Text

end Stylesheet
