import Stylesheet.Declarations.Basic
import Stylesheet.Text.Ident

/-!
This module contains the reader of a declaration block. A declaration is a name, a colon and all
text up to the next semicolon or the end, which must not be empty; text that is no declaration is
passed over one character at a time.
-/

namespace Stylesheet.Declarations

/--
The declaration at the start of a text, and the text after it. Blanks around the value do not
belong to it.
-/
def readAt? (t : Text) : Option ((Text × Text) × Text) :=
  match takeIdent? t with
  | none => none
  | some (name, rest) =>
    match Text.trimStart rest with
    | ':' :: rest =>
      if rest.takeWhile (· != ';') = [] then
        none
      else
        some ((name, Text.trim (rest.takeWhile (· != ';'))), (rest.dropWhile (· != ';')).tail)
    | _ => none

def readFirst? : Text → Option ((Text × Text) × Text)
  | [] => none
  | c :: t =>
    match readAt? (c :: t) with
    | some result => some result
    | none => readFirst? t

theorem length_lt_of_readAt? {t rest : Text} {entry : Text × Text}
    (h : readAt? t = some (entry, rest)) : rest.length < t.length := by
  unfold readAt? at h
  split at h
  . simp at h
  . next name after hident =>
    split at h
    . next rest' htrim =>
      split at h
      . simp at h
      . simp only [Option.some.injEq, Prod.mk.injEq] at h
        have hname := (isIdent_of_takeIdent? hident).2
        have hafter : (':' :: rest').length ≤ after.length :=
          htrim ▸ (List.dropWhile_sublist _).length_le
        have hrest : (rest'.dropWhile (· != ';')).length ≤ rest'.length :=
          (List.dropWhile_sublist _).length_le
        have htail : rest.length ≤ (rest'.dropWhile (· != ';')).length := by
          rw [← h.2]
          simp
        have hlength : t.length = name.length + after.length := by simp [hname]
        simp only [List.length_cons] at hafter
        omega
    . simp at h

theorem length_lt_of_readFirst? {t rest : Text} {entry : Text × Text}
    (h : readFirst? t = some (entry, rest)) : rest.length < t.length := by
  induction t with
  | nil => simp [readFirst?] at h
  | cons c t ih =>
    unfold readFirst? at h
    split at h
    . next hread =>
      obtain rfl := Option.some.inj h
      exact length_lt_of_readAt? hread
    . have := ih h
      simp only [List.length_cons]
      omega

/--
All declarations of a text in order, repeated ones too.
-/
def readAll (t : Text) : List (Text × Text) :=
  match h : readFirst? t with
  | none => []
  | some (entry, rest) =>
    have := length_lt_of_readFirst? h
    entry :: readAll rest
termination_by t.length

def ofText (t : Text) : Declarations :=
  ofList (readAll t)

theorem readAll_eq_nil {t : Text} (h : readFirst? t = none) : readAll t = [] := by
  rw [readAll]
  split <;> simp_all

theorem readAll_eq_cons {t rest : Text} {entry : Text × Text}
    (h : readFirst? t = some (entry, rest)) : readAll t = entry :: readAll rest := by
  rw [readAll]
  split <;> simp_all

end Stylesheet.Declarations
