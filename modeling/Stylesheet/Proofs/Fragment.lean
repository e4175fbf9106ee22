import Mathlib.Data.List.Basic
import Mathlib.Data.List.Chain
import Stylesheet.Proofs.Draft.Reads
import Stylesheet.Proofs.Draft.Refinement

/-!
This module contains texts that are put together from fragments: plain text, strings and comments in
any order. Of a ruleset that is written this way, the comments become records, and the selectors and
declarations are what is left without them.
-/

namespace Stylesheet

/--
A fragment of a text: plain text, a string by its inside, or a comment by its body.
-/
inductive Fragment where
  | plain (t : Text)
  | string (t : Text)
  | comment (body : Text)
deriving DecidableEq, Repr

namespace Fragment

def text : Fragment → Text
  | plain t => t
  | string t => t.quoted
  | comment body => Prose.delimit body

/--
What is left of a fragment when comments are cut out.
-/
def kept : Fragment → Text
  | comment _ => []
  | f => f.text

def record? : Fragment → Option Record
  | comment body => some (.text (Prose.delimit body))
  | _ => none

/--
Whether a fragment is by itself what it is meant to be; `stops` are the signs that plain text must
not hold.
-/
def IsSound (stops : List Char) : Fragment → Prop
  | plain t =>
    t ≠ [] ∧ (∀ c ∈ t, c ≠ '"' ∧ c ∉ stops) ∧ ¬['/', '*'] <:+: t ∧ ¬['*', '/'] <:+: t
  | string t => t.IsQuotable
  | comment body => ¬['*', '/'] <:+: body ∧ body.getLast? ≠ some '/'

/--
Whether no mark of a comment comes about where one fragment ends and the next one starts.
-/
def Meets : Fragment → Fragment → Prop
  | plain t, plain u => ¬['/', '*'] <:+: t ++ u ∧ ¬['*', '/'] <:+: t ++ u
  | plain t, comment _ => t.getLast? ≠ some '*'
  | _, _ => True

/--
Whether no string among the fragments that follow the text `before` is escaped there.
-/
def Unescaped (before : Text) : List Fragment → Prop
  | [] => True
  | f :: fs =>
    (∀ t, f = string t → before.escapes = false) ∧ Unescaped (before ++ f.text) fs

structure IsPassage (stops : List Char) (fs : List Fragment) : Prop where
  sound : ∀ f ∈ fs, f.IsSound stops
  meets : fs.IsChain Meets
  unescaped : Unescaped [] fs

/--
Whether a fragment may follow the text `t`, in which no comment stands.
-/
def Follows (t : Text) : Fragment → Prop
  | plain u => t.getLast? = some '/' → u.head? ≠ some '*'
  | string _ => True
  | comment _ => t.getLast? ≠ some '*'

end Fragment

/--
The prose that fragments make up after the text `t`.
-/
def Prose.ofFragments (t : Text) : List Fragment → Prose
  | [] => .last t
  | .comment body :: fs => .comment t body (ofFragments [] fs)
  | f :: fs => ofFragments (t ++ f.text) fs

namespace Fragment

theorem text_ofFragments (t : Text) (fs : List Fragment) :
    (Prose.ofFragments t fs).text = t ++ fs.flatMap text := by
  induction fs generalizing t with
  | nil => simp [Prose.ofFragments, Prose.text]
  | cons f fs ih => cases f <;> simp [Prose.ofFragments, Prose.text, ih, text]

theorem plain_ofFragments (t : Text) (fs : List Fragment) :
    (Prose.ofFragments t fs).plain = t ++ fs.flatMap kept := by
  induction fs generalizing t with
  | nil => simp [Prose.ofFragments, Prose.plain]
  | cons f fs ih => cases f <;> simp [Prose.ofFragments, Prose.plain, ih, text, kept]

theorem comments_ofFragments (t : Text) (fs : List Fragment) :
    (Prose.ofFragments t fs).comments = fs.filterMap record? := by
  induction fs generalizing t with
  | nil => rfl
  | cons f fs ih => cases f <;> simp [Prose.ofFragments, Prose.comments, ih, record?,
      List.filterMap_cons]

variable {stops : List Char} {f g : Fragment} {t : Text}

theorem follows_nil (f : Fragment) : f.Follows [] := by
  cases f <;> simp [Follows]

theorem infix_of_seam {t u : Text} {c d : Char} (ht : t.getLast? = some c)
    (hu : u.head? = some d) : [c, d] <:+: t ++ u := by
  rcases List.getLast?_eq_some_iff.1 ht with ⟨v, rfl⟩
  rcases List.head?_eq_some_iff.1 hu with ⟨w, rfl⟩
  exact ⟨v, w, by simp⟩

/--
What may follow a fragment may follow it after any text.
-/
theorem Meets.follows (h : f.Meets g) (hf : f.IsSound stops) (t : Text)
    (hcomment : ∀ body, f ≠ comment body) : g.Follows (t ++ f.text) := by
  cases f with
  | comment body => exact absurd rfl (hcomment body)
  | string u =>
    have hlast : (t ++ (string u).text).getLast? = some '"' := by
      rw [text, Text.quoted, ← List.cons_append, ← List.append_assoc, List.getLast?_concat]
    cases g <;> simp [Follows, hlast]
  | plain u =>
    have hlast : (t ++ (plain u).text).getLast? = u.getLast? :=
      List.getLast?_append_of_ne_nil t hf.1
    cases g with
    | plain v =>
      intro hslash hstar
      rw [hlast] at hslash
      exact h.1 (infix_of_seam hslash hstar)
    | string v => trivial
    | comment body =>
      rw [Follows, hlast]
      exact h

theorem isSealed_append_text (ht : Text.isSealed stops t) (hf : f.IsSound stops)
    (hfollows : f.Follows t) (hescapes : ∀ u, f = string u → t.escapes = false)
    (hcomment : ∀ body, f ≠ comment body) : Text.isSealed stops (t ++ f.text) := by
  cases f with
  | comment body => exact absurd rfl (hcomment body)
  | string u =>
    apply Text.isSealedFrom_append_escapedAfter ht
    . rw [← Text.escapes_eq_escapedAfter, hescapes u rfl]
      exact hf.isSealed_append []
    . intro _ hstar
      cases hstar
  | plain u =>
    rcases hf with ⟨-, hsigns, hopen, -⟩
    apply Text.isSealedFrom_append_escapedAfter ht
    . apply Text.isSealedFrom_of_not_infix _ _ hopen
      . intro hquote
        exact (hsigns '"' hquote).1 rfl
      . intro c hc
        exact (hsigns c hc).2
    . exact hfollows

theorem isSealed_ofFragments {fs : List Fragment} {before : Text} (ht : Text.isSealed stops t)
    (hescapes : t.escapes = before.escapes) (hfollows : ∀ f ∈ fs.head?, f.Follows t)
    (hsound : ∀ f ∈ fs, f.IsSound stops) (hmeets : fs.IsChain Meets)
    (hunescaped : Unescaped before fs) : (Prose.ofFragments t fs).IsSealed stops := by
  induction fs generalizing t before with
  | nil => exact ht
  | cons f fs ih =>
    rw [List.forall_mem_cons] at hsound
    rw [List.isChain_cons] at hmeets
    have hf : f.Follows t := hfollows f rfl
    by_cases hcomment : ∃ body, f = comment body
    . rcases hcomment with ⟨body, rfl⟩
      have hlast : (before ++ (comment body).text).escapes = false := by
        have hslash : before ++ (comment body).text =
            before ++ '/' :: '*' :: (body ++ ['*']) ++ ['/'] := by
          simp [text, Prose.delimit]
        rw [hslash, Text.escapes_concat]
        rfl
      have hrest : (Prose.ofFragments [] fs).IsSealed stops :=
        ih rfl hlast.symm (fun g _ => follows_nil g) hsound.2 hmeets.2 hunescaped.2
      exact ⟨ht, hf, hsound.1.1, hsound.1.2, hrest⟩
    . rw [not_exists] at hcomment
      have hstring : ∀ u, f = string u → t.escapes = false := by
        intro u hu
        rw [hescapes]
        exact hunescaped.1 u hu
      have hsealed := isSealed_append_text ht hsound.1 hf hstring hcomment
      have hnext : ∀ g ∈ fs.head?, g.Follows (t ++ f.text) := by
        intro g hg
        exact (hmeets.1 g hg).follows hsound.1 t hcomment
      have hsame : (t ++ f.text).escapes = (before ++ f.text).escapes := by
        rw [Text.escapes_append, Text.escapes_append, hescapes]
      have hrest := ih hsealed hsame hnext hsound.2 hmeets.2 hunescaped.2
      cases f with
      | comment body => exact absurd rfl (hcomment body)
      | _ => exact hrest

theorem IsPassage.isSealed {fs : List Fragment} (h : IsPassage stops fs) :
    (Prose.ofFragments [] fs).IsSealed stops :=
  isSealed_ofFragments rfl rfl (fun f _ => follows_nil f) h.sound h.meets h.unescaped

end Fragment

/--
The comments of a ruleset are cut out of it, those of its selectors before those of its
declarations; what is left makes up the ruleset.
-/
theorem Record.ofText_passages {ss ds : List Fragment}
    (hs : Fragment.IsPassage ['{', '}', '@'] ss) (hd : Fragment.IsPassage ['{', '}'] ds) :
    ofText (ss.flatMap Fragment.text ++ '{' :: (ds.flatMap Fragment.text ++ ['}'])) =
      ss.filterMap Fragment.record? ++ (ds.filterMap Fragment.record? ++
        [.rule (Text.trim (ss.flatMap Fragment.kept)) (Text.trim (ds.flatMap Fragment.kept))]) := by
  have hreads := hs.isSealed.reads_rule hd.isSealed
  simp only [Fragment.text_ofFragments, Fragment.plain_ofFragments, Fragment.comments_ofFragments,
    List.nil_append] at hreads
  rw [ofText_eq_read, hreads.records_eq]

theorem Record.ofText_passages_string :
    Fragment.IsPassage ['{', '}', '@']
        [.plain ['a', ' '], .comment ['{'], .plain [' ', 'b'], .string ['@']] ∧
      Fragment.IsPassage ['{', '}'] [.plain ['c', ':'], .string ['/', '*'], .comment ['"', '*']] ∧
      ofText "a /*\x7b*/ b\"@\"\x7bc:\"/*\"/*\"**/\x7d".toList =
        [.text "/*\x7b*/".toList, .text "/*\"**/".toList,
          .rule "a  b\"@\"".toList "c:\"/*\"".toList] := by
  have hs : Fragment.IsPassage ['{', '}', '@']
      [.plain ['a', ' '], .comment ['{'], .plain [' ', 'b'], .string ['@']] := by
    refine ⟨?_, by simp [Fragment.Meets], by simp [Fragment.Unescaped, Fragment.text]; decide⟩
    simp only [List.forall_mem_cons, Fragment.IsSound]
    exact ⟨⟨by simp, by simp, by decide⟩, by decide, ⟨by simp, by simp, by decide⟩,
      Text.isQuotable_of_not_mem (by decide) rfl, nofun⟩
  have hd : Fragment.IsPassage ['{', '}']
      [.plain ['c', ':'], .string ['/', '*'], .comment ['"', '*']] := by
    refine ⟨?_, by simp [Fragment.Meets], by simp [Fragment.Unescaped, Fragment.text]; decide⟩
    simp only [List.forall_mem_cons, Fragment.IsSound]
    exact ⟨⟨by simp, by simp, by decide⟩, Text.isQuotable_of_not_mem (by decide) rfl, by decide,
      nofun⟩
  exact ⟨hs, hd, ofText_passages hs hd⟩

end Stylesheet
