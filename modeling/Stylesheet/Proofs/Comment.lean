import Stylesheet.Proofs.Draft.Comment
import Stylesheet.Proofs.Draft.Reads

/-!
This module contains the comments of a text by the rule for comments alone: outside of strings the
first `/*` opens one, and the first `*/` after that closes it. It compares them with the comments
that are found by delimiters, which know nothing of the rule.
-/

namespace Stylesheet

/--
A comment in a text: what stands before it, what stands in it, and whether it ends.
-/
structure Comment where
  before : Text
  body : Text
  closed : Bool
deriving DecidableEq, Repr

namespace Comment

def text (c : Comment) : Text :=
  '/' :: '*' :: (c.body ++ if c.closed then ['*', '/'] else [])

def record? (c : Comment) : Option Record :=
  if c.closed then some (.text c.text) else none

/--
The text before the first `*/`, and the text after it if there is one.
-/
def cutClose : Text → Text × Option Text
  | [] => ([], none)
  | '*' :: '/' :: t => ([], some t)
  | c :: t => (c :: (cutClose t).1, (cutClose t).2)

theorem eq_append_cutClose (t : Text) :
    t = (cutClose t).1 ++ ((cutClose t).2.elim [] fun rest => '*' :: '/' :: rest) := by
  induction t using cutClose.induct with
  | case1 => rfl
  | case2 t => rfl
  | case3 c t hclose ih =>
    rw [cutClose]
    . exact congrArg (c :: ·) ih
    . exact hclose

theorem not_infix_cutClose (t : Text) : ¬['*', '/'] <:+: (cutClose t).1 := by
  induction t using cutClose.induct with
  | case1 => decide
  | case2 t => simp [cutClose]
  | case3 c t hclose ih =>
    rw [cutClose]
    . intro h
      rcases List.infix_cons_iff.1 h with h | h
      . rw [List.cons_prefix_cons] at h
        rcases h with ⟨rfl, u, hu⟩
        have ht := eq_append_cutClose t
        rw [← hu, List.cons_append, List.nil_append, List.cons_append] at ht
        exact hclose _ rfl ht
      . exact ih h
    . exact hclose

theorem eq_of_cutClose_eq_some {t body rest : Text} (h : cutClose t = (body, some rest)) :
    t = body ++ '*' :: '/' :: rest := by
  have := eq_append_cutClose t
  rwa [h] at this

theorem eq_of_cutClose_eq_none {t body : Text} (h : cutClose t = (body, none)) : t = body := by
  have := eq_append_cutClose t
  rwa [h, Option.elim_none, List.append_nil] at this

theorem length_lt_of_cutClose {t body rest : Text} (h : cutClose t = (body, some rest)) :
    rest.length < t.length := by
  rw [eq_of_cutClose_eq_some h]
  simp only [List.length_append, List.length_cons]
  omega

theorem not_infix_of_cutClose {t body : Text} {rest? : Option Text}
    (h : cutClose t = (body, rest?)) : ¬['*', '/'] <:+: body := by
  have := not_infix_cutClose t
  rwa [h] at this

/--
The comments of the text after `before`, which ends inside a string or not.
-/
def listFrom (before : Text) (inString : Bool) : Text → List Comment
  | [] => []
  | c :: t =>
    if c = '"' ∧ before.escapes = false then
      listFrom (before ++ [c]) (!inString) t
    else if inString = false ∧ c = '/' ∧ t.head? = some '*' then
      match h : cutClose t.tail with
      | (body, none) => [⟨before, body, false⟩]
      | (body, some rest) =>
        have := length_lt_of_cutClose h
        ⟨before, body, true⟩ ::
          listFrom (before ++ '/' :: '*' :: (body ++ ['*', '/'])) false rest
    else
      listFrom (before ++ [c]) inString t
termination_by t => t.length
decreasing_by
  . simp
  . simp only [List.length_tail] at this
    simp only [List.length_cons]
    omega
  . simp

def ofText (t : Text) : List Comment :=
  listFrom [] false t

/--
Whether neither mark of a comment stands right after a sign that makes another mark with it.
-/
structure IsApart (c : Comment) : Prop where
  before : c.before.getLast? ≠ some '*'
  body : c.closed → c.body.getLast? ≠ some '/'

/--
Whether a comment is seen where it stands: nothing is open before it that it could belong to, it
starts with its `/*`, and it ends as it should and is recorded then.
-/
structure IsSeen (c : Comment) : Prop where
  before : (State.ofText c.before).reading = .code
  opens : (State.ofText (c.before ++ ['/', '*'])).reading = .comment c.before.byteSize
  ends : (State.ofText (c.before ++ c.text)).reading =
    if c.closed then .code else .comment c.before.byteSize
  records : Record.ofText (c.before ++ c.text) = Record.ofText c.before ++ c.record?.toList

theorem not_infix_body {before t : Text} {inString : Bool} :
    ∀ c ∈ listFrom before inString t, ¬['*', '/'] <:+: c.body := by
  fun_induction listFrom before inString t with
  | case1 => simp
  | case2 before inString c t hquote ih => exact ih
  | case3 before inString c t hquote hopen body h =>
    simpa using not_infix_of_cutClose h
  | case4 before inString c t hquote hopen body rest h _ ih =>
    simpa [not_infix_of_cutClose h] using ih
  | case5 before inString c t hquote hopen ih => exact ih

end Comment

namespace State

theorem reading_ofText_of_comment {a u : Text}
    (h : (Draft.start.read (a ++ u)).1.reading = .comment u) :
    (ofText (a ++ u)).reading = .comment a.byteSize := by
  have hfits := (fits_ofText (a ++ u)).comment
  rw [← draft_ofText] at h
  cases hr : (ofText (a ++ u)).reading with
  | comment start =>
    rcases hfits start hr with ⟨before, after, htext, hstart⟩
    have hafter : after = u := by
      simp only [draft, hr, Reading.draft, Draft.Reading.comment.injEq] at h
      rw [htext, ← hstart, Text.dropBytes_append] at h
      exact h
    rw [hafter] at htext
    rw [← hstart, List.append_cancel_right htext]
  | _ => simp [draft, hr, Reading.draft] at h

end State

namespace Comment

theorem IsApart.isSeen {c : Comment} (h : c.IsApart)
    (hr : (Draft.start.read c.before).1.reading = .code) (hbody : ¬['*', '/'] <:+: c.body) :
    c.IsSeen := by
  have hnil : ¬['*', '/'] <:+: ([] : Text) := by decide
  have hopens := Draft.read_append_open hr h.before hnil
  have hopen := Draft.read_append_open hr h.before hbody
  refine ⟨State.reading_ofText_eq_code_iff.2 hr, State.reading_ofText_of_comment hopens.1, ?_, ?_⟩
  . cases hc : c.closed with
    | true =>
      have hcomment := Draft.read_append_comment hr h.before hbody (h.body hc)
      rw [text, hc]
      exact State.reading_ofText_eq_code_iff.2 hcomment.1
    | false =>
      rw [text, hc]
      simp only [Bool.false_eq_true, ↓reduceIte, List.append_nil]
      exact State.reading_ofText_of_comment hopen.1
  . rw [Record.ofText_eq_read, Record.ofText_eq_read]
    cases hc : c.closed with
    | true =>
      have hcomment := Draft.read_append_comment hr h.before hbody (h.body hc)
      rw [record?, text, hc]
      exact hcomment.2
    | false =>
      rw [record?, text, hc]
      simpa using hopen.2

theorem IsSeen.isApart {c : Comment} (h : c.IsSeen) (hbody : ¬['*', '/'] <:+: c.body) :
    c.IsApart := by
  have hr := State.reading_ofText_eq_code_iff.1 h.before
  have hbefore : c.before.getLast? ≠ some '*' := by
    intro hstar
    have hcode := State.reading_ofText_eq_code_iff.2 (Draft.read_append_star hr hstar)
    rw [h.opens] at hcode
    cases hcode
  refine ⟨hbefore, ?_⟩
  intro hc hslash
  have hends := h.ends
  rcases Draft.read_append_slash hr hbefore hbody hslash [] with ⟨d, hd, hread⟩
  have hcomment : (Draft.start.read (c.before ++ c.text)).1.reading ≠ .code := by
    have hslashed : (d.read ['/']).1.reading = .comment ('/' :: '*' :: (c.body ++ ['*', '/'])) := by
      have hpieces : Piece.ofText ['/'] = [.char '/'] := rfl
      rw [Draft.read, hpieces, Draft.run_cons, Draft.step_char]
      simp [Draft.take, hd, Draft.Reading.add, Piece.text]
    simp only [text, hc, ↓reduceIte, hread, hslashed]
    simp
  rw [hc] at hends
  exact hcomment (State.reading_ofText_eq_code_iff.1 hends)

theorem listFrom_seen {before t : Text} {inString : Bool}
    (hr : (Draft.start.read before).1.reading = .ofString inString)
    (hseam : inString = false → t.head? = some '*' →
      ∀ ps, Piece.ofText before ≠ ps ++ [.char '/'])
    (hapart : ∀ c ∈ listFrom before inString t, c.IsApart) :
    (∀ c ∈ listFrom before inString t, c.IsSeen) ∧
      (Draft.start.read (before ++ t)).2.filter Record.isComment =
        (Draft.start.read before).2.filter Record.isComment ++
          (listFrom before inString t).filterMap record? := by
  fun_induction listFrom before inString t with
  | case1 => simp
  | case2 before inString c t hquote ih =>
    rcases hquote with ⟨rfl, hescapes⟩
    have hread := Draft.read_concat_quote hr hescapes
    have hrest := ih hread.1 (fun _ _ ps hps => nomatch Piece.eq_of_ofText_concat hps) hapart
    rw [hread.2, List.append_assoc] at hrest
    exact hrest
  | case3 before inString c t hquote hopen body h =>
    rcases hopen with ⟨rfl, rfl, hhead⟩
    simp only [List.mem_singleton, forall_eq] at hapart ⊢
    have hbody := not_infix_of_cutClose h
    rcases List.head?_eq_some_iff.1 hhead with ⟨u, rfl⟩
    have hu : u = body := eq_of_cutClose_eq_none h
    rw [hu]
    refine ⟨hapart.isSeen hr hbody, ?_⟩
    rw [(Draft.read_append_open hr hapart.before hbody).2]
    simp [record?]
  | case4 before inString c t hquote hopen body rest h _ ih =>
    rcases hopen with ⟨rfl, rfl, hhead⟩
    simp only [List.mem_cons, forall_eq_or_imp] at hapart ⊢
    have hbody := not_infix_of_cutClose h
    rcases List.head?_eq_some_iff.1 hhead with ⟨u, rfl⟩
    have hu : u = body ++ '*' :: '/' :: rest := eq_of_cutClose_eq_some h
    have hlast := hapart.1.body rfl
    have hcomment := Draft.read_append_comment hr hapart.1.before hbody hlast
    have htext : before ++ '/' :: '*' :: (body ++ ['*', '/']) =
        before ++ '/' :: '*' :: body ++ ['*', '/'] := by
      simp
    have hpieces : Piece.ofText (before ++ '/' :: '*' :: body ++ ['*', '/']) =
        Piece.ofText (before ++ '/' :: '*' :: body) ++ [.mark .commentClose] :=
      Piece.ofText_append (Piece.not_joins_star hlast before ['/'])
    have hnext (ps : List Piece) :
        Piece.ofText (before ++ '/' :: '*' :: (body ++ ['*', '/'])) ≠ ps ++ [.char '/'] := by
      intro hps
      rw [htext, hpieces] at hps
      cases (List.append_inj_right' hps rfl)
    have hrest := ih hcomment.1 (fun _ _ => hnext) hapart.2
    refine ⟨⟨hapart.1.isSeen hr hbody, hrest.1⟩, ?_⟩
    have hwhole : before ++ '/' :: '*' :: (body ++ ['*', '/']) ++ rest =
        before ++ '/' :: '*' :: (body ++ '*' :: '/' :: rest) := by
      simp
    rw [hu, ← hwhole, hrest.2, hcomment.2]
    simp [record?, text, Record.isComment]
  | case5 before inString c t hquote hopen ih =>
    have hescapes : c = '"' → before.escapes := by
      intro hc
      simpa [hc] using hquote
    have hslash : inString = false → c = '*' → ∀ ps, Piece.ofText before ≠ ps ++ [.char '/'] := by
      intro hcode hc
      exact hseam hcode (by simp [hc])
    have hread := Draft.read_concat hr hescapes hslash
    have hnext : inString = false → t.head? = some '*' →
        ∀ ps, Piece.ofText (before ++ [c]) ≠ ps ++ [.char '/'] := by
      intro hcode hhead ps hps
      exact hopen ⟨hcode, Piece.eq_of_ofText_concat hps, hhead⟩
    have hrest := ih hread.1 hnext hapart
    rw [hread.2, List.append_assoc] at hrest
    exact hrest

theorem ofText_append_iff {body : Text} (h : ¬['*', '/'] <:+: body) (rest : Text) :
    Record.ofText ('/' :: '*' :: (body ++ '*' :: '/' :: rest)) =
        .text ('/' :: '*' :: (body ++ ['*', '/'])) :: Record.ofText rest ↔
      body.getLast? ≠ some '/' := by
  constructor
  . intro hrecords hslash
    -- The comment that is read goes on, so it is longer.
    rcases Draft.read_append_slash (t := []) rfl (by simp) h hslash rest with ⟨d, hd, hread⟩
    rw [Record.ofText_eq_read] at hrecords
    rw [List.nil_append] at hread
    rw [hread] at hrecords
    have hhead : .text ('/' :: '*' :: (body ++ ['*', '/'])) ∈ (d.read ('/' :: rest)).2.head? := by
      simp only [Draft.read_nil, List.nil_append] at hrecords
      rw [hrecords]
      rfl
    rcases Draft.head?_run_comment hd hhead with ⟨v, hv⟩
    have hlength := congrArg List.length (Record.text.inj hv)
    simp only [List.length_cons, List.length_append, List.length_nil] at hlength
    omega
  . intro hlast
    have hreads := Draft.reads_comment h hlast
    have happend := (Draft.read_append_of_isClear hreads.clear rest).2
    have htext : '/' :: '*' :: (body ++ '*' :: '/' :: rest) =
        '/' :: '*' :: (body ++ ['*', '/']) ++ rest := by
      simp
    rw [Record.ofText_eq_read, htext, happend, hreads.records_eq, Record.ofText_eq_read]
    rfl

/--
Every comment of a text is seen, and one record is made for each that ends and for nothing else,
exactly when each stands apart from the signs around its marks.
-/
theorem isSeen_ofText_iff (t : Text) :
    ((∀ c ∈ ofText t, c.IsSeen) ↔ ∀ c ∈ ofText t, c.IsApart) ∧
      ((∀ c ∈ ofText t, c.IsApart) →
        (Record.ofText t).filter Record.isComment = (ofText t).filterMap record?) ∧
      ∀ body rest, ¬['*', '/'] <:+: body →
        (Record.ofText ('/' :: '*' :: (body ++ '*' :: '/' :: rest)) =
            .text ('/' :: '*' :: (body ++ ['*', '/'])) :: Record.ofText rest ↔
          body.getLast? ≠ some '/') := by
  have hspec := @listFrom_seen [] t false rfl (by simp [Piece.ofText])
  refine ⟨⟨?_, ?_⟩, ?_, ?_⟩
  . intro h c hc
    exact (h c hc).isApart (not_infix_body c hc)
  . intro h
    exact (hspec h).1
  . intro h
    rw [Record.ofText_eq_read]
    exact (hspec h).2
  . intro body rest hbody
    exact ofText_append_iff hbody rest

theorem unseen_slash :
    ofText ['/', '*', '/', '*', '/'] = [⟨[], ['/'], true⟩] ∧
      Record.ofText ['/', '*', '/', '*', '/'] = [] := by
  constructor
  . decide +kernel
  . decide

end Comment

end Stylesheet
