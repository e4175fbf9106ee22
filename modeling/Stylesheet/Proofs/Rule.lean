import Stylesheet.Block.Resolution
import Stylesheet.Proofs.Canonical
import Stylesheet.Proofs.Draft.Reads
import Stylesheet.Proofs.Selector.List

/-!
This module contains the reading of rulesets as they are written.
-/

namespace Stylesheet

namespace Declarations

theorem isSealed_renderEntry {entry : Text × Text} (hread : isReadable entry)
    (hvalue : Text.isSealed ['{', '}'] entry.2) {w : Text} (hw : Text.blank w) {t : Text}
    (ht : Text.isSealed ['{', '}'] t) :
    Text.isSealed ['{', '}'] (Ruleset.renderEntry w entry ++ t) := by
  simp only [isReadable, Bool.and_eq_true] at hread
  have hname : entry.1.all (Text.isPlain ['{', '}']) := by
    rw [List.all_eq_true]
    intro c hc
    exact Text.isPlain_of_kind (p := isIdentChar) rfl (isIdentChar_of_mem hread.1.1 hc)
  have htext : Ruleset.renderEntry w entry ++ t =
      w ++ (entry.1 ++ ([':', ' '] ++ (entry.2 ++ (';' :: '\n' :: t)))) := by
    simp [Ruleset.renderEntry]
  have hend : Text.isSealed ['{', '}'] (';' :: '\n' :: t) := by
    rw [Text.isSealed, Text.isSealedFrom_plain_cons (by decide), Text.isSealed,
      Text.isSealedFrom_plain_cons (by decide)]
    exact ht
  rw [htext, Text.isSealed_plain_append (Text.all_isPlain_of_blank rfl hw),
    Text.isSealed_plain_append hname, Text.isSealed_plain_append rfl]
  exact Text.isSealed_append hvalue hend rfl

theorem isSealed_flatMap {entries : List (Text × Text)}
    (hread : ∀ entry ∈ entries, isReadable entry)
    (hvalue : ∀ entry ∈ entries, Text.isSealed ['{', '}'] entry.2) {w : Text} (hw : Text.blank w)
    {t : Text} (ht : Text.isSealed ['{', '}'] t) :
    Text.isSealed ['{', '}'] (entries.flatMap (Ruleset.renderEntry w) ++ t) := by
  induction entries with
  | nil => exact ht
  | cons entry entries ih =>
    simp only [List.mem_cons, forall_eq_or_imp] at hread hvalue
    rw [List.flatMap_cons, List.append_assoc]
    exact isSealed_renderEntry hread.1 hvalue.1 hw (ih hread.2 hvalue.2)

end Declarations

namespace Ruleset

/--
The text of a ruleset before its opening brace.
-/
def head (indent : Text) (r : Ruleset) : Text :=
  indent ++ Selector.renderList r.selectors ++ [' ']

/--
The text of a ruleset between its braces.
-/
def body (indent step : Text) (r : Ruleset) : Text :=
  '\n' :: (r.declarations.entries.flatMap (renderEntry (indent ++ step)) ++ indent)

theorem render_eq (indent step : Text) (r : Ruleset) :
    r.render indent step = r.head indent ++ '{' :: (r.body indent step ++ ['}']) := by
  simp [render, head, body]

namespace IsCanonical

variable {r : Ruleset} {indent step : Text}

theorem reads_render (h : r.IsCanonical) (hindent : Text.blank indent) (hstep : Text.blank step) :
    Draft.Reads (r.render indent step)
      [.rule (Text.trim (r.head indent)) (Text.trim (r.body indent step))] := by
  rw [render_eq]
  apply Draft.reads_rule
  . have hlist : Text.isSealed ['{', '}', '@'] (Selector.renderList r.selectors) := by
      apply Text.isSealed_ofCommaList _ (by decide) (by decide)
      intro t ht
      rcases List.mem_map.1 ht with ⟨s, hs, rfl⟩
      exact h.sealedSelectors s hs
    rw [head, List.append_assoc, Text.isSealed_plain_append (Text.all_isPlain_of_blank rfl hindent)]
    exact Text.isSealed_append hlist rfl rfl
  . have hblank : Text.isSealed ['{', '}'] indent :=
      Text.isSealed_of_plain (Text.all_isPlain_of_blank rfl hindent)
    have hsteps : Text.blank (indent ++ step) := by
      simp [hindent, hstep]
    rw [body, Text.isSealed, Text.isSealedFrom_plain_cons (by decide)]
    exact Declarations.isSealed_flatMap h.readable h.sealedValues hsteps hblank

theorem ofRule_render (h : r.IsCanonical) (hindent : Text.blank indent) (hstep : Text.blank step) :
    Resolution.ofRule r.media (Text.trim (r.head indent)) (Text.trim (r.body indent step)) =
      ⟨r.media, some (.ruleset r), []⟩ := by
  have hspelling := Selector.listSpelling_renderList h.chains
  have htidy : Selector.tidy (Text.trim (r.head indent)) =
      Selector.tidy (Selector.renderList r.selectors) := by
    rw [Selector.tidy_trim, head, Selector.tidy_append_blank rfl,
      Selector.tidy_blank_append hindent]
  have hselectors : Selector.ofText (Text.trim (r.head indent)) = r.selectors := by
    rw [Selector.ofText, htidy]
    exact hspelling.ofText_iff.2 h.lossless
  have hnotices : Notice.ofSelectors (Text.trim (r.head indent)) = [] := by
    rw [Notice.ofSelectors, htidy]
    exact hspelling.notices h.lossless
  have hdeclarations : Declarations.ofText (Text.trim (r.body indent step)) = r.declarations := by
    have hsteps : Text.blank (indent ++ step) := by
      simp [hindent, hstep]
    rw [Declarations.ofText, body, Declarations.readAll_trim_flatMap h.readable hsteps hindent,
      Declarations.ofList_entries]
  have hparts : Ruleset.ofParts r.selectors r.declarations r.media = .ok r :=
    ofParts_eq_ok_iff.2 ⟨rfl, rfl, rfl⟩
  simp only [Resolution.ofRule, hselectors, hdeclarations, hparts, hnotices]

end IsCanonical

end Ruleset

end Stylesheet
