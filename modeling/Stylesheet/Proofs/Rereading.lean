import Stylesheet.Proofs.AtRule
import Stylesheet.Proofs.WellFormed

/-!
This module contains what becomes of a comment or an at-rule that is read, written and read again.
All are written in one way each, while the address of an `@import` may be given in three, and only
`url(…)` is used for writing, which excludes more signs than the quoted ways do.
-/

namespace Stylesheet

namespace Import

theorem isUrlChar_iff {c : Char} : isUrlChar c ↔ c ≠ '"' ∧ c ≠ '\'' ∧ c ≠ ')' := by
  simp [isUrlChar, and_assoc]

theorem forall_isUrlChar_iff {url : Text} :
    (∀ c ∈ url, isUrlChar c) ↔ '"' ∉ url ∧ '\'' ∉ url ∧ ')' ∉ url := by
  simp only [isUrlChar_iff]
  constructor
  . intro h
    exact ⟨fun hc => (h _ hc).1 rfl, fun hc => (h _ hc).2.1 rfl, fun hc => (h _ hc).2.2 rfl⟩
  . rintro ⟨hquote, hsingle, hclose⟩ c hc
    exact ⟨ne_of_mem_of_not_mem hc hquote, ne_of_mem_of_not_mem hc hsingle,
      ne_of_mem_of_not_mem hc hclose⟩

/--
Whatever `i` is, an address that is read from its text comes out of parentheses.
-/
theorem isUrlChar_of_ofText?_render {i j : Import} (h : ofText? i.render = some j) :
    ∀ c ∈ j.url, isUrlChar c := by
  rcases ofText?_eq_some_iff.1 h with ⟨rest, rest', types, hrest, hurl, -⟩
  rw [afterWord?_render, Option.some.injEq] at hrest
  rw [← hrest, url?_bracketed] at hurl
  exact isUrlChar_of_bracketed? hurl

theorem IsWellFormed.ofText?_render_iff {i : Import} (h : i.IsWellFormed) :
    ofText? i.render = some i ↔ ∀ c ∈ i.url, isUrlChar c := by
  constructor
  . exact isUrlChar_of_ofText?_render
  . intro hurl
    apply ofText?_render hurl _ h.semicolon
    exact fun t ht => ⟨(h.items t ht).ne_nil, (h.items t ht).trimmed, (h.items t ht).comma⟩

end Import

theorem Resolution.block?_ofImport_eq_some_iff {media : Media} {t : Text} {i : Import} :
    (ofImport media t).block? = some (.importRule i) ↔ Import.ofText? t = some i := by
  unfold ofImport
  split
  . next h => simp [h]
  . next h => simp [h]

namespace Block

theorem ofRecords_text_eq_singleton_iff {t : Text} {b : Block} :
    ofRecords [.text t] = [b] ↔ (Resolution.ofText none t).block? = some b := by
  have hblocks : ofRecords [.text t] = (Resolution.ofText none t).block?.toList := by
    simp only [ofRecords, Resolution.ofRecords, Resolution.ofRecord]
    cases h : (Resolution.ofText none t).block? <;> simp [h]
  rw [hblocks, Option.toList_eq_singleton_iff]

/--
A block that is read from a text without a ruleset is read back from its own text, unless it is an
`@import` with a sign in its address that ends `url("…")`.
-/
theorem ofRecords_render_iff {t : Text} {b : Block} (h : ofRecords [.text t] = [b]) :
    ofRecords [.text (b.render [])] = [b] ↔
      ∀ i, b = .importRule i → '"' ∉ i.url ∧ '\'' ∉ i.url ∧ ')' ∉ i.url := by
  rw [ofRecords_text_eq_singleton_iff] at h ⊢
  rcases Resolution.block?_ofText_cases h with ⟨i, hi, rfl⟩ | ⟨name, hname, rfl⟩ | ⟨rfl, -⟩
  . have hread : (Resolution.ofText none ((importRule i).render [])).block? =
        some (.importRule i) ↔ ∀ c ∈ i.url, Import.isUrlChar c := by
      rw [← (Import.isWellFormed_of_ofText? hi).ofText?_render_iff,
        ← Resolution.block?_ofImport_eq_some_iff, ← Import.ofText_render]
      rfl
    rw [hread, Import.forall_isUrlChar_iff]
    constructor
    . rintro hurl j ⟨⟩
      exact hurl
    . exact fun hurl => hurl i rfl
  . rw [ofText_charset (quote_not_mem_of_charset? hname)]
    exact iff_of_true rfl nofun
  . exact iff_of_true h nofun

theorem ofRecords_render_import :
    ofRecords [.text "@import url(a.css) tv, print;".toList] =
        [.importRule ⟨"a.css".toList, ["tv".toList, "print".toList]⟩] ∧
      ofRecords [.text "@import url(\"a.css\") tv, print;".toList] =
        [.importRule ⟨"a.css".toList, ["tv".toList, "print".toList]⟩] := by
  have h : ofRecords [.text "@import url(a.css) tv, print;".toList] =
      [.importRule ⟨"a.css".toList, ["tv".toList, "print".toList]⟩] := by
    decide
  refine ⟨h, (ofRecords_render_iff h).2 ?_⟩
  rintro i ⟨⟩
  decide

/--
An address in quotes may hold the other quote, or a closing parenthesis, and is lost with it.
-/
theorem ofRecords_render_apostrophe :
    ofRecords [.text "@import \"it's.css\";".toList] = [.importRule ⟨"it's.css".toList, []⟩] ∧
      (importRule ⟨"it's.css".toList, []⟩).render [] = "@import url(\"it's.css\");".toList ∧
      ofRecords [.text "@import url(\"it's.css\");".toList] = [] := by
  decide

end Block

end Stylesheet
