import Stylesheet.Proofs.Selector.Distinct
import Stylesheet.Proofs.Sheet.Query
import Stylesheet.Proofs.WellFormed

/-!
This module contains the names of rulesets in sheets that are read from texts. Such a name stands
for the first selector of a ruleset and is never blank, so that a query for it finds the rulesets
with this first selector and no others.
-/

namespace Stylesheet

theorem Resolution.selectors_of_block? {media : Media} {record : Record} {r : Ruleset}
    (h : (ofRecord media record).block? = some (.ruleset r)) :
    ∃ t, r.selectors = Selector.ofText t := by
  cases record with
  | text t =>
    rcases block?_ofText_cases h with ⟨i, -, hb⟩ | ⟨name, -, hb⟩ | ⟨hb, -⟩
    all_goals cases hb
  | rule selectors declarations =>
    simp only [ofRecord, ofRule] at h
    split at h
    . next r' hr =>
      cases h
      exact ⟨selectors, (Ruleset.ofParts_eq_ok_iff.1 hr).1⟩
    . cases h
  | groupEnd => cases h

theorem Resolution.exists_of_mem_ofRecords {media : Media} {records : List Record}
    {r : Resolution} (h : r ∈ ofRecords media records) :
    ∃ media' record, r = ofRecord media' record := by
  induction records generalizing media with
  | nil => cases h
  | cons record records ih =>
    rw [ofRecords, List.mem_cons] at h
    rcases h with rfl | h
    . exact ⟨media, record, rfl⟩
    . exact ih h

namespace Sheet

variable {t : Text} {i : Nat} {r : Ruleset}

/--
The first selector of a ruleset comes from a selector list.
-/
theorem first_mem_of_ruleset (h : (ofText t).ruleset i = .ok r) :
    ∃ u, r.first ∈ Selector.ofText u := by
  have hmem := List.mem_of_getElem? (ruleset_eq_ok_iff.1 h)
  rcases List.mem_filterMap.1 hmem with ⟨resolution, hresolution, hblock⟩
  rcases Resolution.exists_of_mem_ofRecords hresolution with ⟨media, record, rfl⟩
  rcases Resolution.selectors_of_block? hblock with ⟨u, hu⟩
  refine ⟨u, ?_⟩
  rw [← hu]
  exact List.head_mem r.selectors_ne_nil

/--
Two selectors that are read, from the same text or not, have the same text only if they are the
same. So rulesets that are read from a text have the same name only if their first selectors are the
same, and a query for the name of such a ruleset is never refused and finds exactly these.
-/
theorem name_eq_iff_of_ofText (t : Text) :
    (∀ t', ∀ s ∈ Selector.ofText t, ∀ s' ∈ Selector.ofText t', s.render = s'.render ↔ s = s') ∧
      ∀ i r, (ofText t).ruleset i = .ok r →
        (∀ j r', (ofText t).ruleset j = .ok r' → (r'.name = r.name ↔ r'.first = r.first)) ∧
        ∃ indices, (ofText t).indicesOf (.name r.name) = .ok indices ∧
          indices.Pairwise (· < ·) ∧ i ∈ indices ∧
          ∀ j, j ∈ indices ↔ ∃ r', (ofText t).ruleset j = .ok r' ∧ r'.first = r.first := by
  refine ⟨fun t' s hs s' hs' => Selector.render_inj_of_mem_ofText hs hs', ?_⟩
  intro i r hr
  rcases first_mem_of_ruleset hr with ⟨u, hu⟩
  have hname {j : Nat} {r' : Ruleset} (hr' : (ofText t).ruleset j = .ok r') :
      r'.name = r.name ↔ r'.first = r.first := by
    rcases first_mem_of_ruleset hr' with ⟨u', hu'⟩
    exact Selector.render_inj_of_mem_ofText hu' hu
  have hcheck : (Query.name r.name).check = .ok () := by
    rw [Query.check_eq_ok_iff]
    rintro a ⟨⟩
    simp [Ruleset.name, Selector.not_blank_of_mem_ofText hu]
  have hmem (j : Nat) : j ∈ (ofText t).positions (.name r.name) ↔
      ∃ r', (ofText t).ruleset j = .ok r' ∧ r'.first = r.first := by
    simp only [mem_positions_iff, Query.holds_name_iff]
    exact exists_congr fun r' => and_congr_right hname
  exact ⟨fun j r' => hname, _, indicesOf_of_check hcheck, pairwise_positions _ _,
    (hmem i).2 ⟨r, hr, rfl⟩, hmem⟩

theorem name_eq_iff_of_ofText_quoted :
    ∃ r, (ofText "a[b='\"\"']{}p{}a[b='\"\"']{}".toList).ruleset 0 = .ok r ∧
      ∃ indices,
        (ofText "a[b='\"\"']{}p{}a[b='\"\"']{}".toList).indicesOf (.name r.name) = .ok indices ∧
          0 ∈ indices := by
  have hread : ((ofText "a[b='\"\"']{}p{}a[b='\"\"']{}".toList).ruleset 0).isOk := by
    decide
  cases hr : (ofText "a[b='\"\"']{}p{}a[b='\"\"']{}".toList).ruleset 0 with
  | error fault =>
    rw [hr] at hread
    cases hread
  | ok r =>
    rcases (name_eq_iff_of_ofText _).2 0 r hr with ⟨-, indices, hindices, -, hmem, -⟩
    exact ⟨r, rfl, indices, hindices, hmem⟩

end Sheet
end Stylesheet
