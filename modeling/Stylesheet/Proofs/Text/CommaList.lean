import Mathlib.Data.List.Basic
import Stylesheet.Proofs.Text.Sealed

/-!
This module contains the laws of comma separated lists: how they start and end, and that their items
are read back from them.
-/

namespace Stylesheet
namespace Text

theorem head?_intercalate {t : Text} (ht : t ≠ []) (sep : Text) (ts : List Text) :
    (sep.intercalate (t :: ts)).head? = t.head? := by
  cases ts with
  | nil => simp
  | cons u ts =>
    rw [List.intercalate_cons_cons, List.append_assoc]
    exact List.head?_append_of_ne_nil _ ht

theorem getLast?_intercalate {ts : List Text} (hts : ∀ t ∈ ts, t ≠ []) (hne : ts ≠ [])
    (sep : Text) : ∃ t ∈ ts, (sep.intercalate ts).getLast? = t.getLast? := by
  induction ts with
  | nil => contradiction
  | cons t ts ih =>
    cases ts with
    | nil => exact ⟨t, by simp, by simp⟩
    | cons u ts =>
      simp only [List.mem_cons, forall_eq_or_imp] at hts
      rcases ih (by simpa using hts.2) (by simp) with ⟨last, hmem, hlast⟩
      refine ⟨last, List.mem_cons_of_mem t hmem, ?_⟩
      have hsome : last.getLast? ≠ none := by
        rw [ne_eq, List.getLast?_eq_none_iff]
        rcases List.mem_cons.1 hmem with rfl | hmem
        . exact hts.2.1
        . exact hts.2.2 last hmem
      rw [List.intercalate_cons_cons, List.getLast?_append, hlast]
      cases h : last.getLast? with
      | none => exact absurd h hsome
      | some c => rfl

theorem ofCommaList_cons (item : Text) (items : List Text) :
    ofCommaList (item :: items) = [','].intercalate (item :: items.map (' ' :: ·)) := by
  induction items generalizing item with
  | nil => simp [ofCommaList]
  | cons item' items ih =>
    have hrest := ih item'
    unfold ofCommaList at hrest ⊢
    rw [List.intercalate_cons_cons, hrest, List.map_cons, List.intercalate_cons_cons]
    cases items <;> simp [List.intercalate_cons_cons]

theorem not_mem_ofCommaList {c : Char} (hcomma : c ≠ ',') (hblank : c ≠ ' ') {items : List Text}
    (h : ∀ item ∈ items, c ∉ item) : c ∉ ofCommaList items := by
  induction items with
  | nil => exact List.not_mem_nil
  | cons item items ih =>
    simp only [List.mem_cons, forall_eq_or_imp] at h
    have hrest := ih h.2
    unfold ofCommaList at hrest ⊢
    cases items with
    | nil => simpa using h.1
    | cons item' items =>
      rw [List.intercalate_cons_cons]
      simp [h.1, hrest, hcomma, hblank]

theorem commaList_ofCommaList {items : List Text}
    (h : ∀ item ∈ items, item ≠ [] ∧ trim item = item ∧ ',' ∉ item) :
    commaList (' ' :: ofCommaList items) = items := by
  cases items with
  | nil => rfl
  | cons item items =>
    have hcomma : ∀ t ∈ (item :: items).map (' ' :: ·), ',' ∉ t := by
      intro t ht
      rcases List.mem_map.1 ht with ⟨t', ht', rfl⟩
      simpa using (h t' ht').2.2
    have hlist : ' ' :: ofCommaList (item :: items) =
        [','].intercalate ((item :: items).map (' ' :: ·)) := by
      rw [ofCommaList_cons]
      cases items <;> simp [List.intercalate_cons_cons]
    rw [commaList, hlist, List.splitOn_intercalate ',' hcomma (by simp), List.map_map]
    have htrim : (item :: items).map (trim ∘ (' ' :: ·)) = item :: items := by
      have hid : ∀ t ∈ item :: items, (trim ∘ (' ' :: ·)) t = id t := by
        intro t ht
        have := trim_blank_append (w := [' ']) rfl t
        rwa [(h t ht).2.1] at this
      rw [List.map_congr_left hid, List.map_id]
    rw [htrim, List.filter_eq_self]
    intro t ht
    simpa using (h t ht).1

theorem splitOn_append_of_not_mem {sep : Char} {w : Text} (hw : sep ∉ w) (t : Text) :
    ∃ items last, t.splitOn sep = items ++ [last] ∧
      (t ++ w).splitOn sep = items ++ [last ++ w] := by
  induction t with
  | nil => exact ⟨[], [], by simp, List.splitOn_eq_singleton hw⟩
  | cons c t ih =>
    rcases ih with ⟨items, last, ht, htw⟩
    rw [List.cons_append, List.splitOn_cons_eq_if_modifyHead, List.splitOn_cons_eq_if_modifyHead,
      ht, htw]
    by_cases hc : c == sep
    . exact ⟨[] :: items, last, by simp [hc], by simp [hc]⟩
    . cases items with
      | nil => exact ⟨[], c :: last, by simp [hc], by simp [hc]⟩
      | cons item items => exact ⟨(c :: item) :: items, last, by simp [hc], by simp [hc]⟩

theorem mem_and_ne_of_mem_splitOn {sep c : Char} {t item : Text} (h : item ∈ t.splitOn sep)
    (hc : c ∈ item) : c ∈ t ∧ c ≠ sep := by
  induction t generalizing item with
  | nil =>
    rw [List.splitOn_nil, List.mem_singleton] at h
    subst h
    cases hc
  | cons d t ih =>
    have hrest : ∀ u ∈ t.splitOn sep, c ∈ u → c ∈ d :: t ∧ c ≠ sep := by
      intro u hu hcu
      exact (ih hu hcu).imp_left (List.mem_cons_of_mem d)
    rw [List.splitOn_cons_eq_if_modifyHead] at h
    split at h
    . rcases List.mem_cons.1 h with rfl | h
      . cases hc
      . exact hrest item h hc
    . next hd =>
      cases hitems : t.splitOn sep with
      | nil => exact absurd hitems (List.splitOn_ne_nil sep t)
      | cons first items =>
        rw [hitems] at hrest h
        rw [List.modifyHead_cons, List.mem_cons] at h
        rcases h with rfl | h
        . rcases List.mem_cons.1 hc with rfl | hc
          . exact ⟨List.mem_cons_self, by simpa using hd⟩
          . exact hrest first List.mem_cons_self hc
        . exact hrest item (List.mem_cons_of_mem first h) hc

theorem not_mem_of_mem_splitOn {sep : Char} {t item : Text} (h : item ∈ t.splitOn sep) :
    sep ∉ item :=
  fun hsep => (mem_and_ne_of_mem_splitOn h hsep).2 rfl

theorem exists_of_mem_commaList {t item : Text} (h : item ∈ commaList t) :
    ∃ part ∈ t.splitOn ',', item = trim part := by
  rcases List.mem_map.1 (List.mem_filter.1 h).1 with ⟨part, hpart, rfl⟩
  exact ⟨part, hpart, rfl⟩

theorem trim_of_mem_commaList {t item : Text} (h : item ∈ commaList t) : trim item = item := by
  rcases exists_of_mem_commaList h with ⟨part, -, rfl⟩
  exact trim_trim part

theorem comma_not_mem_of_mem_commaList {t item : Text} (h : item ∈ commaList t) :
    ',' ∉ item := by
  rcases exists_of_mem_commaList h with ⟨part, hpart, rfl⟩
  intro hcomma
  exact not_mem_of_mem_splitOn hpart (mem_of_mem_trim hcomma)

theorem mem_of_mem_commaList {t item : Text} (h : item ∈ commaList t) {c : Char}
    (hc : c ∈ item) : c ∈ t := by
  rcases exists_of_mem_commaList h with ⟨part, hpart, rfl⟩
  exact (mem_and_ne_of_mem_splitOn hpart (mem_of_mem_trim hc)).1

theorem commaList_append_blank {w : Text} (hw : blank w) (t : Text) :
    commaList (t ++ w) = commaList t := by
  have hcomma : ',' ∉ w := by
    intro h
    have := isBlank_of_mem hw h
    cases this
  rcases splitOn_append_of_not_mem hcomma t with ⟨items, last, ht, htw⟩
  rw [commaList, commaList, ht, htw, List.map_append, List.map_append, List.map_singleton,
    List.map_singleton, trim_append_blank hw]

theorem isSealed_ofCommaList {stops : List Char} {items : List Text}
    (h : ∀ item ∈ items, isSealed stops item) (hcomma : isPlain stops ',')
    (hblank : isPlain stops ' ') : isSealed stops (ofCommaList items) := by
  induction items with
  | nil => rfl
  | cons item items ih =>
    simp only [List.mem_cons, forall_eq_or_imp] at h
    cases items with
    | nil => simpa [ofCommaList] using h.1
    | cons item' items =>
      have hrest : isSealed stops (',' :: ' ' :: ofCommaList (item' :: items)) := by
        rw [isSealed, isSealedFrom_plain_cons hcomma, isSealed, isSealedFrom_plain_cons hblank]
        exact ih h.2
      have := isSealed_append h.1 hrest hcomma
      simpa [ofCommaList, List.intercalate_cons_cons] using this

theorem getLast?_ofCommaList {items : List Text}
    (h : ∀ item ∈ items, item ≠ [] ∧ trim item = item) :
    ∀ c ∈ (ofCommaList items).getLast?, isBlank c = false := by
  intro c hc
  cases items with
  | nil => cases hc
  | cons item items =>
    rcases getLast?_intercalate (fun t ht => (h t ht).1) (by simp) [',', ' '] with ⟨t, ht, hlast⟩
    apply getLast?_of_trim_eq_self (h t ht).2
    rw [← hlast]
    exact hc

end Text
end Stylesheet
