import Mathlib.Data.List.Forall2
import Stylesheet.Proofs.Selector.Spelling
import Stylesheet.Proofs.Text.CommaList
import Stylesheet.Selector.List

/-!
This module contains the ways of writing a list of selectors. The list is read back from each of
them if and only if none of its selectors has a lossy joint.
-/

namespace Stylesheet
namespace Selector

/--
A text of a list of chains, with a comma between each two.
-/
inductive ListSpelling : List Selector → Text → Prop
  | nil {w : Text} (hw : Text.blank w) : ListSpelling [] w
  | groups {ss : List Selector} {ts : List Text} (hne : ss ≠ []) (h : List.Forall₂ Padded ss ts) :
      ListSpelling ss ([','].intercalate ts)

theorem tidyAfter_intercalate (tight : Bool) (t : Text) (ts : List Text) :
    tidyAfter tight ([','].intercalate (t :: ts)) =
      [','].intercalate (tidyAfter tight t :: ts.map tidy) := by
  induction ts generalizing tight t with
  | nil => simp
  | cons u ts ih =>
    rw [List.intercalate_cons_cons, List.append_assoc, List.singleton_append,
      tidyAfter_append_tight (by decide) (by decide), ih, List.map_cons, List.intercalate_cons_cons,
      List.append_assoc, List.singleton_append]
    rfl

theorem tidy_intercalate (ts : List Text) :
    tidy ([','].intercalate ts) = [','].intercalate (ts.map tidy) := by
  cases ts with
  | nil => rfl
  | cons t ts => exact tidyAfter_intercalate true t ts

theorem groups_intercalate {gs : List Text} (h : ∀ g ∈ gs, g ≠ [] ∧ ',' ∉ g) :
    groups ([','].intercalate gs) = gs := by
  cases gs with
  | nil => rfl
  | cons g gs =>
    have hhead : ([','].intercalate (g :: gs)).head? ≠ some ',' := by
      rw [Text.head?_intercalate (h g (by simp)).1]
      intro hcomma
      exact (h g (by simp)).2 (List.mem_of_head? hcomma)
    have hlast : ([','].intercalate (g :: gs)).getLast? ≠ some ',' := by
      rcases Text.getLast?_intercalate (fun t ht => (h t ht).1) (by simp) [','] with ⟨t, ht, hlast⟩
      rw [hlast]
      intro hcomma
      exact (h t ht).2 (List.mem_of_getLast? hcomma)
    have hne : [','].intercalate (g :: gs) ≠ [] := by
      intro hnil
      have := Text.head?_intercalate (h g (by simp)).1 [','] gs
      rw [hnil] at this
      exact (h g (by simp)).1 (List.head?_eq_none_iff.1 this.symm)
    rw [groups, if_neg hhead, if_neg hlast, if_neg hne]
    exact List.splitOn_intercalate ',' (fun t ht => (h t ht).2) (by simp)

theorem ListSpelling.groups_tidy {ss : List Selector} {t : Text} (h : ListSpelling ss t) :
    List.Forall₂ (fun s g => ofGroup? g = some s ↔ s.hasLossyJoint = false) ss
      (Selector.groups (tidy t)) := by
  cases h with
  | nil hw =>
    rw [tidy, tidyAfter_of_blank hw, groups_nil]
    exact .nil
  | @groups _ ts hne h =>
    have hgroups : ∀ g ∈ ts.map tidy, g ≠ [] ∧ ',' ∉ g := by
      clear hne
      induction h with
      | nil => simp
      | cons hst h ih =>
        simp only [List.map_cons, List.mem_cons, forall_eq_or_imp]
        exact ⟨⟨hst.tidy_ne_nil, hst.comma_not_mem_tidy⟩, ih⟩
    rw [tidy_intercalate, groups_intercalate hgroups, List.forall₂_map_right_iff]
    exact h.imp fun s t hst => hst.ofGroup?_tidy_iff

theorem filterMap_ofGroup?_iff {P : Selector → Prop} {ss : List Selector} {gs : List Text}
    (h : List.Forall₂ (fun s g => ofGroup? g = some s ↔ P s) ss gs) :
    gs.filterMap ofGroup? = ss ↔ ∀ s ∈ ss, P s := by
  induction h with
  | nil => simp
  | @cons s g ss gs hsg h ih =>
    simp only [List.mem_cons, forall_eq_or_imp, ← ih, ← hsg]
    cases hg : ofGroup? g with
    | some s' => simp [hg]
    | none =>
      -- One group fewer is read than there are selectors.
      have hle := List.length_filterMap_le ofGroup? gs
      have hlength := h.length_eq
      rw [List.filterMap_cons_none hg]
      constructor
      . intro heq
        rw [heq, List.length_cons] at hle
        omega
      . intro heq
        cases heq.1

theorem ListSpelling.ofText_iff {ss : List Selector} {t : Text} (h : ListSpelling ss t) :
    ofText t = ss ↔ ∀ s ∈ ss, s.hasLossyJoint = false :=
  filterMap_ofGroup?_iff h.groups_tidy

theorem ListSpelling.notices {ss : List Selector} {t : Text} (h : ListSpelling ss t)
    (hss : ∀ s ∈ ss, s.hasLossyJoint = false) : Notice.ofSelectors t = [] := by
  rw [← List.length_eq_zero_iff]
  have hcount := length_ofText_add_notices t
  rw [h.ofText_iff.2 hss, ← h.groups_tidy.length_eq] at hcount
  omega

theorem spelling_render {s : Selector} (h : s.isChain) : Spelling s s.render := by
  induction s with
  | joined left combinator right ihleft ihright =>
    simp only [isChain, Bool.and_eq_true] at h
    have hleft := ihleft h.1
    cases combinator with
    | descendant =>
      have hspelling := Spelling.descendant hleft h.2 (w := [' ']) (by simp) rfl
      simpa [render, Combinator.spelling] using hspelling
    | child =>
      have hspelling : Spelling (joined left .child right) _ :=
        .signed hleft h.2 rfl (v := [' ']) (w := [' ']) rfl rfl
      simpa [render, Combinator.spelling] using hspelling
    | adjacent =>
      have hspelling : Spelling (joined left .adjacent right) _ :=
        .signed hleft h.2 rfl (v := [' ']) (w := [' ']) rfl rfl
      simpa [render, Combinator.spelling] using hspelling
  | _ => exact .atomic h

theorem padded_render {s : Selector} (h : s.isChain) {w : Text} (hw : Text.blank w) :
    Padded s (w ++ s.render) :=
  ⟨w, s.render, [], hw, spelling_render h, rfl, by simp⟩

theorem listSpelling_renderList {ss : List Selector} (h : ∀ s ∈ ss, s.isChain) :
    ListSpelling ss (renderList ss) := by
  cases ss with
  | nil => exact .nil rfl
  | cons s ss =>
    simp only [List.mem_cons, forall_eq_or_imp] at h
    rw [renderList, List.map_cons, Text.ofCommaList_cons, List.map_map]
    refine .groups (by simp) (.cons (padded_render h.1 (w := []) rfl) ?_)
    rw [List.forall₂_map_right_iff, List.forall₂_same]
    intro s' hs'
    exact padded_render (h.2 s' hs') (w := [' ']) rfl

/--
A list of chains is read back from its text if and only if none has a lossy joint, and blanks
elsewhere make no difference.
-/
theorem ofText_renderList_iff {ss : List Selector} (hss : ∀ s ∈ ss, s.isChain) :
    (ofText (renderList ss) = ss ↔ ∀ s ∈ ss, s.hasLossyJoint = false) ∧
      ∀ t, ListSpelling ss t → (ofText t = ss ↔ ∀ s ∈ ss, s.hasLossyJoint = false) := by
  constructor
  . exact (listSpelling_renderList hss).ofText_iff
  . intro t ht
    exact ht.ofText_iff

theorem ofText_renderList_descendant :
    (∀ s ∈ [joined (pseudo (element ['a']) ['b']) .descendant (element ['c'])], s.isChain) ∧
      ofText (renderList [joined (pseudo (element ['a']) ['b']) .descendant (element ['c'])]) =
        [joined (pseudo (element ['a']) ['b']) .descendant (element ['c'])] ∧
      ofText "\n a:b\t\tc ".toList =
        [joined (pseudo (element ['a']) ['b']) .descendant (element ['c'])] ∧
      (∀ s ∈ [joined (element ['a']) .descendant (byClass ['c'] none)], s.isChain) ∧
      ofText (renderList [joined (element ['a']) .descendant (byClass ['c'] none)]) ≠
        [joined (element ['a']) .descendant (byClass ['c'] none)] := by
  have hkept := @ofText_renderList_iff
    [joined (pseudo (element ['a']) ['b']) .descendant (element ['c'])] (by decide)
  have hlost := @ofText_renderList_iff
    [joined (element ['a']) .descendant (byClass ['c'] none)] (by decide)
  have hpadded : Padded (joined (pseudo (element ['a']) ['b']) .descendant (element ['c']))
      "\n a:b\t\tc ".toList :=
    ⟨['\n', ' '], "a:b\t\tc".toList, [' '], rfl,
      .descendant (.atomic rfl) rfl (w := ['\t', '\t']) (by decide) rfl, rfl, rfl⟩
  refine ⟨by decide, hkept.1.2 (by decide), ?_, by decide, ?_⟩
  . exact (hkept.2 _ (ListSpelling.groups (by decide) (.cons hpadded .nil))).2 (by decide)
  . intro hread
    have := hlost.1.1 hread
    revert this
    decide

end Selector
end Stylesheet
