import Stylesheet.Proofs.Selector.List
import Stylesheet.Proofs.Selector.Quote

/-!
This module contains the image of the reader of selector lists. Whatever the text is, what is read
from it are chains without lossy joints, but for the double quotes in their values; reading their
own text once more loses those with such a quote and no others.
-/

namespace Stylesheet
namespace Selector

/--
Whether blanks after a text mean nothing, when blanks at its start do or do not.
-/
def tightAfter (tight : Bool) (t : Text) : Bool :=
  t.foldl (fun _ c => isTight c) tight

/--
Whether no descendant combinator after the text `t` stands beside a delimiter; `tight` says whether
there is one before `t`.
-/
def Apart (tight : Bool) (t : Text) : List (Combinator × Text) → Prop
  | [] => True
  | (c, u) :: js =>
    (c = .descendant → tightAfter tight t = false ∧ startsLossy u = false) ∧
      Apart (c != .descendant) u js

theorem tightAfter_of_getLast? {t : Text} {c : Char} (h : t.getLast? = some c) (tight : Bool) :
    tightAfter tight t = isTight c := by
  rcases List.getLast?_eq_some_iff.1 h with ⟨u, rfl⟩
  rw [tightAfter, List.foldl_append]
  rfl

theorem Apart.cons {c : Char} {t : Text} {js : List (Combinator × Text)}
    (h : Apart (isTight c) t js) (tight : Bool) : Apart tight (c :: t) js := by
  cases js with
  | nil => trivial
  | cons j js => exact h

theorem startsLossy_chain_tidyAfter {t : Text} (hstart : startsTight (Text.trimStart t) = false)
    (hhead : (tidyAfter false t).head?.any isBlank = false) :
    startsLossy (chain (tidyAfter false t)).1 = false := by
  cases t with
  | nil => cases hstart
  | cons c t =>
    have hc : isBlank c = false := by
      rw [Bool.eq_false_iff]
      intro hblank
      -- A blank at the start would have been kept.
      have htrim := Text.trimStart_blank_append (w := [c]) (by simp [hblank]) t
      rw [List.singleton_append] at htrim
      rw [htrim] at hstart
      simp [tidyAfter, hblank, hstart] at hhead
    have htight : isTight c = false := by
      rw [Text.trimStart_eq_self (by simpa using hc), startsTight_cons, Bool.or_eq_false_iff]
        at hstart
      exact hstart.1
    have hlossy : (c == '.' || c == '#' || c == '[') = false := by
      simp only [isTight] at htight
      grind
    rw [tidyAfter, if_neg (by simp [hc]), chain_cons]
    split
    . rfl
    split
    . rfl
    . simp [hc, startsLossy, hlossy]

/--
Tidying leaves no blanks beside a delimiter.
-/
theorem apart_chain_tidyAfter (tight : Bool) (t : Text) :
    Apart tight (chain (tidyAfter tight t)).1 (chain (tidyAfter tight t)).2 := by
  induction t generalizing tight with
  | nil => trivial
  | cons c t ih =>
    rw [tidyAfter]
    split
    . next hblank =>
      split
      . exact ih tight
      . next hkept =>
        simp only [Bool.or_eq_true, not_or, Bool.not_eq_true] at hkept
        rcases hkept with ⟨rfl, hstart⟩
        have hrest := ih false
        rw [chain_cons, if_neg (by rintro rfl; cases hblank), if_neg (by rintro rfl; cases hblank),
          if_pos hblank]
        split
        . exact hrest
        . next hhead =>
          rw [Bool.not_eq_true] at hhead
          exact ⟨fun _ => ⟨rfl, startsLossy_chain_tidyAfter hstart hhead⟩, hrest⟩
    . next hblank =>
      have hrest := ih (isTight c)
      rw [chain_cons]
      split
      . next hchild =>
        subst hchild
        exact ⟨by simp, hrest⟩
      split
      . next hadjacent =>
        subst hadjacent
        exact ⟨by simp, hrest⟩
      . exact hrest.cons tight

theorem mem_of_mem_chain (t : Text) :
    (∀ c ∈ (chain t).1, c ∈ t ∧ isBlank c = false ∧ c ≠ '+' ∧ c ≠ '>') ∧
      ∀ j ∈ (chain t).2, ∀ c ∈ j.2, c ∈ t ∧ isBlank c = false ∧ c ≠ '+' ∧ c ≠ '>' := by
  induction t with
  | nil => simp [chain]
  | cons c t ih =>
    have hhead : ∀ d ∈ (chain t).1, d ∈ c :: t ∧ isBlank d = false ∧ d ≠ '+' ∧ d ≠ '>' := by
      intro d hd
      exact ⟨List.mem_cons_of_mem c (ih.1 d hd).1, (ih.1 d hd).2⟩
    have hjoints : ∀ j ∈ (chain t).2, ∀ d ∈ j.2,
        d ∈ c :: t ∧ isBlank d = false ∧ d ≠ '+' ∧ d ≠ '>' := by
      intro j hj d hd
      exact ⟨List.mem_cons_of_mem c (ih.2 j hj d hd).1, (ih.2 j hj d hd).2⟩
    have hcut (combinator : Combinator) : ∀ j ∈ (combinator, (chain t).1) :: (chain t).2,
        ∀ d ∈ j.2, d ∈ c :: t ∧ isBlank d = false ∧ d ≠ '+' ∧ d ≠ '>' := by
      rw [List.forall_mem_cons]
      exact ⟨hhead, hjoints⟩
    rw [chain_cons]
    split
    . exact ⟨by simp, hcut .child⟩
    split
    . exact ⟨by simp, hcut .adjacent⟩
    split
    . split
      . exact ⟨hhead, hjoints⟩
      . exact ⟨by simp, hcut .descendant⟩
    . next hchild hadjacent hblank =>
      refine ⟨?_, hjoints⟩
      rw [List.forall_mem_cons]
      exact ⟨⟨List.mem_cons_self, by simpa using hblank, hadjacent, hchild⟩, hhead⟩

section Read

/--
The selectors of the image, together with what joining another selector to them depends on: that
their last character is the last one of the text before the combinator.
-/
structure ChainFrom (t : Text) (s : Selector) : Prop where
  chain : s.unquoted.isChain
  joints : s.hasLossyJoint = false
  last : ∃ c, s.render.getLast? = some c ∧ t.getLast? = some c ∧ isSeparator c = false

theorem isChain_of_isAtomic {s : Selector} (h : s.isAtomic) : s.isChain := by
  cases s <;> first | exact h | cases h

theorem chainFrom_ofAtom? {t : Text} (ht : ∀ c ∈ t, isSeparator c = false) {s : Selector}
    (h : ofAtom? t = some s) : ChainFrom t s := by
  have hread := readFrom_ofAtom? ht h
  rcases (isWord_render_of_unquoted hread.atomic).exists_getLast? with ⟨c, hlast, hsep⟩
  refine ⟨isChain_of_isAtomic hread.atomic, ?_, c, hlast, by rw [← hread.last, hlast], hsep⟩
  cases s with
  | joined left combinator right => cases hread.atomic
  | _ => rfl

theorem ChainFrom.joined {t u : Text} {left right : Selector} (h : ChainFrom t left)
    (hright : ReadFrom u right) {tight : Bool} {combinator : Combinator}
    (hapart : combinator = .descendant → tightAfter tight t = false ∧ startsLossy u = false) :
    ChainFrom u (joined left combinator right) := by
  rcases (isWord_render_of_unquoted hright.atomic).exists_getLast? with ⟨d, hd, hsep⟩
  refine ⟨?_, ?_, d, by simp [render, hd], by rw [← hright.last, hd], hsep⟩
  . rw [unquoted, isChain, h.chain, hright.atomic]
    rfl
  . rw [hasLossyJoint, h.joints, Bool.or_false]
    cases combinator with
    | descendant =>
      rcases h.last with ⟨c, hleft, ht, hc⟩
      rcases hapart rfl with ⟨htight, hstart⟩
      rw [tightAfter_of_getLast? ht, isTight_getLast hleft hc] at htight
      rw [startsLossy, ← hright.head, ← startsLossy] at hstart
      rw [isLossy, hstart, htight]
      rfl
    | _ => rfl

theorem chainFrom_foldlM {t : Text} {js : List (Combinator × Text)} {tight : Bool}
    (hjs : ∀ j ∈ js, ∀ c ∈ j.2, isSeparator c = false) (hapart : Apart tight t js)
    {first s : Selector} (hfirst : ChainFrom t first) (h : js.foldlM link? first = some s) :
    ∃ u, ChainFrom u s := by
  induction js generalizing t tight first with
  | nil =>
    cases h
    exact ⟨t, hfirst⟩
  | cons j js ih =>
    rw [List.forall_mem_cons] at hjs
    rw [List.foldlM_cons] at h
    rcases Option.bind_eq_some_iff.1 h with ⟨next, hnext, hrest⟩
    rcases Option.map_eq_some_iff.1 hnext with ⟨right, hright, rfl⟩
    exact ih hjs.2 hapart.2 (hfirst.joined (readFrom_ofAtom? hjs.1 hright) hapart.1) hrest

theorem isChain_ofGroup? {t : Text} (ht : ',' ∉ t) {s : Selector}
    (h : ofGroup? (tidy t) = some s) : s.unquoted.isChain ∧ s.hasLossyJoint = false := by
  have hmem := mem_of_mem_chain (tidy t)
  have hsep {c : Char} (hc : c ∈ tidy t ∧ isBlank c = false ∧ c ≠ '+' ∧ c ≠ '>') :
      isSeparator c = false := by
    rw [isSeparator_eq_false_iff]
    exact ⟨hc.2.1, ne_of_mem_of_not_mem (mem_of_mem_tidyAfter hc.1) ht, hc.2.2⟩
  rw [ofGroup?_eq] at h
  rcases Option.bind_eq_some_iff.1 h with ⟨first, hfirst, hrest⟩
  have hchain := chainFrom_ofAtom? (fun c hc => hsep (hmem.1 c hc)) hfirst
  have hjoints := chainFrom_foldlM (fun j hj c hc => hsep (hmem.2 j hj c hc))
    (apart_chain_tidyAfter true t) hchain hrest
  rcases hjoints with ⟨u, hu⟩
  exact ⟨hu.chain, hu.joints⟩

end Read

section Reread

theorem exists_getLast?_render {s : Selector} (h : s.unquoted.isChain) :
    ∃ c, s.render.getLast? = some c ∧ isSeparator c = false := by
  cases s with
  | joined left combinator right =>
    rw [unquoted, isChain, Bool.and_eq_true] at h
    rcases (isWord_render_of_unquoted h.2).exists_getLast? with ⟨c, hc, hsep⟩
    exact ⟨c, by simp [render, hc], hsep⟩
  | _ => exact (isWord_render_of_unquoted h).exists_getLast?

theorem chain_tidy_joined {left right : Selector} {combinator : Combinator}
    (hleft : left.unquoted.isChain) (hright : right.unquoted.isAtomic)
    (hlossy : isLossy left combinator right = false) :
    chain (tidy (joined left combinator right).render) =
      ((chain (tidy left.render)).1, (chain (tidy left.render)).2 ++
        [(combinator, right.render)]) := by
  have hword := isWord_render_of_unquoted hright
  have hsigned {d : Char} (hd : combinator.sign? = some d) :=
    hword.chain_sign_append (t := left.render) hd (v := [' ']) (w := [' ']) rfl rfl
  rcases exists_getLast?_render hleft with ⟨c, hc, hsep⟩
  cases combinator with
  | descendant =>
    have hblank := hword.chain_blanks_append hc hsep (w := [' ']) (by simp) rfl hlossy
    simpa [render, Combinator.spelling] using hblank
  | child => simpa [render, Combinator.spelling] using hsigned rfl
  | adjacent => simpa [render, Combinator.spelling] using hsigned rfl

theorem ofGroup?_tidy_render {s : Selector} (h : s.unquoted.isChain)
    (hjoints : s.hasLossyJoint = false) :
    ofGroup? (tidy s.render) = if s.holdsQuote then none else some s := by
  have hatomic {s : Selector} (h : s.unquoted.isAtomic) :
      ofGroup? (tidy s.render) = if s.holdsQuote then none else some s := by
    have hword := isWord_render_of_unquoted h
    rw [hword.tidy_eq, ofGroup?_eq, hword.chain_eq, ofAtom?_render_unquoted h]
    simp
  induction s with
  | joined left combinator right ihleft ihright =>
    rw [unquoted, isChain, Bool.and_eq_true] at h
    rw [hasLossyJoint, Bool.or_eq_false_iff] at hjoints
    rw [ofGroup?_of_chain_concat (chain_tidy_joined h.1 h.2 hjoints.1), ihleft h.1 hjoints.2]
    cases hquote : left.holdsQuote with
    | true => simp [holdsQuote, hquote]
    | false =>
      cases hquote' : right.holdsQuote <;>
        simp [holdsQuote, hquote, hquote', link?, ofAtom?_render_unquoted h.2]
  | _ => exact hatomic h

theorem comma_not_mem_render {s : Selector} (h : s.unquoted.isChain) : ',' ∉ s.render := by
  induction s with
  | joined left combinator right ihleft ihright =>
    rw [unquoted, isChain, Bool.and_eq_true] at h
    have hright := (isWord_render_of_unquoted h.2).comma_not_mem
    cases combinator <;> simp [render, Combinator.spelling, ihleft h.1, hright]
  | _ => exact (isWord_render_of_unquoted h).comma_not_mem

theorem tidy_renderList (ss : List Selector) :
    tidy (renderList ss) = [','].intercalate (ss.map fun s => tidy s.render) := by
  cases ss with
  | nil => rfl
  | cons s ss =>
    have hblank (u : Text) : tidy (' ' :: u) = tidy u :=
      tidy_blank_append (w := [' ']) rfl u
    rw [renderList, List.map_cons, Text.ofCommaList_cons, tidy_intercalate]
    simp [hblank, Function.comp_def]

theorem ofText_renderList {ss : List Selector}
    (h : ∀ s ∈ ss, s.unquoted.isChain ∧ s.hasLossyJoint = false) :
    ofText (renderList ss) = ss.filter fun s => !s.holdsQuote := by
  have hgroups : ∀ g ∈ ss.map fun s => tidy s.render, g ≠ [] ∧ ',' ∉ g := by
    intro g hg
    rcases List.mem_map.1 hg with ⟨s, hs, rfl⟩
    have hchain := (h s hs).1
    rcases exists_getLast?_render hchain with ⟨c, hc, hsep⟩
    have hlast := getLast?_tidyAfter hc (isSeparator_eq_false_iff.1 hsep).1 true
    constructor
    . intro hnil
      rw [← tidy, hnil] at hlast
      cases hlast
    . intro hcomma
      exact comma_not_mem_render hchain (mem_of_mem_tidyAfter hcomma)
  rw [ofText, tidy_renderList, groups_intercalate hgroups]
  clear hgroups
  induction ss with
  | nil => rfl
  | cons s ss ih =>
    rw [List.forall_mem_cons] at h
    have hread := ofGroup?_tidy_render h.1.1 h.1.2
    rw [List.map_cons]
    cases hquote : s.holdsQuote with
    | true =>
      rw [hquote, if_pos rfl] at hread
      rw [List.filterMap_cons_none hread, ih h.2]
      simp [hquote]
    | false =>
      rw [hquote, if_neg (by simp)] at hread
      rw [List.filterMap_cons_some hread, ih h.2]
      simp [hquote]

end Reread

section Groups

theorem mem_splitOn_of_mem_groups {t g : Text} (h : g ∈ groups t) : g ∈ t.splitOn ',' := by
  have htail (u : Text) (hu : g ∈ (if u.head? = some ',' then u.tail else u).splitOn ',') :
      g ∈ u.splitOn ',' := by
    split at hu
    . next hhead =>
      rcases List.head?_eq_some_iff.1 hhead with ⟨v, rfl⟩
      have hsplit := List.splitOn_append_cons_self (a := ',') [] v
      rw [List.nil_append] at hsplit
      rw [hsplit]
      exact List.mem_append_right _ hu
    . exact hu
  have hinit (u : Text)
      (hu : g ∈ (if u.getLast? = some ',' then u.dropLast else u).splitOn ',') :
      g ∈ u.splitOn ',' := by
    split at hu
    . next hlast =>
      rcases List.getLast?_eq_some_iff.1 hlast with ⟨v, rfl⟩
      rw [List.dropLast_concat] at hu
      rw [List.splitOn_append_cons_self]
      exact List.mem_append_left _ hu
    . exact hu
  have hnonempty (u : Text) (hu : g ∈ if u = [] then [] else u.splitOn ',') :
      g ∈ u.splitOn ',' := by
    split at hu
    . cases hu
    . exact hu
  exact htail t (hinit _ (hnonempty _ h))

theorem splitOn_tidy (t : Text) : (tidy t).splitOn ',' = (t.splitOn ',').map tidy := by
  have hcomma : ∀ g ∈ (t.splitOn ',').map tidy, ',' ∉ g := by
    intro g hg hmem
    rcases List.mem_map.1 hg with ⟨u, hu, rfl⟩
    exact Text.not_mem_of_mem_splitOn hu (mem_of_mem_tidyAfter hmem)
  have hne : (t.splitOn ',').map tidy ≠ [] := by
    rw [ne_eq, List.map_eq_nil_iff]
    exact List.splitOn_ne_nil ',' t
  have hsplit := List.splitOn_intercalate ',' hcomma hne
  rwa [← tidy_intercalate, List.intercalate_splitOn] at hsplit

theorem isChain_of_mem_ofText {t : Text} {s : Selector} (h : s ∈ ofText t) :
    s.unquoted.isChain ∧ s.hasLossyJoint = false := by
  rcases List.mem_filterMap.1 h with ⟨g, hg, hs⟩
  have hmem := mem_splitOn_of_mem_groups hg
  rw [splitOn_tidy] at hmem
  rcases List.mem_map.1 hmem with ⟨u, hu, rfl⟩
  exact isChain_ofGroup? (Text.not_mem_of_mem_splitOn hu) hs

end Groups

/--
Every selector that is read is, but for the double quotes in its values, a chain whose descendant
combinators touch no delimiter. The text of all of them is read as those that hold no such quote.
-/
theorem ofText_renderList_ofText (t : Text) :
    (∀ s ∈ ofText t, s.unquoted.isChain ∧ s.hasLossyJoint = false) ∧
      ofText (renderList (ofText t)) = (ofText t).filter fun s => !s.holdsQuote := by
  have himage : ∀ s ∈ ofText t, s.unquoted.isChain ∧ s.hasLossyJoint = false :=
    fun _ => isChain_of_mem_ofText
  exact ⟨himage, ofText_renderList himage⟩

example : (ofText "a, [b='\"']".toList).map holdsQuote = [false, true] := by
  decide

end Selector
end Stylesheet
