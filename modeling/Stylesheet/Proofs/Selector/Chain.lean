import Stylesheet.Proofs.Text.Trim
import Stylesheet.Selector.List

/-!
This module contains the laws of cutting a group at its combinators, and of joining the parts.
-/

namespace Stylesheet

/--
The character that stands for a combinator; a descendant combinator is nothing but blanks.
-/
def Combinator.sign? : Combinator → Option Char
  | descendant => none
  | child => some '>'
  | adjacent => some '+'

theorem Combinator.isBlank_sign? {c : Combinator} {d : Char} (h : c.sign? = some d) :
    isBlank d = false := by
  cases c with
  | descendant => cases h
  | _ =>
    cases h
    rfl

namespace Selector

theorem chain_cons (c : Char) (t : Text) :
    chain (c :: t) =
      if c = '>' then
        ([], (.child, (chain t).1) :: (chain t).2)
      else if c = '+' then
        ([], (.adjacent, (chain t).1) :: (chain t).2)
      else if isBlank c then
        if t.head?.any isBlank then chain t else ([], (.descendant, (chain t).1) :: (chain t).2)
      else
        (c :: (chain t).1, (chain t).2) := rfl

theorem chain_sign {c : Combinator} {d : Char} (h : c.sign? = some d) (t : Text) :
    chain (d :: t) = ([], (c, (chain t).1) :: (chain t).2) := by
  cases c with
  | descendant => cases h
  | _ =>
    cases h
    rfl

theorem chain_blank_append {w t : Text} (hw : Text.blank w) (hne : w ≠ [])
    (ht : t.head?.any isBlank = false) :
    chain (w ++ t) = ([], (.descendant, (chain t).1) :: (chain t).2) := by
  induction w with
  | nil => contradiction
  | cons c w ih =>
    simp only [Text.blank_cons, Bool.and_eq_true] at hw
    have hchild : c ≠ '>' := by
      intro h
      simp [h, isBlank] at hw
    have hadjacent : c ≠ '+' := by
      intro h
      simp [h, isBlank] at hw
    rw [List.cons_append, chain_cons, if_neg hchild, if_neg hadjacent, if_pos hw.1]
    cases w with
    | nil => simp [ht]
    | cons d w =>
      have hd := hw.2
      simp only [Text.blank_cons, Bool.and_eq_true] at hd
      rw [ih hw.2 (by simp)]
      simp [hd.1]

theorem chain_append {t u : Text} (hu : (chain u).1 = [])
    (h : u.head?.any isBlank → ∀ c ∈ t.getLast?, isBlank c = false) :
    chain (t ++ u) = ((chain t).1, (chain t).2 ++ (chain u).2) := by
  induction t with
  | nil => rw [List.nil_append, chain, List.nil_append, ← hu]
  | cons c t ih =>
    have hlast : u.head?.any isBlank → ∀ d ∈ t.getLast?, isBlank d = false := by
      intro hb d hd
      apply h hb
      simp [List.getLast?_cons, Option.mem_def.1 hd]
    rw [List.cons_append, chain_cons, chain_cons, ih hlast]
    by_cases hc : isBlank c
    . have hhead : (t ++ u).head?.any isBlank = t.head?.any isBlank := by
        cases t with
        | cons d t => rfl
        | nil =>
          cases hb : u.head?.any isBlank with
          | false => exact hb
          | true =>
            have := h hb c rfl
            rw [hc] at this
            cases this
      rw [hhead]
      repeat' split
      all_goals rfl
    . simp only [hc]
      repeat' split
      all_goals first | rfl | contradiction

theorem chain_eq_self {t : Text} (h : ∀ c ∈ t, isBlank c = false ∧ c ≠ '>' ∧ c ≠ '+') :
    chain t = (t, []) := by
  induction t with
  | nil => rfl
  | cons c t ih =>
    simp only [List.mem_cons, forall_eq_or_imp] at h
    simp [chain_cons, ih h.2, h.1]

theorem length_chain_append {u : Text} (h : ∀ c ∈ u, isBlank c = false ∧ c ≠ '>' ∧ c ≠ '+')
    (t : Text) : (chain (t ++ u)).2.length = (chain t).2.length := by
  induction t with
  | nil => rw [List.nil_append, chain_eq_self h, chain]
  | cons c t ih =>
    have hhead : (t ++ u).head?.any isBlank = t.head?.any isBlank := by
      cases t with
      | cons d t => rfl
      | nil =>
        cases u with
        | nil => rfl
        | cons d u => simp [(h d (by simp)).1]
    rw [List.cons_append, chain_cons, chain_cons, hhead]
    repeat' split
    all_goals simp [ih]

theorem ofGroup?_eq (t : Text) :
    ofGroup? t = (ofAtom? (chain t).1).bind fun first => (chain t).2.foldlM link? first := rfl

theorem ofGroup?_of_chain_concat {t u : Text} {joint : Combinator × Text}
    (h : chain u = ((chain t).1, (chain t).2 ++ [joint])) :
    ofGroup? u = (ofGroup? t).bind fun left => link? left joint := by
  rw [ofGroup?_eq, ofGroup?_eq, h, Option.bind_assoc]
  congr
  funext first
  rw [List.foldlM_append]
  simp

/--
How many combinators a chain has.
-/
def joints : Selector → Nat
  | joined left _ _ => left.joints + 1
  | _ => 0

theorem eq_of_named? {make : Text → Option Text → Selector} {qualifier name : Text} {s : Selector}
    (h : named? make qualifier name = some s) :
    ∃ q, s = make name q ∧ qualifier? qualifier = some q ∧ isIdent name := by
  rcases Option.bind_eq_some_iff.1 h with ⟨q, hqualifier, hq⟩
  split at hq
  . next hname => exact ⟨q, (Option.some.inj hq).symm, hqualifier, hname⟩
  . cases hq

theorem eq_of_bracketed? {qualifier t : Text} {s : Selector} (h : bracketed? qualifier t = some s) :
    ∃ name operator value q rest, s = byAttribute name operator value q ∧
      qualifier? qualifier = some q ∧ takeIdent? t = some (name, rest) ∧
        test? rest = some (operator, value) := by
  rcases Option.bind_eq_some_iff.1 h with ⟨q, hqualifier, hq⟩
  rcases Option.bind_eq_some_iff.1 hq with ⟨⟨name, rest⟩, hname, hrest⟩
  rcases Option.bind_eq_some_iff.1 hrest with ⟨⟨operator, value⟩, htest, hs⟩
  exact ⟨name, operator, value, q, rest, (Option.some.inj hs).symm, hqualifier, hname, htest⟩

theorem joints_of_ofSimple? {t : Text} {s : Selector} (h : ofSimple? t = some s) :
    s.joints = 0 := by
  unfold ofSimple? at h
  split at h
  . rcases eq_of_named? h with ⟨q, rfl, -⟩
    rfl
  . split at h
    . rcases eq_of_named? h with ⟨q, rfl, -⟩
      rfl
    . split at h
      . rcases eq_of_bracketed? h with ⟨name, operator, value, q, rest, rfl, -⟩
        rfl
      . split at h
        . cases h
          rfl
        . cases h

theorem joints_of_ofAtom? {t : Text} {s : Selector} (h : ofAtom? t = some s) : s.joints = 0 := by
  unfold ofAtom? at h
  split at h
  . exact joints_of_ofSimple? h
  . split at h
    . cases h
    . rcases Option.map_eq_some_iff.1 h with ⟨inner, -, rfl⟩
      rfl

theorem joints_of_foldlM {js : List (Combinator × Text)} {first s : Selector}
    (h : js.foldlM link? first = some s) : s.joints = first.joints + js.length := by
  induction js generalizing first with
  | nil =>
    cases h
    rfl
  | cons j js ih =>
    rw [List.foldlM_cons] at h
    rcases Option.bind_eq_some_iff.1 h with ⟨next, hnext, hrest⟩
    rcases Option.map_eq_some_iff.1 hnext with ⟨right, -, rfl⟩
    rw [ih hrest, List.length_cons, joints]
    omega

theorem joints_of_ofGroup? {t : Text} {s : Selector} (h : ofGroup? t = some s) :
    s.joints = (chain t).2.length := by
  rw [ofGroup?_eq] at h
  rcases Option.bind_eq_some_iff.1 h with ⟨first, hfirst, hrest⟩
  rw [joints_of_foldlM hrest, joints_of_ofAtom? hfirst]
  omega

end Selector

end Stylesheet
