import Mathlib.Data.List.Basic
import Stylesheet.Proofs.Sheet.Basic

/-!
This module contains what a removal does to a sheet. Of the positions given, those count that the
sheet has, and each of them once, in whatever order and however often they are given. The blocks
that are left move up by the number of blocks that are removed before them. The same comes of
marking the blocks to remove one after the other, and of removing them one by one from the last one.
-/

namespace Stylesheet
namespace Sheet

/--
How many of the positions before `i` are given.
-/
def removedBelow (indices : List Nat) (i : Nat) : Nat :=
  (List.range i).countP (· ∈ indices)

/--
Where a block is after a removal if it stays and was at `i` before.
-/
def shifted (indices : List Nat) (i : Nat) : Nat :=
  i - removedBelow indices i

section Shift

variable (indices : List Nat)

theorem removedBelow_succ (i : Nat) :
    removedBelow indices (i + 1) = removedBelow indices i + if i ∈ indices then 1 else 0 := by
  simp [removedBelow, List.range_succ, List.countP_append, List.countP_singleton]

theorem removedBelow_le (i : Nat) : removedBelow indices i ≤ i := by
  have hle := List.countP_le_length (p := fun j => decide (j ∈ indices)) (l := List.range i)
  rwa [List.length_range] at hle

theorem removedBelow_concat (index n : Nat) :
    removedBelow (indices ++ [index]) n =
      removedBelow indices n + if index < n ∧ index ∉ indices then 1 else 0 := by
  induction n with
  | zero => rfl
  | succ n ih =>
    rw [removedBelow_succ, removedBelow_succ, ih]
    simp only [List.mem_append, List.mem_singleton]
    grind

theorem shifted_succ (i : Nat) :
    shifted indices (i + 1) = shifted indices i + if i ∈ indices then 0 else 1 := by
  have hle := removedBelow_le indices i
  rw [shifted, shifted, removedBelow_succ]
  split <;> omega

variable {indices}

theorem shifted_le_shifted {i j : Nat} (h : i ≤ j) : shifted indices i ≤ shifted indices j := by
  induction h with
  | refl => exact Nat.le_refl _
  | step h ih =>
    rw [Nat.succ_eq_add_one, shifted_succ]
    omega

/--
Blocks that stay keep their order.
-/
theorem shifted_lt_shifted {i j : Nat} (hi : i ∉ indices) (h : i < j) :
    shifted indices i < shifted indices j := by
  have hnext := shifted_succ indices i
  have hle : shifted indices (i + 1) ≤ shifted indices j := shifted_le_shifted h
  rw [if_neg hi] at hnext
  omega

theorem shifted_inj {i j : Nat} (hi : i ∉ indices) (hj : j ∉ indices) :
    shifted indices i = shifted indices j ↔ i = j := by
  refine ⟨?_, fun h => by rw [h]⟩
  intro h
  rcases Nat.lt_trichotomy i j with hlt | heq | hgt
  . have := shifted_lt_shifted hi hlt
    omega
  . exact heq
  . have := shifted_lt_shifted hj hgt
    omega

theorem shifted_eq_self {i : Nat} (h : ∀ j ∈ indices, i ≤ j) : shifted indices i = i := by
  have hnone : removedBelow indices i = 0 := by
    rw [removedBelow, List.countP_eq_zero]
    intro j hj hmem
    have hle := h j (by simpa using hmem)
    rw [List.mem_range] at hj
    omega
  rw [shifted, hnone, Nat.sub_zero]

end Shift

section Removal

variable (s : Sheet) (indices : List Nat)

theorem length_remove : (s.remove indices).length = shifted indices s.length := by
  induction s using add_induction with
  | empty => rfl
  | add s b ih =>
    rw [remove_add, length_add, shifted_succ, ← ih]
    split
    . rfl
    . rw [length_add]

theorem length_remove_add_removedBelow :
    (s.remove indices).length + removedBelow indices s.length = s.length := by
  have hle := removedBelow_le indices s.length
  rw [length_remove, shifted]
  omega

theorem map_block?_kept :
    (s.remove indices).blocks.map some =
      ((List.range s.length).filter (· ∉ indices)).map s.block? := by
  induction s using add_induction with
  | empty => rfl
  | add s b ih =>
    have hbefore : ((List.range s.length).filter (· ∉ indices)).map (s.add b).block? =
        ((List.range s.length).filter (· ∉ indices)).map s.block? := by
      apply List.map_congr_left
      intro i hi
      have hlt := List.mem_range.1 (List.mem_filter.1 hi).1
      rw [block?_add, if_neg (by omega)]
    have hlast : (s.add b).block? s.length = some b := by
      rw [block?_add, if_pos rfl]
    rw [length_add, List.range_succ, List.filter_append, List.map_append, hbefore, ← ih, remove_add]
    by_cases h : s.length ∈ indices
    . simp [h]
    . have hkept : [s.length].filter (· ∉ indices) = [s.length] := by
        simp [h]
      rw [hkept, List.map_singleton, hlast, if_neg h]
      simp [add]

variable {s indices}

theorem block?_shifted {i : Nat} (h : i ∉ indices) :
    (s.remove indices).block? (shifted indices i) = s.block? i := by
  induction s using add_induction with
  | empty => rfl
  | add s b ih =>
    rw [remove_add, block?_add]
    by_cases hlast : s.length ∈ indices
    . rw [if_pos hlast, ih, if_neg (ne_of_mem_of_not_mem hlast h).symm]
    . rw [if_neg hlast, block?_add, ih, length_remove]
      simp only [shifted_inj h hlast]

theorem remove_congr {indices' : List Nat} (h : ∀ i < s.length, i ∈ indices' ↔ i ∈ indices) :
    s.remove indices' = s.remove indices := by
  rw [remove, remove]
  congr 1
  apply List.filterMap_congr
  rintro ⟨b, i⟩ hi
  have hlt := List.snd_lt_of_mem_zipIdx hi
  simp [h i (by simpa [length] using hlt)]

theorem removedBelow_congr {indices' : List Nat} {n : Nat}
    (h : ∀ i < n, i ∈ indices' ↔ i ∈ indices) :
    removedBelow indices' n = removedBelow indices n := by
  apply List.countP_congr
  intro i hi
  simp [h i (List.mem_range.1 hi)]

/--
Two removals come to one of all positions, when the second one is given the places to which the
blocks have moved.
-/
theorem remove_remove (s : Sheet) (indices indices' : List Nat) :
    (s.remove indices).remove ((indices'.filter (· ∉ indices)).map (shifted indices)) =
      s.remove (indices ++ indices') := by
  induction s using add_induction with
  | empty => rfl
  | add s b ih =>
    rw [remove_add, remove_add]
    by_cases h : s.length ∈ indices
    . rw [if_pos h, if_pos (List.mem_append_left indices' h), ih]
    . have hmem : (s.remove indices).length ∈
          (indices'.filter (· ∉ indices)).map (shifted indices) ↔ s.length ∈ indices' := by
        rw [length_remove, List.mem_map]
        constructor
        . rintro ⟨i, hi, heq⟩
          rw [List.mem_filter, decide_eq_true_eq] at hi
          rw [shifted_inj hi.2 h] at heq
          rw [← heq]
          exact hi.1
        . intro hlast
          exact ⟨s.length, by simp [hlast, h], rfl⟩
      rw [if_neg h, remove_add, ih]
      simp only [hmem, List.mem_append, h, false_or]

theorem foldl_remove_of_pairwise {indices : List Nat} (h : indices.Pairwise (· > ·)) (s : Sheet) :
    indices.foldl (fun t i => t.remove [i]) s = s.remove indices := by
  induction indices generalizing s with
  | nil => rw [remove_nil, List.foldl_nil]
  | cons i indices ih =>
    rw [List.pairwise_cons] at h
    rcases h with ⟨hi, hrest⟩
    -- The blocks before the one that is removed stay where they are.
    have hstay : (indices.filter (· ∉ [i])).map (shifted [i]) = indices := by
      have hfilter : indices.filter (· ∉ [i]) = indices := by
        rw [List.filter_eq_self]
        intro j hj
        have := hi j hj
        simp
        omega
      have hshifted : ∀ j ∈ indices, shifted [i] j = j := by
        intro j hj
        apply shifted_eq_self
        have := hi j hj
        simp
        omega
      rw [hfilter, List.map_congr_left hshifted, List.map_id']
    have hboth := remove_remove s [i] indices
    rw [hstay, List.singleton_append] at hboth
    rw [List.foldl_cons, ih hrest, hboth]

theorem removalCount_concat (s : Sheet) (indices : List Nat) (index : Nat) :
    s.removalCount (indices ++ [index]) =
      s.removalCount indices + if index < s.length ∧ index ∉ indices then 1 else 0 := by
  rw [removalCount, List.filter_append, List.eraseDups_append, List.length_append, ← removalCount]
  by_cases hlt : index < s.length
  . by_cases hmem : index ∈ indices <;> simp [List.removeAll, List.eraseDups_cons, hlt, hmem]
  . simp [List.removeAll, hlt]

theorem removalCount_eq (s : Sheet) (indices : List Nat) :
    s.removalCount indices = removedBelow indices s.length := by
  induction indices using List.reverseRecOn with
  | nil => simp [removalCount, removedBelow]
  | append_singleton indices index ih => rw [removalCount_concat, removedBelow_concat, ih]

end Removal

/--
A removal that has gone through some of the positions given: a mark for each block that is to be
removed, the number of these blocks, and the notices so far.
-/
structure Marking where
  marks : List Bool
  count : Nat
  notices : List Notice

namespace Marking

def start (s : Sheet) : Marking :=
  ⟨List.replicate s.length false, 0, []⟩

def mark (m : Marking) (index : Nat) : Marking :=
  match m.marks[index]? with
  | none => { m with notices := m.notices ++ [.ignoredIndex index m.marks.length] }
  | some true => m
  | some false => { m with marks := m.marks.set index true, count := m.count + 1 }

def run (s : Sheet) (indices : List Nat) : Marking :=
  indices.foldl mark (start s)

/--
The blocks without a mark.
-/
def keep (m : Marking) (blocks : List Block) : List Block :=
  (blocks.zip m.marks).filterMap fun (b, isMarked) => if isMarked then none else some b

/--
Whether a removal has gone through exactly the given positions.
-/
structure Covers (s : Sheet) (indices : List Nat) (m : Marking) : Prop where
  length : m.marks.length = s.length
  marks : ∀ i < s.length, m.marks[i]? = some (decide (i ∈ indices))
  count : m.count = s.removalCount indices
  notices : m.notices = Notice.ofRemoval s indices

variable {s : Sheet} {indices : List Nat} {m : Marking}

theorem covers_start (s : Sheet) : Covers s [] (start s) := by
  constructor
  . simp [start]
  . intro i hi
    simp [start, hi]
  . rfl
  . rfl

/--
What going through one more position does: it notes a position that the sheet does not have, and
marks a block that has no mark yet.
-/
theorem Covers.mark_cases (h : Covers s indices m) (index : Nat) :
    (s.length ≤ index ∧
      m.mark index = { m with notices := m.notices ++ [.ignoredIndex index s.length] }) ∨
    (index < s.length ∧ index ∈ indices ∧ m.mark index = m) ∨
    (index < s.length ∧ index ∉ indices ∧
      m.mark index = { m with marks := m.marks.set index true, count := m.count + 1 }) := by
  rcases Nat.lt_or_ge index s.length with hlt | hle
  . have hmark := h.marks index hlt
    by_cases hmem : index ∈ indices
    . exact .inr (.inl ⟨hlt, hmem, by simp [mark, hmark, hmem]⟩)
    . exact .inr (.inr ⟨hlt, hmem, by simp [mark, hmark, hmem]⟩)
  . have hnone : m.marks[index]? = none := by
      rw [List.getElem?_eq_none_iff, h.length]
      exact hle
    exact .inl ⟨hle, by simp [mark, hnone, h.length]⟩

theorem Covers.mark (h : Covers s indices m) (index : Nat) :
    Covers s (indices ++ [index]) (m.mark index) := by
  have hcount := removalCount_concat s indices index
  have hother (i : Nat) (hi : i < s.length) (hne : i ≠ index) :
      m.marks[i]? = some (decide (i ∈ indices ++ [index])) := by
    simp [h.marks i hi, hne]
  rcases h.mark_cases index with ⟨hle, hmark⟩ | ⟨hlt, hmem, hmark⟩ | ⟨hlt, hmem, hmark⟩
  . rw [hmark]
    refine ⟨h.length, fun i hi => hother i hi (by omega), ?_, ?_⟩
    . simp [hcount, h.count, Nat.not_lt.2 hle]
    . simp [h.notices, Notice.ofRemoval, hle]
  . rw [hmark]
    refine ⟨h.length, ?_, ?_, ?_⟩
    . intro i hi
      by_cases heq : i = index
      . simp [heq, h.marks index hlt, hmem]
      . exact hother i hi heq
    . simp [hcount, h.count, hmem]
    . simp [h.notices, Notice.ofRemoval, hlt]
  . rw [hmark]
    refine ⟨by rw [List.length_set, h.length], ?_, ?_, ?_⟩
    . intro i hi
      by_cases heq : i = index
      . simp [heq, h.length, hlt]
      . rw [List.getElem?_set_ne (Ne.symm heq)]
        exact hother i hi heq
    . simp [hcount, h.count, hmem, hlt]
    . simp [h.notices, Notice.ofRemoval, hlt]

theorem covers_run (s : Sheet) (indices : List Nat) : Covers s indices (run s indices) := by
  induction indices using List.reverseRecOn with
  | nil => exact covers_start s
  | append_singleton indices index ih =>
    rw [run, List.foldl_concat, ← run]
    exact ih.mark index

theorem Covers.keep (h : Covers s indices m) : m.keep s.blocks = (s.remove indices).blocks := by
  have hzip : s.blocks.zip m.marks =
      s.blocks.zipIdx.map fun p => (p.1, decide (p.2 ∈ indices)) := by
    apply List.ext_getElem
    . rw [List.length_zip, h.length, List.length_map, List.length_zipIdx, Sheet.length,
        Nat.min_self]
    . intro i hi _
      rw [List.length_zip, Nat.lt_min] at hi
      have hmark := List.getElem_eq_iff hi.2 |>.2 (h.marks i hi.1)
      simp [hmark]
  rw [Marking.keep, hzip, List.filterMap_map, remove]
  apply List.filterMap_congr
  rintro ⟨b, index⟩ -
  simp

end Marking

/--
A removal leaves exactly the blocks at positions that are not given, in order, and counts the
others; it notes each position that the sheet does not have. Only the positions that the sheet has
matter, not how they are given, and removals that follow one another come to one removal.
-/
theorem remove_compacts (s : Sheet) (indices : List Nat) :
    (s.remove indices).blocks.map some =
        ((List.range s.length).filter (· ∉ indices)).map s.block? ∧
      s.removalCount indices = removedBelow indices s.length ∧
      (s.remove indices).length + s.removalCount indices = s.length ∧
      (Notice.ofRemoval s indices).map (fun n => (n.level, n.message)) =
        (indices.filter fun i => (s.block? i).isNone).map (fun i =>
          (.debug, "ignoring block index ".toList ++ Nat.toDigits 10 i ++
            ": stylesheet has ".toList ++ Nat.toDigits 10 s.length ++ " blocks".toList)) ∧
      ((Marking.run s indices).keep s.blocks = (s.remove indices).blocks ∧
        (Marking.run s indices).count = s.removalCount indices ∧
        (Marking.run s indices).notices = Notice.ofRemoval s indices) ∧
      (∀ indices', (∀ i < s.length, i ∈ indices' ↔ i ∈ indices) →
        s.remove indices' = s.remove indices ∧
          s.removalCount indices' = s.removalCount indices) ∧
      ((List.range s.length).reverse.filter (· ∈ indices)).foldl (fun t i => t.remove [i]) s =
        s.remove indices ∧
      (∀ i, i ∉ indices → (s.remove indices).block? (shifted indices i) = s.block? i) ∧
      ∀ indices', (s.remove indices).remove
          ((indices'.filter (· ∉ indices)).map (shifted indices)) =
        s.remove (indices ++ indices') := by
  have hrun := Marking.covers_run s indices
  refine ⟨map_block?_kept s indices, removalCount_eq s indices, ?_, ?_,
    ⟨hrun.keep, hrun.count, hrun.notices⟩, ?_, ?_, fun i => block?_shifted,
    remove_remove s indices⟩
  . rw [removalCount_eq]
    exact length_remove_add_removedBelow s indices
  . have hnone (i : Nat) : (s.block? i).isNone = decide (s.length ≤ i) := by
      rw [block?, length, Bool.eq_iff_iff]
      simp
    simp only [hnone, Notice.ofRemoval, List.map_map]
    rfl
  . intro indices' h
    rw [removalCount_eq, removalCount_eq]
    exact ⟨remove_congr h, removedBelow_congr h⟩
  . rw [foldl_remove_of_pairwise]
    . apply remove_congr
      intro i hi
      simp [hi]
    . apply List.Pairwise.filter
      rw [List.pairwise_reverse]
      exact List.pairwise_lt_range

theorem remove_compacts_repeated :
    (∀ i < (ofText "/*a*/b{}/*c*/".toList).length, i ∈ [0, 2] ↔ i ∈ [2, 0, 7, 2]) ∧
      (ofText "/*a*/b{}/*c*/".toList).remove [0, 2] =
        (ofText "/*a*/b{}/*c*/".toList).remove [2, 0, 7, 2] := by
  have hsame : ∀ i < (ofText "/*a*/b{}/*c*/".toList).length, i ∈ [0, 2] ↔ i ∈ [2, 0, 7, 2] := by
    decide
  rcases remove_compacts (ofText "/*a*/b{}/*c*/".toList) [2, 0, 7, 2] with
    ⟨-, -, -, -, -, hcongr, -⟩
  exact ⟨hsame, (hcongr [0, 2] hsame).1⟩

end Sheet
end Stylesheet
