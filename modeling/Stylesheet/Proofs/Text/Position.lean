import Stylesheet.Text.Bytes

/-!
This module contains the laws of positions in a text that goes on: what is cut off before a position
or between two of them does not depend on what follows. Of two positions, the later one has more code
points before it.
-/

namespace Stylesheet
namespace Text

theorem isBoundary_zero (t : Text) : IsBoundary t 0 :=
  ⟨[], t, rfl, rfl⟩

theorem isBoundary_byteSize (t : Text) : IsBoundary t t.byteSize :=
  ⟨t, [], by simp, rfl⟩

theorem IsBoundary.append {t : Text} {n : Nat} (h : IsBoundary t n) (u : Text) :
    IsBoundary (t ++ u) n := by
  rcases h with ⟨before, after, rfl, hn⟩
  exact ⟨before, after ++ u, by simp, hn⟩

theorem IsBoundary.le_byteSize {t : Text} {n : Nat} (h : IsBoundary t n) : n ≤ t.byteSize := by
  rcases h with ⟨before, after, rfl, rfl⟩
  rw [byteSize_append]
  exact Nat.le_add_right _ _

theorem takeBytes_append_dropBytes (n : Nat) (t : Text) :
    takeBytes n t ++ dropBytes n t = t := by
  induction t generalizing n with
  | nil => cases n <;> rfl
  | cons c t ih =>
    cases n with
    | zero => rfl
    | succ n => rw [takeBytes, dropBytes, List.cons_append, ih]

theorem isBoundary_iff {t : Text} {n : Nat} :
    IsBoundary t n ↔ (takeBytes n t).byteSize = n := by
  constructor
  . rintro ⟨before, after, rfl, rfl⟩
    rw [takeBytes_append]
  . intro h
    exact ⟨takeBytes n t, dropBytes n t, (takeBytes_append_dropBytes n t).symm, h⟩

instance (t : Text) (n : Nat) : Decidable (IsBoundary t n) :=
  decidable_of_iff _ isBoundary_iff.symm

@[simp]
theorem dropBytes_zero (t : Text) : dropBytes 0 t = t := by
  simp [dropBytes]

@[simp]
theorem dropBytes_byteSize (t : Text) : dropBytes t.byteSize t = [] := by
  simpa using dropBytes_append t []

theorem IsBoundary.dropBytes_append {t : Text} {n : Nat} (h : IsBoundary t n) (u : Text) :
    dropBytes n (t ++ u) = dropBytes n t ++ u := by
  rcases h with ⟨before, after, rfl, rfl⟩
  rw [List.append_assoc, Text.dropBytes_append, Text.dropBytes_append]

theorem IsBoundary.slice_eq {t : Text} {n : Nat} (h : IsBoundary t n) (u : Text) :
    slice (t ++ u) n t.byteSize = dropBytes n t := by
  rcases h with ⟨before, after, rfl, rfl⟩
  rw [Text.dropBytes_append, byteSize_append]
  exact slice_append before after u

theorem IsBoundary.byteSize_slice {t : Text} {m n : Nat} (hm : IsBoundary t m)
    (hn : IsBoundary t n) (h : m ≤ n) : (slice t m n).byteSize = n - m := by
  rcases hm with ⟨a, b, rfl, rfl⟩
  rcases hn with ⟨c, d, hcut, rfl⟩
  rcases List.append_eq_append_iff.1 hcut with ⟨u, rfl, rfl⟩ | ⟨u, rfl, rfl⟩
  . rw [← List.append_assoc, byteSize_append, slice_append, Nat.add_sub_cancel_left]
  . have hle : c.byteSize ≤ byteSize (c ++ u) := by
      rw [byteSize_append]
      exact Nat.le_add_right _ _
    rw [slice, Nat.sub_eq_zero_of_le hle]
    simp [takeBytes]

theorem IsBoundary.length_takeBytes_lt {t : Text} {m n : Nat} (hm : IsBoundary t m)
    (hn : IsBoundary t n) (h : m < n) : (takeBytes m t).length < (takeBytes n t).length := by
  rcases hm with ⟨a, b, rfl, rfl⟩
  rcases hn with ⟨c, d, hcut, rfl⟩
  rw [takeBytes_append, hcut, takeBytes_append]
  rcases List.append_eq_append_iff.1 hcut with ⟨u, rfl, -⟩ | ⟨u, rfl, -⟩
  . cases u with
    | nil => simp at h
    | cons e u => simp
  . rw [byteSize_append] at h
    omega

@[simp]
theorem escapedAt_byteSize (t u : Text) : escapedAt (t ++ u) t.byteSize = escapes t := by
  simp [escapedAt]

end Text
end Stylesheet
