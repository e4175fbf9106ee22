import Stylesheet.Proofs.Draft.Clear
import Stylesheet.Proofs.Draft.Refinement
import Stylesheet.Sheet.Basic

/-!
This module contains what the records and the blocks of a text say about those of a longer text. A
text that goes on keeps the records that it has. What follows a text at whose end nothing is open is
read as if it stood alone; for blocks no media types may hold there either.
-/

namespace Stylesheet

/--
Whether nothing is open after the text `t`, and all that is collected or still to be collected of
it is blank.
-/
structure State.IsClear (s : State) (t : Text) : Prop where
  reading : s.reading = .code
  scope : s.scope = .outer
  blank : Text.blank (s.buffer ++ t.dropBytes s.taken)

theorem State.IsClear.draft {s : State} {t : Text} (h : s.IsClear t) : (s.draft t).IsClear := by
  constructor
  . simp [State.draft, h.reading, Reading.draft]
  . simp [State.draft, h.scope, Scope.draft]
  . have hblank := h.blank
    simp only [State.draft, h.reading, Reading.draft, Draft.Reading.collect]
    exact hblank

namespace Record

theorem ofText_prefix (a b : Text) : ofText a <+: ofText (a ++ b) := by
  rw [ofText_eq_read, ofText_eq_read]
  unfold Draft.read
  rcases Piece.ofText_append_or a b with hab | ⟨ps, c, m, b', -, -, ha, hab⟩
  . rw [hab, Draft.run_append]
    exact List.prefix_append _ _
  . -- The half of a comment mark at the end completes no record.
    rw [ha, hab, Draft.run_append, Draft.run_append, Draft.run_cons, Draft.step_char]
    simp

theorem ofText_append_of_isClear {a : Text} (h : (State.ofText a).IsClear a) (b : Text) :
    ofText (a ++ b) = ofText a ++ ofText b := by
  have hclear := h.draft
  rw [State.draft_ofText] at hclear
  rw [ofText_eq_read, ofText_eq_read, ofText_eq_read]
  exact (Draft.read_append_of_isClear hclear b).2

end Record

namespace Resolution

/--
The media types that hold after the records, when `media` holds before the first one.
-/
def mediaAfter (media : Media) : List Record → Media
  | [] => media
  | record :: records => mediaAfter (ofRecord media record).media records

theorem mediaAfter_append (media : Media) (rs rs' : List Record) :
    mediaAfter media (rs ++ rs') = mediaAfter (mediaAfter media rs) rs' := by
  induction rs generalizing media with
  | nil => rfl
  | cons r rs ih => exact ih (ofRecord media r).media

theorem ofRecords_append (media : Media) (rs rs' : List Record) :
    ofRecords media (rs ++ rs') =
      ofRecords media rs ++ ofRecords (mediaAfter media rs) rs' := by
  induction rs generalizing media with
  | nil => rfl
  | cons r rs ih => simp [ofRecords, mediaAfter, ih]

end Resolution

theorem Block.ofRecords_append (rs rs' : List Record) :
    ofRecords (rs ++ rs') =
      ofRecords rs ++
        (Resolution.ofRecords (Resolution.mediaAfter none rs) rs').filterMap (·.block?) := by
  unfold ofRecords
  rw [Resolution.ofRecords_append, List.filterMap_append]

/--
A first part of a text has a first part of its records and of its blocks, wherever the text is cut.
-/
theorem Sheet.blocks_ofText_prefix (a b : Text) :
    Record.ofText a <+: Record.ofText (a ++ b) ∧
      (Sheet.ofText a).blocks <+: (Sheet.ofText (a ++ b)).blocks := by
  have hrecords := Record.ofText_prefix a b
  refine ⟨hrecords, ?_⟩
  rcases hrecords with ⟨rs, hrs⟩
  unfold Sheet.ofText
  rw [← hrs, Block.ofRecords_append]
  exact List.prefix_append _ _

/--
A text goes on afresh after one that leaves nothing open, and so do its blocks if no media types
hold in between.
-/
theorem Sheet.blocks_ofText_append {a : Text} (h : (State.ofText a).IsClear a) (b : Text) :
    Record.ofText (a ++ b) = Record.ofText a ++ Record.ofText b ∧
      (Resolution.mediaAfter none (Record.ofText a) = none →
        (Sheet.ofText (a ++ b)).blocks = (Sheet.ofText a).blocks ++ (Sheet.ofText b).blocks) := by
  have hrecords := Record.ofText_append_of_isClear h b
  refine ⟨hrecords, ?_⟩
  intro hmedia
  unfold Sheet.ofText
  rw [hrecords, Block.ofRecords_append, hmedia]
  rfl

theorem Sheet.blocks_ofText_append_ruleset :
    (State.ofText "@import 'a'; p\x7bq: r\x7d /* c */ ".toList).IsClear
        "@import 'a'; p\x7bq: r\x7d /* c */ ".toList ∧
      Resolution.mediaAfter none (Record.ofText "@import 'a'; p\x7bq: r\x7d /* c */ ".toList) =
        none ∧
      (Sheet.ofText ("@import 'a'; p\x7bq: r\x7d /* c */ ".toList ++ "*/ x\x7b".toList)).blocks =
        (Sheet.ofText "@import 'a'; p\x7bq: r\x7d /* c */ ".toList).blocks ++
          (Sheet.ofText "*/ x\x7b".toList).blocks := by
  have hclear : (State.ofText "@import 'a'; p\x7bq: r\x7d /* c */ ".toList).IsClear
      "@import 'a'; p\x7bq: r\x7d /* c */ ".toList :=
    ⟨by decide, by decide, by decide⟩
  have hmedia : Resolution.mediaAfter none
      (Record.ofText "@import 'a'; p\x7bq: r\x7d /* c */ ".toList) = none := by
    decide
  exact ⟨hclear, hmedia, (blocks_ofText_append hclear _).2 hmedia⟩

end Stylesheet
