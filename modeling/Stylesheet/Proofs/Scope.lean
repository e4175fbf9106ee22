import Stylesheet.Proofs.Outline

/-!
This module contains the scope of media types over the records of a style sheet. Each record is read
by itself and yields a block or a notice that it is dropped; of the records before it only the last
one that says something about media types matters, and only to the media types of a ruleset.
-/

namespace Stylesheet

/--
What a record says about the media types that hold after it, if it does. A text that starts with
`@media`, in upper or lower case, lists them between commas; no media types hold after a list
without any, and none after the end of a group.
-/
def Record.media? : Record → Option Media
  | text t =>
    if (t.take 6).map Char.toLower = "@media".toList then
      let types := (((t.drop 6).splitOn ',').map Text.trim).filter (· ≠ [])
      some (if types = [] then none else some types)
    else
      none
  | rule _ _ => none
  | groupEnd => some none

theorem Record.media?_text (t : Text) :
    (text t).media? = (Text.afterWord? Keyword.media t).map Media.ofText := by
  have hlength : Keyword.media.length = 6 := rfl
  rw [Text.afterWord?_eq, hlength, media?, Keyword.media]
  split <;> rfl

/--
The media types that hold after records: those that the last record tells that tells any.
-/
def Media.after (records : List Record) : Media :=
  (records.filterMap Record.media?).getLast?.getD none

/--
Whether a notice is more than a trace of a selector that cannot be read.
-/
def Notice.isDebug (n : Notice) : Bool :=
  n.level == .debug

theorem Notice.filter_isDebug_ofSelectors (t : Text) :
    (ofSelectors t).filter isDebug = [] := by
  rw [List.filter_eq_nil_iff]
  intro n hn
  rcases List.mem_map.1 hn with ⟨g, -, rfl⟩
  simp [isDebug, level]

namespace Resolution

/--
All that can come of a record: it sets the media types, or it yields a block, or it is dropped with
one notice.
-/
theorem ofRecord_cases (r : Record) :
    (∃ next, r.media? = some next ∧ ∀ media, ofRecord media r = ⟨next, none, []⟩) ∨
      r.media? = none ∧ ∃ traces, traces.filter Notice.isDebug = [] ∧
        ((∃ b : Block, ∀ media, ofRecord media r = ⟨media, some (b.withMedia media), traces⟩) ∨
          ∃ n, n.isDebug ∧ ∀ media, ofRecord media r = ⟨media, none, traces ++ [n]⟩) := by
  cases r with
  | text t =>
    cases hmedia : Text.afterWord? Keyword.media t with
    | some types =>
      left
      refine ⟨Media.ofText types, by rw [Record.media?_text, hmedia]; rfl, ?_⟩
      intro media
      simp [ofRecord, ofText, hmedia]
    | none =>
      right
      refine ⟨by rw [Record.media?_text, hmedia]; rfl, [], rfl, ?_⟩
      simp only [ofRecord, ofText, hmedia]
      split
      . unfold ofImport
        split
        . next i _ =>
          left
          exact ⟨.importRule i, fun _ => rfl⟩
        . right
          exact ⟨.malformedImport t, rfl, fun _ => rfl⟩
      . split
        . unfold ofCharset
          split
          . next name _ =>
            left
            exact ⟨.charset name, fun _ => rfl⟩
          . right
            exact ⟨.malformedCharset t, rfl, fun _ => rfl⟩
        . left
          exact ⟨.comment t, fun _ => rfl⟩
  | rule selectors declarations =>
    right
    refine ⟨rfl, Notice.ofSelectors selectors, Notice.filter_isDebug_ofSelectors selectors, ?_⟩
    simp only [ofRecord, ofRule, Ruleset.ofParts]
    by_cases h : Selector.ofText selectors = []
    . right
      refine ⟨.droppedRuleset selectors, rfl, ?_⟩
      simp [h]
    . left
      refine ⟨.ruleset ⟨Selector.ofText selectors, Declarations.ofText declarations, none, h⟩, ?_⟩
      simp [h, Block.withMedia]
  | groupEnd =>
    left
    exact ⟨none, rfl, fun _ => rfl⟩

section Record

variable (media : Media) (r : Record)

theorem media_ofRecord : (ofRecord media r).media = r.media?.getD media := by
  rcases ofRecord_cases r with ⟨next, hmedia, h⟩ | ⟨hmedia, traces, -, ⟨b, h⟩ | ⟨n, -, h⟩⟩
  all_goals
    rw [h, hmedia]
    rfl

theorem block?_ofRecord :
    (ofRecord media r).block? = (ofRecord none r).block?.map (Block.withMedia media) := by
  rcases ofRecord_cases r with ⟨next, -, h⟩ | ⟨-, traces, -, ⟨b, h⟩ | ⟨n, -, h⟩⟩
  all_goals simp [h]

theorem notices_ofRecord : (ofRecord media r).notices = (ofRecord none r).notices := by
  rcases ofRecord_cases r with ⟨next, -, h⟩ | ⟨-, traces, -, ⟨b, h⟩ | ⟨n, -, h⟩⟩
  all_goals simp [h]

theorem length_ofRecord :
    (ofRecord media r).block?.toList.length +
        ((ofRecord media r).notices.filter Notice.isDebug).length =
      if r.media?.isNone then 1 else 0 := by
  rcases ofRecord_cases r with ⟨next, hmedia, h⟩ | ⟨hmedia, traces, htraces, ⟨b, h⟩ | ⟨n, hn, h⟩⟩
  . simp [h, hmedia]
  . simp [h, hmedia, htraces]
  . simp [h, hmedia, htraces, hn]

end Record

theorem mediaAfter_eq (media : Media) (records : List Record) :
    mediaAfter media records = (records.filterMap Record.media?).getLast?.getD media := by
  induction records generalizing media with
  | nil => rfl
  | cons r records ih =>
    rw [mediaAfter, ih, media_ofRecord, List.filterMap_cons]
    cases r.media? with
    | none => rfl
    | some next =>
      rw [List.getLast?_cons]
      rfl

theorem filterMap_block?_ofRecords (media : Media) (records : List Record) :
    (ofRecords media records).filterMap (·.block?) =
      (records.mapIdx fun i r =>
        (ofRecord (mediaAfter media (records.take i)) r).block?.toList).flatten := by
  induction records generalizing media with
  | nil => rfl
  | cons r records ih =>
    have hrest := ih (ofRecord media r).media
    rw [List.filterMap_eq_flatMap_toList] at hrest ⊢
    rw [ofRecords, List.flatMap_cons, hrest, List.mapIdx_cons, List.flatten_cons]
    rfl

theorem flatMap_notices_ofRecords (media : Media) (records : List Record) :
    (ofRecords media records).flatMap (·.notices) =
      records.flatMap fun r => (ofRecord none r).notices := by
  induction records generalizing media with
  | nil => rfl
  | cons r records ih =>
    rw [ofRecords, List.flatMap_cons, List.flatMap_cons, ih, notices_ofRecord]

theorem length_ofRecords (media : Media) (records : List Record) :
    ((ofRecords media records).filterMap (·.block?)).length +
        (((ofRecords media records).flatMap (·.notices)).filter Notice.isDebug).length =
      records.countP (·.media?.isNone) := by
  induction records generalizing media with
  | nil => rfl
  | cons r records ih =>
    have hfirst := length_ofRecord media r
    have hrest := ih (ofRecord media r).media
    rw [List.filterMap_eq_flatMap_toList] at hrest ⊢
    rw [ofRecords, List.flatMap_cons, List.flatMap_cons, List.filter_append, List.length_append,
      List.length_append, List.countP_cons, ← hfirst, ← hrest]
    omega

end Resolution

section Single

theorem Block.ofRecords_singleton (r : Record) :
    ofRecords [r] = (Resolution.ofRecord none r).block?.toList := by
  rw [ofRecords, List.filterMap_eq_flatMap_toList]
  simp [Resolution.ofRecords]

theorem Notice.ofRecords_singleton (r : Record) :
    ofRecords [r] = (Resolution.ofRecord none r).notices := by
  simp [ofRecords, Resolution.ofRecords]

theorem Block.ofRecords_rule (selectors declarations : Text) :
    ofRecords [.rule selectors declarations] =
      if h : Selector.ofText selectors = [] then
        []
      else
        [.ruleset ⟨Selector.ofText selectors, Declarations.ofText declarations, none, h⟩] := by
  rw [ofRecords_singleton]
  simp only [Resolution.ofRecord, Resolution.ofRule, Ruleset.ofParts]
  by_cases h : Selector.ofText selectors = []
  . simp [h]
  . simp [h]

theorem Block.ruleset?_ofRecords_text (t : Text) :
    ∀ b ∈ ofRecords [.text t], b.ruleset? = none := by
  rw [ofRecords_singleton]
  simp only [Resolution.ofRecord, Resolution.ofText, Resolution.ofImport, Resolution.ofCharset]
  repeat' split
  all_goals simp [Resolution.ofComment, ruleset?]

end Single

/--
Each record yields what it yields alone, but for the media types of a ruleset, which are those that
hold after the records before it. Alone, a record yields one block or one notice that it is dropped,
or neither if it says something about media types. Rulesets come from rules, and of these only the
ones without selectors are dropped.
-/
theorem Block.ofRecords_eq_flatten (records : List Record) :
    ofRecords records =
        (records.mapIdx fun i r =>
          (ofRecords [r]).map (withMedia (Media.after (records.take i)))).flatten ∧
      Notice.ofRecords records = records.flatMap (fun r => Notice.ofRecords [r]) ∧
      (∀ r, (ofRecords [r]).length + ((Notice.ofRecords [r]).filter Notice.isDebug).length =
        if r.media?.isNone then 1 else 0) ∧
      (ofRecords records).length + ((Notice.ofRecords records).filter Notice.isDebug).length =
        records.countP (·.media?.isNone) ∧
      (∀ t, ∀ b ∈ ofRecords [.text t], b.ruleset? = none) ∧
      ∀ selectors declarations, ofRecords [.rule selectors declarations] =
        if h : Selector.ofText selectors = [] then
          []
        else
          [.ruleset ⟨Selector.ofText selectors, Declarations.ofText declarations, none, h⟩] := by
  refine ⟨?_, ?_, ?_, ?_, ruleset?_ofRecords_text, ofRecords_rule⟩
  . have hblock (media : Media) (r : Record) : (ofRecords [r]).map (withMedia media) =
        (Resolution.ofRecord media r).block?.toList := by
      rw [ofRecords_singleton, Resolution.block?_ofRecord media]
      cases (Resolution.ofRecord none r).block? <;> rfl
    have hmedia (i : Nat) : Media.after (records.take i) =
        Resolution.mediaAfter none (records.take i) := by
      rw [Resolution.mediaAfter_eq, Media.after]
    simp only [hblock, hmedia]
    apply Resolution.filterMap_block?_ofRecords
  . rw [Notice.ofRecords, Resolution.flatMap_notices_ofRecords]
    simp only [Notice.ofRecords_singleton]
  . intro r
    rw [ofRecords_singleton, Notice.ofRecords_singleton]
    exact Resolution.length_ofRecord none r
  . exact Resolution.length_ofRecords none records

end Stylesheet
