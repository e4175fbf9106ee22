import Stylesheet.Proofs.Declarations.Segment
import Stylesheet.Proofs.Draft.Comment
import Stylesheet.Proofs.Text.CommaList
import Stylesheet.Proofs.Text.Word
import Stylesheet.Sheet.Basic

/-!
This module contains what holds of every block that is read from a text, however malformed the text
is: each part of a block lacks the signs that would have ended it. It goes from the records, whose
texts are comments or start with an `@`, to the blocks that they are read as.
-/

namespace Stylesheet

/--
A comment with both of its marks, which have no sign in common.
-/
structure Text.IsWholeComment (t : Text) : Prop where
  opens : ['/', '*'] <+: t
  closes : ['*', '/'] <:+ t
  length : 4 ≤ t.length

/--
An at-rule that is none of the known ones, in upper or lower case.
-/
structure Text.IsUnknownAtRule (t : Text) : Prop where
  sign : t.head? = some '@'
  media : ¬Keyword.media <+: t.map Char.toLower
  importRule : ¬Keyword.importRule <+: t.map Char.toLower
  charset : ¬Keyword.charset <+: t.map Char.toLower

/--
An item of a list of media types.
-/
structure Media.IsItem (t : Text) : Prop where
  ne_nil : t ≠ []
  trimmed : Text.trim t = t
  comma : ',' ∉ t

def Media.IsWellFormed (media : Media) : Prop :=
  ∀ types ∈ media, types ≠ [] ∧ ∀ t ∈ types, IsItem t

structure Import.IsWellFormed (i : Import) : Prop where
  quotes : ¬('"' ∈ i.url ∧ '\'' ∈ i.url)
  items : ∀ t ∈ i.mediaTypes, Media.IsItem t
  semicolon : ∀ t ∈ i.mediaTypes, ';' ∉ t

structure Ruleset.IsWellFormed (r : Ruleset) : Prop where
  name : ∃ s, r.selectors.head? = some s ∧ r.name = s.render
  media : r.media.IsWellFormed
  nodup_names : r.declarations.names.Nodup
  names : ∀ entry ∈ r.declarations.entries, isIdent entry.1
  trimmed : ∀ entry ∈ r.declarations.entries, Text.trim entry.2 = entry.2
  semicolon : ∀ entry ∈ r.declarations.entries, ';' ∉ entry.2

def Block.IsWellFormed : Block → Prop
  | comment t => t.IsWholeComment ∨ t.IsUnknownAtRule
  | importRule i => i.IsWellFormed
  | charset name => '"' ∉ name
  | ruleset r => r.IsWellFormed

namespace Draft

/--
Whether the text of an open comment starts with its `/*`.
-/
def Opened (d : Draft) : Prop :=
  ∀ t, d.reading = .comment t → ['/', '*'] <+: t

theorem opened_start : start.Opened := by
  intro t h
  cases h

theorem reading_step_cases (d : Draft) (p : Piece) :
    (d.step p).1.reading = d.reading.add p.text ∨ (d.step p).1.reading = .code ∨
      (d.step p).1.reading = .string ∨ (d.step p).1.reading = .comment ['/', '*'] := by
  unfold Draft.step Draft.stepCode Draft.close Draft.take
  repeat' split
  all_goals simp [Mark.spelling]

theorem Opened.step {d : Draft} (h : d.Opened) (p : Piece) : (d.step p).1.Opened := by
  intro t ht
  rcases reading_step_cases d p with hr | hr | hr | hr
  . cases hd : d.reading with
    | comment u =>
      rw [hr, hd, Reading.add, Reading.comment.injEq] at ht
      rw [← ht]
      exact (h u hd).trans (List.prefix_append u p.text)
    | _ => simp [hr, hd, Reading.add] at ht
  . simp [hr] at ht
  . simp [hr] at ht
  . rw [hr, Reading.comment.injEq] at ht
    subst ht
    exact List.prefix_rfl

theorem text_of_step {d : Draft} (hheaded : d.Headed) (hopened : d.Opened) {p : Piece} {t : Text}
    (h : (d.step p).2 = some (.text t)) : t.IsWholeComment ∨ t.head? = some '@' := by
  rcases step_text_cases h with ⟨u, hcomment, rfl⟩ | ⟨u, w, -, hscope, rfl⟩
  . have hu := hopened u hcomment
    refine .inl ⟨hu.trans (List.prefix_append u _), List.suffix_append u _, ?_⟩
    have hlength := hu.length_le
    simp only [List.length_append, List.length_cons, List.length_nil] at hlength ⊢
    omega
  . have hhead : (u ++ w).head? = some '@' := by
      rw [List.head?_append, hheaded u hscope]
      rfl
    exact .inr (Text.head?_trim hhead rfl)

theorem text_of_mem_run {d : Draft} (hheaded : d.Headed) (hopened : d.Opened) (ps : List Piece) :
    ∀ t, .text t ∈ (d.run ps).2 → t.IsWholeComment ∨ t.head? = some '@' := by
  induction ps generalizing d with
  | nil =>
    intro t ht
    cases ht
  | cons p ps ih =>
    intro t ht
    rw [run_cons, List.mem_append, Option.mem_toList] at ht
    rcases ht with ht | ht
    . exact text_of_step hheaded hopened ht
    . exact ih (hheaded.step p) (hopened.step p) t ht

end Draft

theorem Record.text_of_mem_ofText {t u : Text} (h : .text u ∈ ofText t) :
    u.IsWholeComment ∨ u.head? = some '@' := by
  rw [ofText_eq_read] at h
  exact Draft.text_of_mem_run Draft.headed_start Draft.opened_start _ u h

theorem Media.isItem_of_mem_commaList {t item : Text} (h : item ∈ Text.commaList t) :
    IsItem item :=
  ⟨Text.ne_nil_of_mem_commaList h, Text.trim_of_mem_commaList h,
    Text.comma_not_mem_of_mem_commaList h⟩

theorem Media.isWellFormed_ofText (t : Text) : (ofText t).IsWellFormed := by
  intro types htypes
  unfold ofText at htypes
  split at htypes
  . cases htypes
  . next hne =>
    cases htypes
    exact ⟨hne, fun _ => isItem_of_mem_commaList⟩

namespace Import

theorem isUrlChar_of_bracketed? {t url rest : Text} (h : bracketed? t = some (url, rest)) :
    ∀ c ∈ url, isUrlChar c := by
  intro c hc
  unfold bracketed? at h
  dsimp only at h
  split at h
  . cases h
  . cases h
    rcases Text.exists_trimEnd ((dropQuote (Text.trimStart t)).takeWhile isUrlChar) with
      ⟨w, -, hurl⟩
    apply List.mem_takeWhile_imp
    rw [hurl]
    exact List.mem_append_left w hc
  . split at h
    . cases h
      exact List.mem_takeWhile_imp hc
    . cases h

theorem not_mem_of_quoted? {q : Char} {t url rest : Text} (h : quoted? q t = some (url, rest)) :
    q ∉ url := by
  have hcut := Text.not_mem_cut_fst q t
  unfold quoted? at h
  split at h
  . next heq =>
    cases h
    rwa [heq] at hcut
  . cases h

/--
Each way of writing an address excludes one of the quotes.
-/
theorem quotes_of_url? {t url rest : Text} (h : url? t = some (url, rest)) :
    ¬('"' ∈ url ∧ '\'' ∈ url) := by
  unfold url? at h
  split at h
  . exact fun hmem => not_mem_of_quoted? h hmem.1
  . exact fun hmem => not_mem_of_quoted? h hmem.2
  . rcases Option.bind_eq_some_iff.1 h with ⟨u, -, hbracketed⟩
    intro hmem
    have := isUrlChar_of_bracketed? hbracketed '"' hmem.1
    cases this

theorem semicolon_not_mem_of_mediaList? {t types : Text} (h : mediaList? t = some types) :
    ';' ∉ types := by
  have hcut := Text.not_mem_cut_fst ';' t
  unfold mediaList? at h
  split at h
  . next heq =>
    cases h
    rwa [heq] at hcut
  . cases h

theorem isWellFormed_of_ofText? {t : Text} {i : Import} (h : ofText? t = some i) :
    i.IsWellFormed := by
  rcases ofText?_eq_some_iff.1 h with ⟨rest, rest', types, -, hurl, hlist, hitems⟩
  constructor
  . exact quotes_of_url? hurl
  . rw [← hitems]
    exact fun _ => Media.isItem_of_mem_commaList
  . rw [← hitems]
    intro t ht hsemicolon
    exact semicolon_not_mem_of_mediaList? hlist (Text.mem_of_mem_commaList ht hsemicolon)

end Import

theorem Block.quote_not_mem_of_charset? {t name : Text} (h : charset? t = some name) :
    '"' ∉ name := by
  rcases Option.bind_eq_some_iff.1 h with ⟨rest, -, hname⟩
  split at hname
  . split at hname
    . next rest' _ =>
      have hcut := Text.not_mem_cut_fst '"' rest'
      split at hname
      . next heq =>
        split at hname
        . cases hname
          rwa [heq] at hcut
        . cases hname
      . cases hname
    . cases hname
  . cases hname

theorem Ruleset.isWellFormed_of_ofParts {selectors : List Selector} {declarations : Text}
    {media : Media} (hmedia : media.IsWellFormed) {r : Ruleset}
    (h : ofParts selectors (Declarations.ofText declarations) media = .ok r) : r.IsWellFormed := by
  rcases ofParts_eq_ok_iff.1 h with ⟨-, hdeclarations, rfl⟩
  have hread : ∀ entry ∈ r.declarations.entries, Declarations.isReadable entry := by
    rw [hdeclarations]
    exact Declarations.isReadable_of_mem_ofText
  simp only [Declarations.isReadable_iff] at hread
  constructor
  . exact ⟨r.first, List.head?_eq_some_head r.selectors_ne_nil, rfl⟩
  . exact hmedia
  . exact r.declarations.nodup_names
  . exact fun entry hentry => (hread entry hentry).1
  . exact fun entry hentry => (hread entry hentry).2.1
  . exact fun entry hentry => (hread entry hentry).2.2

namespace Resolution

/--
What a record leaves behind: media types, and perhaps a block, that are well-formed.
-/
structure IsWellFormed (r : Resolution) : Prop where
  media : r.media.IsWellFormed
  block : ∀ b ∈ r.block?, b.IsWellFormed

variable {media : Media}

theorem media_ofText_cases (media : Media) (t : Text) :
    (ofText media t).media = media ∨ ∃ types, (ofText media t).media = Media.ofText types := by
  unfold ofText ofImport ofCharset ofComment
  repeat' split
  all_goals simp

/--
A text is read as an at-rule that its keyword tells, and kept as it is if it has none.
-/
theorem block?_ofText_cases {t : Text} {b : Block} (h : (ofText media t).block? = some b) :
    (∃ i, Import.ofText? t = some i ∧ b = .importRule i) ∨
      (∃ name, Block.charset? t = some name ∧ b = .charset name) ∨
      (b = .comment t ∧ Text.afterWord? Keyword.media t = none ∧
        Text.afterWord? Keyword.importRule t = none ∧
        Text.afterWord? Keyword.charset t = none) := by
  unfold ofText at h
  split at h
  . cases h
  next hmedia =>
  split at h
  . unfold ofImport at h
    split at h
    . next i hi =>
      cases h
      exact .inl ⟨i, hi, rfl⟩
    . cases h
  next himport =>
  split at h
  . unfold ofCharset at h
    split at h
    . next name hname =>
      cases h
      exact .inr (.inl ⟨name, hname, rfl⟩)
    . cases h
  next hcharset =>
  cases h
  rw [Option.not_isSome_iff_eq_none] at himport hcharset
  exact .inr (.inr ⟨rfl, hmedia, himport, hcharset⟩)

theorem isWellFormed_ofText (hmedia : media.IsWellFormed) {t : Text}
    (ht : t.IsWholeComment ∨ t.head? = some '@') : (ofText media t).IsWellFormed := by
  constructor
  . rcases media_ofText_cases media t with hkept | ⟨types, hset⟩
    . rwa [hkept]
    . rw [hset]
      exact Media.isWellFormed_ofText types
  . intro b hb
    rcases block?_ofText_cases hb with ⟨i, hi, rfl⟩ | ⟨name, hname, rfl⟩ |
      ⟨rfl, hnomedia, hnoimport, hnocharset⟩
    . exact Import.isWellFormed_of_ofText? hi
    . exact Block.quote_not_mem_of_charset? hname
    . rw [Text.afterWord?_eq_none_iff] at hnomedia hnoimport hnocharset
      exact ht.imp_right fun hsign => ⟨hsign, hnomedia, hnoimport, hnocharset⟩

theorem isWellFormed_ofRule (hmedia : media.IsWellFormed) (selectors declarations : Text) :
    (ofRule media selectors declarations).IsWellFormed := by
  unfold ofRule
  dsimp only
  split
  . next r hr =>
    refine ⟨hmedia, ?_⟩
    rintro b ⟨⟩
    exact Ruleset.isWellFormed_of_ofParts hmedia hr
  . exact ⟨hmedia, nofun⟩

theorem isWellFormed_ofRecord (hmedia : media.IsWellFormed) {record : Record}
    (h : ∀ t, record = .text t → t.IsWholeComment ∨ t.head? = some '@') :
    (ofRecord media record).IsWellFormed := by
  cases record with
  | text t => exact isWellFormed_ofText hmedia (h t rfl)
  | rule selectors declarations => exact isWellFormed_ofRule hmedia selectors declarations
  | groupEnd => exact ⟨nofun, nofun⟩

theorem isWellFormed_of_mem_ofRecords (hmedia : media.IsWellFormed) {records : List Record}
    (h : ∀ t, .text t ∈ records → t.IsWholeComment ∨ t.head? = some '@') :
    ∀ r ∈ ofRecords media records, r.IsWellFormed := by
  induction records generalizing media with
  | nil => exact fun r hr => absurd hr List.not_mem_nil
  | cons record records ih =>
    have hfirst : (ofRecord media record).IsWellFormed := by
      apply isWellFormed_ofRecord hmedia
      rintro t rfl
      exact h t List.mem_cons_self
    rw [ofRecords, List.forall_mem_cons]
    exact ⟨hfirst, ih hfirst.media fun t ht => h t (List.mem_cons_of_mem record ht)⟩

end Resolution

/--
Every block that is read from a text is well-formed.
-/
theorem Sheet.isWellFormed_of_mem_ofText (t : Text) :
    ∀ b ∈ (ofText t).blocks, b.IsWellFormed := by
  intro b hb
  rcases List.mem_filterMap.1 hb with ⟨r, hr, hblock⟩
  have hmedia : Media.IsWellFormed none := nofun
  exact (Resolution.isWellFormed_of_mem_ofRecords hmedia
    (fun _ => Record.text_of_mem_ofText) r hr).block b hblock

theorem Sheet.isWellFormed_of_mem_ofText_import :
    .importRule ⟨"it's.css".toList, ["tv".toList]⟩ ∈
        (ofText "/*/ @import \"*/;@import \"it's.css\" , tv ;".toList).blocks ∧
      Block.IsWellFormed (.importRule ⟨"it's.css".toList, ["tv".toList]⟩) := by
  have h : .importRule ⟨"it's.css".toList, ["tv".toList]⟩ ∈
      (ofText "/*/ @import \"*/;@import \"it's.css\" , tv ;".toList).blocks := by
    decide
  exact ⟨h, isWellFormed_of_mem_ofText _ _ h⟩

end Stylesheet
