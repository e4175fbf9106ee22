import Stylesheet.Proofs.Canonical
import Stylesheet.Proofs.Draft.Reads
import Stylesheet.Proofs.Text.Word
import Stylesheet.Block.Printer
import Stylesheet.Block.Resolution

/-!
This module contains the reading of at-rules as they are written.
-/

namespace Stylesheet

namespace Import

def typesText (i : Import) : Text :=
  if i.mediaTypes = [] then [] else ' ' :: Text.ofCommaList i.mediaTypes

theorem render_eq (i : Import) :
    i.render = "@import url(".toList ++ '"' :: (i.url ++ '"' :: ')' :: (i.typesText ++ [';'])) := by
  have hopen : "@import url(\"".toList = "@import url(".toList ++ ['"'] := by
    decide
  have hclose : "\")".toList = ['"', ')'] := by
    decide
  unfold render typesText
  rw [hopen, hclose, List.append_assoc, List.append_assoc, List.append_assoc, List.append_assoc]
  rfl

variable {i : Import}

theorem IsCanonical.isSealed_typesText (h : i.IsCanonical) :
    Text.isSealed ['{', '}', ';'] i.typesText := by
  unfold typesText
  split
  . rfl
  . rw [Text.isSealed, Text.isSealedFrom_plain_cons (by decide)]
    exact Media.IsType.isSealed_ofCommaList h.mediaTypes

theorem commaList_typesText
    (h : ∀ t ∈ i.mediaTypes, t ≠ [] ∧ Text.trim t = t ∧ ',' ∉ t) :
    Text.commaList i.typesText = i.mediaTypes := by
  unfold typesText
  split
  . next hnil =>
    rw [hnil]
    rfl
  . exact Text.commaList_ofCommaList h

theorem semicolon_not_mem_typesText (h : ∀ t ∈ i.mediaTypes, ';' ∉ t) : ';' ∉ i.typesText := by
  unfold typesText
  split
  . exact List.not_mem_nil
  . simpa using Text.not_mem_ofCommaList (by decide) (by decide) h

theorem bracketed?_quoted {url : Text} (hurl : ∀ c ∈ url, isUrlChar c) (rest : Text) :
    bracketed? ('"' :: (url ++ '"' :: ')' :: rest)) = some (url, rest) := by
  have htake : (url ++ '"' :: ')' :: rest).takeWhile isUrlChar = url := by
    rw [List.takeWhile_append_of_pos hurl]
    simp [isUrlChar]
  have hdrop : (url ++ '"' :: ')' :: rest).dropWhile isUrlChar = '"' :: ')' :: rest := by
    rw [List.dropWhile_append_of_pos hurl]
    simp [isUrlChar]
  have hstart : dropQuote (Text.trimStart ('"' :: (url ++ '"' :: ')' :: rest))) =
      url ++ '"' :: ')' :: rest := rfl
  simp only [bracketed?, hstart, htake, hdrop]
  rfl

theorem afterWord?_render (i : Import) : Text.afterWord? Keyword.importRule i.render =
    some (" url(".toList ++ '"' :: (i.url ++ '"' :: ')' :: (i.typesText ++ [';']))) := by
  rw [render_eq]
  rfl

theorem url?_bracketed (t : Text) :
    url? (Text.trimStart (" url(".toList ++ '"' :: t)) = bracketed? ('"' :: t) := rfl

/--
An address that may stand in `url("…")` is read back, together with types that the signs after them
cannot be taken for.
-/
theorem ofText?_render (hurl : ∀ c ∈ i.url, isUrlChar c)
    (hitems : ∀ t ∈ i.mediaTypes, t ≠ [] ∧ Text.trim t = t ∧ ',' ∉ t)
    (hsemicolon : ∀ t ∈ i.mediaTypes, ';' ∉ t) : ofText? i.render = some i := by
  rw [ofText?_eq_some_iff]
  refine ⟨_, i.typesText ++ [';'], i.typesText, i.afterWord?_render, ?_, ?_,
    commaList_typesText hitems⟩
  . rw [url?_bracketed, bracketed?_quoted hurl]
  . rw [mediaList?, Text.cut_append_cons (semicolon_not_mem_typesText hsemicolon)]

theorem IsCanonical.ofText?_render (h : i.IsCanonical) : ofText? i.render = some i :=
  Import.ofText?_render h.url (fun t ht => (h.mediaTypes t ht).item)
    (fun t ht => (h.mediaTypes t ht).semicolon_not_mem)

theorem IsCanonical.reads_render (h : i.IsCanonical) : Draft.Reads i.render [.text i.render] := by
  have hquote : '"' ∉ i.url := by
    intro hmem
    have := h.url '"' hmem
    cases this
  have hsealed : Text.isSealed ['{', '}', ';']
      ("import url(".toList ++ '"' :: (i.url ++ '"' :: ')' :: i.typesText)) := by
    rw [Text.isSealed_plain_append rfl, Text.isSealed_quoted hquote h.unescaped,
      Text.isSealed, Text.isSealedFrom_plain_cons (by decide)]
    exact h.isSealed_typesText
  have htext : i.render =
      '@' :: ("import url(".toList ++ '"' :: (i.url ++ '"' :: ')' :: i.typesText) ++ [';']) := by
    rw [render_eq, List.append_assoc, List.cons_append, List.append_assoc]
    rfl
  rw [htext]
  exact Draft.reads_statement hsealed

theorem ofText_render (i : Import) (media : Media) :
    Resolution.ofText media i.render = Resolution.ofImport media i.render := by
  have hmedia : Text.afterWord? Keyword.media i.render = none := by
    rw [render_eq]
    rfl
  simp only [Resolution.ofText, hmedia, afterWord?_render, Option.isSome_some, ↓reduceIte]

theorem IsCanonical.ofText_render (h : i.IsCanonical) (media : Media) :
    Resolution.ofText media i.render = ⟨media, some (.importRule i), []⟩ := by
  rw [Import.ofText_render, Resolution.ofImport, h.ofText?_render]

end Import

namespace Block

theorem render_charset (name : Text) :
    (charset name).render [] = '@' :: ("charset ".toList ++ '"' :: (name ++ ['"']) ++ [';']) := by
  have hopen : "@charset \"".toList = '@' :: ("charset ".toList ++ ['"']) := by
    decide
  have hclose : "\";".toList = ['"', ';'] := by
    decide
  unfold render renderWith
  rw [hopen, hclose, List.append_assoc]
  simp only [List.cons_append, List.append_assoc, List.nil_append]

section Charset

variable {name : Text}

theorem charset?_render (h : '"' ∉ name) : charset? ((charset name).render []) = some name := by
  have hkeyword : Text.afterWord? Keyword.charset ((charset name).render []) =
      some (' ' :: '"' :: (name ++ ['"'] ++ [';'])) := by
    rw [render_charset]
    rfl
  have hblank : (' ' :: '"' :: (name ++ ['"'] ++ [';'])).head?.any isBlank := rfl
  have htrim : Text.trimStart (' ' :: '"' :: (name ++ ['"'] ++ [';'])) =
      '"' :: (name ++ ['"'] ++ [';']) := rfl
  have hcut : Text.cut '"' (name ++ ['"'] ++ [';']) = (name, some [';']) := by
    rw [List.append_assoc]
    exact Text.cut_append_cons h
  have hend : Text.trimStart [';'] = [';'] := rfl
  simp only [charset?, hkeyword, bind, Option.bind, hblank, htrim, hcut, hend, ↓reduceIte]

theorem reads_charset (hquote : '"' ∉ name) (hescapes : Text.escapes name = false) :
    Draft.Reads ((charset name).render []) [.text ((charset name).render [])] := by
  rw [render_charset]
  apply Draft.reads_statement
  rw [Text.isSealed_plain_append rfl, Text.isSealed_quoted hquote hescapes]
  rfl

theorem ofText_charset (h : '"' ∉ name) (media : Media) :
    Resolution.ofText media ((charset name).render []) = ⟨media, some (.charset name), []⟩ := by
  have hmedia : Text.afterWord? Keyword.media ((charset name).render []) = none := by
    rw [render_charset]
    rfl
  have himport : Text.afterWord? Keyword.importRule ((charset name).render []) = none := by
    rw [render_charset]
    rfl
  have hcharset : (Text.afterWord? Keyword.charset ((charset name).render [])).isSome := by
    rw [render_charset]
    rfl
  simp only [Resolution.ofText, hmedia, himport, hcharset, Option.isSome_none, Bool.false_eq_true,
    ↓reduceIte, Resolution.ofCharset, charset?_render h]

end Charset

theorem IsComment.reads {t : Text} (h : IsComment t) : Draft.Reads t [.text t] := by
  cases h with
  | comment hclose hlast => exact Draft.reads_comment hclose hlast
  | statement hmedia himport hcharset hsigns hcomment =>
    apply Draft.reads_statement
    apply Text.isSealed_of_signs _ hsigns hcomment
    simp

theorem IsComment.ofText {t : Text} (h : IsComment t) (media : Media) :
    Resolution.ofText media t = ⟨media, some (.comment t), []⟩ := by
  cases h with
  | comment hclose hlast => rfl
  | statement hmedia himport hcharset hsigns hcomment =>
    simp only [Resolution.ofText, hmedia, himport, hcharset, Option.isSome_none,
      Bool.false_eq_true, ↓reduceIte, Resolution.ofComment]

end Block

namespace Media

/--
The text of an `@media` group before its opening brace.
-/
def head (types : List Text) : Text :=
  "@media ".toList ++ Text.ofCommaList types

variable {types : List Text}

theorem trim_head (h : ∀ t ∈ types, IsType t) (hne : types ≠ []) :
    Text.trim (head types) = head types := by
  have hlist : Text.ofCommaList types ≠ [] := by
    intro hnil
    have := IsType.commaList_ofCommaList h
    rw [hnil] at this
    exact hne this.symm
  unfold head
  apply Text.trim_eq_self
  . intro c hc
    cases hc
    rfl
  . rw [List.getLast?_append_of_ne_nil _ hlist]
    apply Text.getLast?_ofCommaList
    intro t ht
    exact ⟨(h t ht).ne_nil, (h t ht).trimmed⟩

theorem reads_head (h : ∀ t ∈ types, IsType t) (hne : types ≠ []) :
    Draft.Reads (head types ++ [' '] ++ ['{']) [.text (head types)] := by
  have hsealed : Text.isSealed ['{', '}', ';']
      ("media ".toList ++ Text.ofCommaList types ++ [' ']) := by
    rw [List.append_assoc, Text.isSealed_plain_append rfl]
    exact Text.isSealed_append (IsType.isSealed_ofCommaList h) rfl rfl
  have htrim : Text.trim (head types ++ [' ']) = head types := by
    rw [Text.trim_append_blank rfl, trim_head h hne]
  have hreads := Draft.reads_groupOpen hsealed
  have hhead : '@' :: ("media ".toList ++ Text.ofCommaList types ++ [' ']) =
      head types ++ [' '] := rfl
  rw [hhead, htrim] at hreads
  exact hreads

theorem ofText_head (h : ∀ t ∈ types, IsType t) (hne : types ≠ []) (media : Media) :
    Resolution.ofText media (head types) = ⟨some types, none, []⟩ := by
  have hkeyword : Text.afterWord? Keyword.media (head types) =
      some (' ' :: Text.ofCommaList types) := rfl
  simp only [Resolution.ofText, hkeyword, Media.ofText, IsType.commaList_ofCommaList h, hne,
    ↓reduceIte]

theorem ofText_append_blank {w : Text} (hw : Text.blank w) (t : Text) :
    ofText (t ++ w) = ofText t := by
  rw [ofText, ofText, Text.commaList_append_blank hw]

/--
The blanks between the types and the opening brace are no part of the types.
-/
theorem ofText_trim_head {word : Text}
    (hword : Text.afterWord? Keyword.media ('@' :: word) = some []) (types : Text)
    (media : Media) :
    Resolution.ofText media (Text.trim ('@' :: (word ++ types))) = ⟨ofText types, none, []⟩ := by
  rcases Text.exists_trimEnd types with ⟨w, hw, htypes⟩
  have htrim : Text.trim ('@' :: (word ++ Text.trimEnd types)) =
      '@' :: (word ++ Text.trimEnd types) := by
    apply Text.trim_eq_self
    . intro c hc
      cases hc
      rfl
    . intro c hc
      rw [← List.cons_append, List.getLast?_append] at hc
      cases hlast : (Text.trimEnd types).getLast? with
      | some d =>
        rw [hlast] at hc
        cases hc
        exact Text.getLast?_trimEnd types _ hlast
      | none =>
        rw [hlast] at hc
        -- without types the last character is the end of the keyword
        have hlower := congrArg List.getLast? (Text.map_toLower_of_afterWord? hword)
        have hkeyword : Keyword.media.getLast? = some 'a' := by decide
        rw [List.getLast?_map, show ('@' :: word).getLast? = some c from hc, hkeyword] at hlower
        have ha : c.toLower = 'a' := Option.some.inj hlower
        by_contra hblank
        rw [Bool.not_eq_false] at hblank
        rw [Text.toLower_of_isBlank hblank] at ha
        subst ha
        cases hblank
  have hkeyword : Text.afterWord? Keyword.media ('@' :: (word ++ Text.trimEnd types)) =
      some (Text.trimEnd types) := Text.afterWord?_append hword (Text.trimEnd types)
  have hhead : '@' :: (word ++ types) = '@' :: (word ++ Text.trimEnd types) ++ w := by
    rw [List.cons_append, List.append_assoc, ← htypes]
  have hofText := ofText_append_blank hw (Text.trimEnd types)
  rw [← htypes] at hofText
  simp only [hhead, Text.trim_append_blank hw, htrim, Resolution.ofText, hkeyword, hofText]

end Media

end Stylesheet
