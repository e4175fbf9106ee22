import Stylesheet.Block.AtRule
import Stylesheet.Proofs.Declarations
import Stylesheet.Proofs.Selector.Spelling
import Stylesheet.Proofs.Text.CommaList
import Stylesheet.Sheet.Basic

/-!
This module contains the blocks that can be told from their text: each of their parts is free of the
signs that end it where it is written.
-/

namespace Stylesheet

/--
A media type holds no sign that ends the list of types or the at-rule that the list is part of.
-/
structure Media.IsType (t : Text) : Prop where
  ne_nil : t ≠ []
  trimmed : Text.trim t = t
  signs : ∀ c ∈ t, c ∉ [',', ';', '"', '{', '}']
  noComment : ¬['/', '*'] <:+: t

/--
The text of a comment, or of an at-rule without a block that is not one of the known ones.
-/
inductive Block.IsComment : Text → Prop
  | comment {body : Text} (hclose : ¬['*', '/'] <:+: body) (hlast : body.getLast? ≠ some '/') :
      IsComment ('/' :: '*' :: (body ++ ['*', '/']))
  | statement {t : Text} (hmedia : Text.afterWord? Keyword.media ('@' :: (t ++ [';'])) = none)
      (himport : Text.afterWord? Keyword.importRule ('@' :: (t ++ [';'])) = none)
      (hcharset : Text.afterWord? Keyword.charset ('@' :: (t ++ [';'])) = none)
      (hsigns : ∀ c ∈ t, c ∉ ['"', ';', '{', '}']) (hcomment : ¬['/', '*'] <:+: t) :
      IsComment ('@' :: (t ++ [';']))

structure Import.IsCanonical (i : Import) : Prop where
  url : ∀ c ∈ i.url, isUrlChar c
  unescaped : Text.escapes i.url = false
  mediaTypes : ∀ t ∈ i.mediaTypes, Media.IsType t

/--
The selectors are chains without a lossy joint, and the declarations have identifiers for names;
braces and comments stand inside of strings alone, and so do at-rules in selectors.
-/
structure Ruleset.IsCanonical (r : Ruleset) : Prop where
  media : ∀ types ∈ r.media, types ≠ [] ∧ ∀ t ∈ types, Media.IsType t
  chains : ∀ s ∈ r.selectors, s.isChain
  lossless : ∀ s ∈ r.selectors, s.hasLossyJoint = false
  sealedSelectors : ∀ s ∈ r.selectors, Text.isSealed ['{', '}', '@'] s.render
  readable : ∀ entry ∈ r.declarations.entries, Declarations.isReadable entry
  sealedValues : ∀ entry ∈ r.declarations.entries, Text.isSealed ['{', '}'] entry.2

def Block.IsCanonical : Block → Prop
  | comment t => IsComment t
  | importRule i => i.IsCanonical
  | charset name => '"' ∉ name ∧ Text.escapes name = false
  | ruleset r => r.IsCanonical

def Sheet.IsCanonical (s : Sheet) : Prop :=
  ∀ b ∈ s.blocks, b.IsCanonical

namespace Media.IsType

theorem isSealed {t : Text} (h : IsType t) : Text.isSealed ['{', '}', ';'] t := by
  apply Text.isSealed_of_signs _ h.signs h.noComment
  simp

theorem item {t : Text} (h : IsType t) : t ≠ [] ∧ Text.trim t = t ∧ ',' ∉ t := by
  refine ⟨h.ne_nil, h.trimmed, ?_⟩
  intro hcomma
  exact h.signs ',' hcomma (by decide)

theorem semicolon_not_mem {t : Text} (h : IsType t) : ';' ∉ t := by
  intro hsemicolon
  exact h.signs ';' hsemicolon (by decide)

variable {types : List Text}

theorem isSealed_ofCommaList (h : ∀ t ∈ types, IsType t) :
    Text.isSealed ['{', '}', ';'] (Text.ofCommaList types) := by
  apply Text.isSealed_ofCommaList _ (by decide) (by decide)
  intro t ht
  exact (h t ht).isSealed

theorem commaList_ofCommaList (h : ∀ t ∈ types, IsType t) :
    Text.commaList (' ' :: Text.ofCommaList types) = types :=
  Text.commaList_ofCommaList fun t ht => (h t ht).item

end Media.IsType

end Stylesheet
