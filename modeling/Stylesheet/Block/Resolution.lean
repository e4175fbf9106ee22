import Stylesheet.Block.AtRule
import Stylesheet.Declarations.Reader
import Stylesheet.Record.OfText
import Stylesheet.Selector.List

/-!
This module contains the step from records to blocks. Each record is read by itself, but for the
media types that hold at its place: the head of an `@media` group sets them, and a closing brace
that ends no ruleset sets them back. A record that cannot be read is noted.
-/

namespace Stylesheet

/--
What comes of a record: the media types that hold after it, its block, and the notices about it.
-/
structure Resolution where
  media : Media
  block? : Option Block
  notices : List Notice
deriving DecidableEq, Repr

namespace Resolution

def ofComment (media : Media) (t : Text) : Resolution :=
  ⟨media, some (.comment t), []⟩

def ofImport (media : Media) (t : Text) : Resolution :=
  match Import.ofText? t with
  | some i => ⟨media, some (.importRule i), []⟩
  | none => ⟨media, none, [.malformedImport t]⟩

def ofCharset (media : Media) (t : Text) : Resolution :=
  match Block.charset? t with
  | some name => ⟨media, some (.charset name), []⟩
  | none => ⟨media, none, [.malformedCharset t]⟩

def ofText (media : Media) (t : Text) : Resolution :=
  match Text.afterWord? Keyword.media t with
  | some types => ⟨Media.ofText types, none, []⟩
  | none =>
    if (Text.afterWord? Keyword.importRule t).isSome then
      ofImport media t
    else if (Text.afterWord? Keyword.charset t).isSome then
      ofCharset media t
    else
      ofComment media t

def ofRule (media : Media) (selectors declarations : Text) : Resolution :=
  let notices := Notice.ofSelectors selectors
  match Ruleset.ofParts (Selector.ofText selectors) (Declarations.ofText declarations) media with
  | .ok r => ⟨media, some (.ruleset r), notices⟩
  | .error _ => ⟨media, none, notices ++ [.droppedRuleset selectors]⟩

def ofRecord (media : Media) : Record → Resolution
  | .text t => ofText media t
  | .rule selectors declarations => ofRule media selectors declarations
  | .groupEnd => ⟨none, none, []⟩

/--
What comes of each of the records, when `media` holds before the first one.
-/
def ofRecords (media : Media) : List Record → List Resolution
  | [] => []
  | record :: records =>
    let resolution := ofRecord media record
    resolution :: ofRecords resolution.media records

end Resolution

def Block.ofRecords (records : List Record) : List Block :=
  (Resolution.ofRecords none records).filterMap (·.block?)

def Notice.ofRecords (records : List Record) : List Notice :=
  (Resolution.ofRecords none records).flatMap (·.notices)

end Stylesheet
