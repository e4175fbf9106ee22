import Stylesheet.Sheet.Edit
import Stylesheet.Sheet.Query
import Stylesheet.Sheet.Writer
import Stylesheet.Proofs.Concatenation
import Stylesheet.Proofs.Comment
import Stylesheet.Proofs.Delimiter.Occurrence
import Stylesheet.Proofs.Origin.Basic
import Stylesheet.Proofs.Origin.Separation
import Stylesheet.Proofs.Outline
import Stylesheet.Proofs.Declarations.Segment
import Stylesheet.Proofs.Quotation
import Stylesheet.Proofs.Selector.Image
import Stylesheet.Proofs.Joining
import Stylesheet.Proofs.Fragment
import Stylesheet.Proofs.Selector.Attribute
import Stylesheet.Proofs.Rereading
import Stylesheet.Proofs.Selector.Group
import Stylesheet.Proofs.Declarations.Insertion
import Stylesheet.Proofs.Declarations.Colon
import Stylesheet.Proofs.Scope
import Stylesheet.Proofs.Grouping
import Stylesheet.Proofs.Sheet.Renumbering
import Stylesheet.Proofs.Sheet.Name
import Stylesheet.Proofs.Selector.Atom
import Stylesheet.Proofs.Statement
import Stylesheet.Proofs.Resumption
import Stylesheet.Proofs.Opening
import Stylesheet.Proofs.Cutter.Safety
