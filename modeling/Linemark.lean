import Linemark.FileTree
import Linemark.Main
import Linemark.Proofs.Command.Files
import Linemark.Proofs.Command.Outcomes
import Linemark.Proofs.Diagnostic.Decoration
import Linemark.Proofs.Diagnostic.Marks
import Linemark.Proofs.Diagnostic.Namesakes
import Linemark.Proofs.Diagnostic.Spans
import Linemark.Proofs.Diagnostic.Truncation
import Linemark.Proofs.Line.Bounds
import Linemark.Proofs.Line.Conservation
import Linemark.Proofs.Line.Exhaustion
import Linemark.Proofs.Line.Lines
import Linemark.Proofs.Line.LockStep
import Linemark.Proofs.Line.Prefixes
import Linemark.Proofs.Listing.Limits
import Linemark.Proofs.Listing.Recovery
import Linemark.Proofs.Listing.Texts
import Linemark.Proofs.Mark.Conventions
import Linemark.Proofs.Mark.Grammar
import Linemark.Proofs.Mark.Listing
import Linemark.Proofs.Mark.Requests
import Linemark.Proofs.Text.Display
