import Highlight.Main
import Highlight.Proofs.Colour.Digits
import Highlight.Proofs.Colour.Cycle
import Highlight.Proofs.Compilation.Auxiliary
import Highlight.Proofs.Compilation.ReadBack
import Highlight.Proofs.Compilation.Repeat
import Highlight.Proofs.Compilation.Sources
import Highlight.Proofs.Compilation.Targets
import Highlight.Proofs.FileSystem.Refilled
import Highlight.Proofs.Housekeeping.Beginning
import Highlight.Proofs.Housekeeping.History
import Highlight.Proofs.Include.Appended
import Highlight.Proofs.Include.Reach
import Highlight.Proofs.Json.Form
import Highlight.Proofs.Json.Lens
import Highlight.Proofs.Json.Replaced
import Highlight.Proofs.Pattern.WholeWord
import Highlight.Proofs.Rule.Chance
import Highlight.Proofs.Rule.Cycle
import Highlight.Proofs.Rule.Mentions
import Highlight.Proofs.Rule.Restyle
import Highlight.Proofs.Rule.Sequence
import Highlight.Proofs.Scheme.Members
import Highlight.Proofs.Scheme.Reader
import Highlight.Proofs.Style
import Highlight.Proofs.SyntaxFiles.Agreement
import Highlight.Proofs.SyntaxFiles.Effect
import Highlight.Proofs.SyntaxFiles.Layers
import Highlight.Proofs.SyntaxFiles.Listing
import Highlight.Proofs.SyntaxFiles.Settings
import Highlight.Proofs.SyntaxFiles.Store
import Highlight.Proofs.SyntaxFiles.Theme
import Highlight.Proofs.Table.Overlay
import Highlight.Scalar.Rational
