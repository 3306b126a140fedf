import CssText.Main
import CssText.Token.Reader
import CssText.Proofs.Parse.Isolation
import CssText.Proofs.Parse.AtRule
import CssText.Proofs.Parse.NormalForm
import CssText.Proofs.Selector.Chain
import CssText.Proofs.Selector.Shape
import CssText.Proofs.Selector.Sentinel
import CssText.Proofs.Sheet.RoundTrip
import CssText.Proofs.Token.Payload
import CssText.Proofs.Token.Reader
import CssText.Proofs.Sheet.Assembly
import CssText.Proofs.Sheet.Limit
import CssText.Proofs.Sheet.Positions
import CssText.Proofs.Sheet.HigherLimit
import CssText.Proofs.Sheet.Progress
import CssText.Proofs.Sheet.Recovery
import CssText.Proofs.Sheet.Failure
import CssText.Proofs.Sheet.Spans
import CssText.Proofs.Sheet.Terms
import CssText.Proofs.Text.Output
import CssText.Proofs.Token.Numeric
import CssText.Proofs.Text.Repair
import CssText.Proofs.Location.FileUrl
import CssText.Proofs.Command.Flags
import CssText.Proofs.Diagnostic.History
