import HeaderFlow.Arena
import HeaderFlow.Budget
import HeaderFlow.Document.Anchor
import HeaderFlow.Document.Binary64
import HeaderFlow.Document.BlockScalar
import HeaderFlow.Document.Cursor
import HeaderFlow.Document.Lexeme
import HeaderFlow.Document.Node
import HeaderFlow.Document.Plain
import HeaderFlow.Document.Reader
import HeaderFlow.Document.Tag
import HeaderFlow.Document.Token
import HeaderFlow.Document.Value
import HeaderFlow.Event
import HeaderFlow.Fault
import HeaderFlow.Network.Basic
import HeaderFlow.Network.Engine
import HeaderFlow.Network.Mutation
import HeaderFlow.Network.Priority
import HeaderFlow.Network.Propagation
import HeaderFlow.Network.Query
import HeaderFlow.Network.Report
import HeaderFlow.Network.Wiring
import HeaderFlow.Pattern.Algebra
import HeaderFlow.Pattern.Basic
import HeaderFlow.Pattern.Condense
import HeaderFlow.Pattern.Text
import HeaderFlow.PortSet
import HeaderFlow.Probe.Basic
import HeaderFlow.Probe.Chain
import HeaderFlow.Probe.Condition
import HeaderFlow.Probe.Path
import HeaderFlow.Region.Basic
import HeaderFlow.Region.Compact
import HeaderFlow.Settings.Basic
import HeaderFlow.Settings.Document
import HeaderFlow.Space.Basic
import HeaderFlow.Space.Text
import HeaderFlow.Tally
import HeaderFlow.Text.Blank
import HeaderFlow.Text.Error
import HeaderFlow.Text.Invisible
import HeaderFlow.Text.Numeral
import HeaderFlow.Text.Quoted
import HeaderFlow.Trit
import HeaderFlow.Word
import HeaderFlow.Proofs.Pattern.Trits
import HeaderFlow.Proofs.Pattern.Cover
import HeaderFlow.Proofs.Pattern.Reduction
import HeaderFlow.Proofs.Pattern.Complement
import HeaderFlow.Proofs.Pattern.Packing
import HeaderFlow.Proofs.Pattern.Tritwise
import HeaderFlow.Proofs.Pattern.Widening
import HeaderFlow.Proofs.Pattern.Inclusion
import HeaderFlow.Proofs.Pattern.Union
import HeaderFlow.Proofs.Pattern.Reading
import HeaderFlow.Proofs.Region.Rounds
import HeaderFlow.Proofs.Region.Widening
import HeaderFlow.Proofs.Arena
import HeaderFlow.Proofs.ArenaHistory
import HeaderFlow.Proofs.Checked
import HeaderFlow.Proofs.Network.Alarms
import HeaderFlow.Proofs.Network.Faultless
import HeaderFlow.Proofs.Network.Genealogy
import HeaderFlow.Proofs.Network.Graph
import HeaderFlow.Proofs.Network.Loops
import HeaderFlow.Proofs.Network.Limits
import HeaderFlow.Proofs.Network.Noninterference
import HeaderFlow.Proofs.Network.Reporting
import HeaderFlow.Proofs.Network.Route
import HeaderFlow.Proofs.Network.Widening
import HeaderFlow.Proofs.Space.Comparison
import HeaderFlow.Proofs.Space.Image
import HeaderFlow.Proofs.Space.NormalForm
import HeaderFlow.Proofs.Space.Parentheses
import HeaderFlow.Proofs.Space.Pruning
import HeaderFlow.Proofs.Space.RoundTrip
import HeaderFlow.Proofs.Space.Homomorphism
import HeaderFlow.Proofs.Space.Widening
import HeaderFlow.Proofs.Network.Carrying
import HeaderFlow.Proofs.Network.Coverage
import HeaderFlow.Proofs.Network.Removal
import HeaderFlow.Proofs.Search
import HeaderFlow.Proofs.Network.Bookkeeping
import HeaderFlow.Proofs.Network.Attribution
import HeaderFlow.Proofs.Pattern.Condense
import HeaderFlow.Proofs.Network.Sharing
import HeaderFlow.Proofs.Settings.RoundTrip
import HeaderFlow.Proofs.Network.Rebuild
import HeaderFlow.Proofs.Network.Verdicts
