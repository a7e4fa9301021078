import Es5.Fixture.Bundled
import Es5.Harness.Run
import Es5.Proofs.Frozen
import Es5.Proofs.Reentry
import Es5.Summary
import Es5.Proofs.Search
import Es5.Proofs.Pinned
import Es5.Proofs.Refusal
import Es5.Proofs.Intact
import Es5.Proofs.Spelled
import Es5.Proofs.RoundTrip
import Es5.Proofs.Chain
import Es5.Proofs.Callable
import Es5.Proofs.KeyOrder
import Es5.Proofs.Described
import Es5.Proofs.Resize
import Es5.Proofs.Session
import Es5.Proofs.FixtureRun
import Es5.Proofs.NumberText
import Es5.Proofs.Assignment
import Es5.Proofs.Matches
import Es5.Proofs.Sealing
import Es5.Proofs.Primitive
import Es5.Proofs.HexLiteral
import Es5.Proofs.Modular
import Es5.Proofs.TextSearch
import Es5.Proofs.BlockScan
import Es5.Proofs.FixtureForm
import Es5.Proofs.MarkedText
import Es5.Proofs.MarkedStream
import Es5.Proofs.MarkedEvent
import Es5.Proofs.MarkedValue
import Es5.Proofs.ErrorPosition
import Es5.Proofs.License
import Es5.Proofs.Resolution
import Es5.Proofs.CanonicalKey
