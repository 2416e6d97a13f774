import ChomskyNormal.Draft
import ChomskyNormal.Grammar.Text
import ChomskyNormal.Main
import ChomskyNormal.Proofs.Rule.Reading
import ChomskyNormal.Proofs.Sampling.Growth
import ChomskyNormal.Session
import ChomskyNormal.Proofs.Load.Clauses
import ChomskyNormal.Proofs.Load.Declaration
import ChomskyNormal.Proofs.Load.Reading
import ChomskyNormal.Proofs.Load.Outcome
import ChomskyNormal.Proofs.Load.Acceptance
import ChomskyNormal.Proofs.Load.Report
import ChomskyNormal.Proofs.Draft.Indexes
import ChomskyNormal.Proofs.Grammar.Coherence
import ChomskyNormal.Proofs.Sampling.Heights
import ChomskyNormal.Proofs.Sampling.Calls
import ChomskyNormal.Proofs.Sampling.Outcome
import ChomskyNormal.Proofs.Rule.Writing
import ChomskyNormal.Proofs.Grammar.Writing
import ChomskyNormal.Proofs.Load.RoundTrip
import ChomskyNormal.Proofs.Grammar.Reach
import ChomskyNormal.Proofs.Grammar.Size
import ChomskyNormal.Proofs.Sampling.Coverage
import ChomskyNormal.Proofs.Text.Encoding
import ChomskyNormal.Proofs.Load.File
import ChomskyNormal.Proofs.Recognition.Additions
import ChomskyNormal.Proofs.Sampling.BuildOrder
import ChomskyNormal.Proofs.Grammar.Equality
import ChomskyNormal.Proofs.Sampling.Sweeps
import ChomskyNormal.Proofs.Load.StartSymbol
import ChomskyNormal.Proofs.Sampling.Settling
import ChomskyNormal.Proofs.Command.Outcome
import ChomskyNormal.Proofs.Rule.Scanning
import ChomskyNormal.Proofs.Rule.Form
import ChomskyNormal.Proofs.Load.Layout
import ChomskyNormal.Proofs.Grammar.ProductionAddition
import ChomskyNormal.Proofs.Recognition.Filling
import ChomskyNormal.Proofs.Recognition.Shape
import ChomskyNormal.Proofs.Grammar.Unambiguity
import ChomskyNormal.Proofs.Sampling.Draws
import ChomskyNormal.Proofs.Recognition.Unambiguity
import ChomskyNormal.Proofs.Load.Messages
import ChomskyNormal.Proofs.Rule.Turns
import ChomskyNormal.Proofs.Rule.Colons
import ChomskyNormal.Proofs.Rule.Places
