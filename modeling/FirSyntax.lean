import FirSyntax.Main
import FirSyntax.Proofs.Balance
import FirSyntax.Proofs.BuildReport
import FirSyntax.Proofs.Coalescing
import FirSyntax.Proofs.Confinement
import FirSyntax.Proofs.Discovery
import FirSyntax.Proofs.Expressions
import FirSyntax.Proofs.FinalTerminator
import FirSyntax.Proofs.FirstLine
import FirSyntax.Proofs.Identifiers
import FirSyntax.Proofs.Indentation
import FirSyntax.Proofs.Locality
import FirSyntax.Proofs.Lookahead
import FirSyntax.Proofs.LossyDecoding
import FirSyntax.Proofs.MarkOrder
import FirSyntax.Proofs.Mismatches
import FirSyntax.Proofs.Normalization
import FirSyntax.Proofs.Progress
import FirSyntax.Proofs.Recovery
import FirSyntax.Proofs.RoundTrip
import FirSyntax.Proofs.Token.Charge
import FirSyntax.Proofs.Token.LineStart
import FirSyntax.Proofs.Tokenization
import FirSyntax.Proofs.TreeShape
import FirSyntax.Proofs.WhiteSpace
import FirSyntax.Proofs.Writing.Coalesced
