import Chomsky.Grammar.Edit
import Chomsky.Session.Run
import Chomsky.Theory.Normalization
import Chomsky.Theory.Derivation
import Chomsky.Theory.Listing
import Chomsky.Theory.Requests
import Chomsky.Theory.Chart
import Chomsky.Theory.TreeWalk
import Chomsky.Proofs.Chart.Correct
import Chomsky.Proofs.Forest.Ambiguity
import Chomsky.Proofs.Normalize.Expansion
import Chomsky.Proofs.Normalize.StartSymbol
import Chomsky.Proofs.Grammar.Stable
import Chomsky.Proofs.Normalize.Synthetic
import Chomsky.Proofs.Widening.Grammar
import Chomsky.Proofs.Widening.Normalize
import Chomsky.Proofs.Widening.NormalGrammar
import Chomsky.Proofs.Widening.Desk
import Chomsky.Proofs.Widening.Session
import Chomsky.Proofs.Codec.Format
import Chomsky.Proofs.Codec.NormalGrammar
import Chomsky.Proofs.Codec.Forest
import Chomsky.Proofs.Verdict
import Chomsky.Proofs.NormalGrammar.Mirror
import Chomsky.Proofs.Normalize.Early
import Chomsky.Proofs.Journal
import Chomsky.Proofs.Normalize.Budget
import Chomsky.Proofs.Forest.Limits
import Chomsky.Proofs.Chart.Scratch
import Chomsky.Proofs.Forest.Placements
import Chomsky.Proofs.Forest.Total
import Chomsky.Proofs.Normalize.Frame
import Chomsky.Proofs.Grammar.Building
import Chomsky.Proofs.NormalGrammar.Tags
import Chomsky.Proofs.Ident
import Chomsky.Proofs.Normalize.UnitLoop
import Chomsky.Proofs.Layout
import Chomsky.Proofs.TreeWalk
