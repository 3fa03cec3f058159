import Mixfix.Builder
import Mixfix.Checked
import Mixfix.Config
import Mixfix.Expression
import Mixfix.Number.Conversion
import Mixfix.Operator.Tier
import Mixfix.Parser
import Mixfix.Proofs.Attribution
import Mixfix.Proofs.Bracketed
import Mixfix.Proofs.Brackets
import Mixfix.Proofs.Catalogue
import Mixfix.Proofs.Demotion
import Mixfix.Proofs.Derivation
import Mixfix.Proofs.Embeddings
import Mixfix.Proofs.Enclosure
import Mixfix.Proofs.Excerpts
import Mixfix.Proofs.Finds
import Mixfix.Proofs.Hidden
import Mixfix.Proofs.Isolation
import Mixfix.Proofs.Lapses
import Mixfix.Proofs.Limits
import Mixfix.Proofs.Located
import Mixfix.Proofs.Matching
import Mixfix.Proofs.Mirrored
import Mixfix.Proofs.Nesting
import Mixfix.Proofs.Numerals
import Mixfix.Proofs.Occurrences
import Mixfix.Proofs.OneOperator
import Mixfix.Proofs.Outline
import Mixfix.Proofs.Parts
import Mixfix.Proofs.Paths
import Mixfix.Proofs.Positions
import Mixfix.Proofs.Precedence
import Mixfix.Proofs.Printed
import Mixfix.Proofs.Reordering
import Mixfix.Proofs.Roots
import Mixfix.Proofs.Signed
import Mixfix.Proofs.Spacing
import Mixfix.Proofs.Substitution
import Mixfix.Proofs.Ternary
import Mixfix.Proofs.Tiers
import Mixfix.Proofs.Yields
import Mixfix.Session
