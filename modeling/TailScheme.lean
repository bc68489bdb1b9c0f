import TailScheme.Main
import TailScheme.Proofs.Moments
import TailScheme.Proofs.Effects
import TailScheme.Proofs.Course
import TailScheme.Proofs.Placement
import TailScheme.Proofs.TailPosition
import TailScheme.Proofs.Histories
import TailScheme.Proofs.Termination
import TailScheme.Proofs.DepthLimit
import TailScheme.Proofs.Pairing
import TailScheme.Proofs.TailCalls
import TailScheme.Proofs.Grammar
import TailScheme.Proofs.Reading
import TailScheme.Proofs.RoundTrip
import TailScheme.Proofs.Expansion
import TailScheme.Proofs.ExpansionText
import TailScheme.Proofs.WellFormed
import TailScheme.Proofs.Contents
import TailScheme.Proofs.Regime
import TailScheme.Proofs.ExpandedCode
import TailScheme.Proofs.Following
import TailScheme.Proofs.Successive
import TailScheme.Proofs.Unfinished
import TailScheme.Proofs.Viable
import TailScheme.Proofs.Scopes
import TailScheme.Proofs.Aftermath
import TailScheme.Proofs.Footprint
import TailScheme.Proofs.Locality
import TailScheme.Proofs.Rebinding
import TailScheme.Proofs.Concatenation
import TailScheme.Proofs.LineEnds
import TailScheme.Proofs.Entries
import TailScheme.Proofs.Reexpansion
import TailScheme.Proofs.Chains
import TailScheme.Proofs.Listing
import TailScheme.Proofs.OneLine
import TailScheme.Proofs.Parts
import TailScheme.Proofs.Quoting
import TailScheme.Proofs.Inventory
import TailScheme.Proofs.Building
import TailScheme.Proofs.Sessions
import TailScheme.Proofs.Ancestry
import TailScheme.Proofs.Equality
import TailScheme.Proofs.Conveyance
import TailScheme.Proofs.Identity
import TailScheme.Proofs.Unambiguous
import TailScheme.Proofs.Answers
import TailScheme.Proofs.Naming
import TailScheme.Proofs.Views
import TailScheme.Proofs.Summation
import TailScheme.Proofs.Arithmetic
import TailScheme.Proofs.Division
import TailScheme.Proofs.Comparisons
import TailScheme.Proofs.Dialogue
import TailScheme.Proofs.Balance
import TailScheme.Proofs.Isolation
import TailScheme.Proofs.StandIn
