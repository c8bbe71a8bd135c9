import Formula.Main
import Formula.Proofs.NestingLimit
import Formula.Proofs.RoundTrip
import Formula.Proofs.Substitution
import Formula.Proofs.Workspace
import Formula.Proofs.Kept
import Formula.Proofs.Depth
import Formula.Proofs.Repetition
import Formula.Proofs.Calls
import Formula.Proofs.FirstSeen
import Formula.Proofs.Derivable
import Formula.Proofs.UsedNames
import Formula.Proofs.Predefined
import Formula.Proofs.Shown
import Formula.Proofs.Viable
import Formula.Proofs.Furthest
import Formula.Proofs.Failures
import Formula.Proofs.Merging
import Formula.Proofs.Phrases
import Formula.Proofs.Layout
import Formula.Proofs.DepthLimit
import Formula.Proofs.Alignment
import Formula.Proofs.Economy
import Formula.Proofs.Lifting
import Formula.Proofs.Infinities
import Formula.Proofs.Pointing
import Formula.Proofs.Matched
import Formula.Proofs.NestingRoom
import Formula.Proofs.Spans
import Formula.Proofs.Accounting
import Formula.Proofs.Locality
import Formula.Proofs.Unambiguous
import Formula.Proofs.NestingFilter
import Formula.Proofs.CanonicalForms
import Formula.Proofs.Lookups
import Formula.Proofs.Elements
