import Equational.Cbor.Decoding
import Equational.Cbor.Encoding
import Equational.Engine
import Equational.Natives
import Equational.Proofs.Abstraction
import Equational.Proofs.Additions
import Equational.Proofs.Agreement
import Equational.Proofs.Alternatives
import Equational.Proofs.Arrangement
import Equational.Proofs.Bare
import Equational.Proofs.BareEvaluation
import Equational.Proofs.BareMatching
import Equational.Proofs.BareText
import Equational.Proofs.BoundNames
import Equational.Proofs.BoundVariables
import Equational.Proofs.Bracketing
import Equational.Proofs.Building
import Equational.Proofs.CompleteSubstitution
import Equational.Proofs.Composed
import Equational.Proofs.Concatenation
import Equational.Proofs.Cursors
import Equational.Proofs.DanglingVariables
import Equational.Proofs.DepthCheck
import Equational.Proofs.Distributions
import Equational.Proofs.EliminatedConstants
import Equational.Proofs.Elimination
import Equational.Proofs.Enumeration
import Equational.Proofs.Extension
import Equational.Proofs.FailingPositions
import Equational.Proofs.Faithfulness
import Equational.Proofs.Fingerprints
import Equational.Proofs.Flattening
import Equational.Proofs.Floats
import Equational.Proofs.FreshIndices
import Equational.Proofs.GroupingCursor
import Equational.Proofs.Guards
import Equational.Proofs.Handover
import Equational.Proofs.Instances
import Equational.Proofs.Interpreting
import Equational.Proofs.Irrelevance
import Equational.Proofs.LambdaIndices
import Equational.Proofs.LeafArguments
import Equational.Proofs.Listings
import Equational.Proofs.NormalTerms
import Equational.Proofs.Normalization
import Equational.Proofs.PaddedParameters
import Equational.Proofs.PatternOrder
import Equational.Proofs.PermutationCursor
import Equational.Proofs.PlainMatching
import Equational.Proofs.PositionalMatches
import Equational.Proofs.Preservation
import Equational.Proofs.ReachableNames
import Equational.Proofs.ReadAtoms
import Equational.Proofs.Rediscovery
import Equational.Proofs.Regrouping
import Equational.Proofs.Renaming
import Equational.Proofs.Reproduction
import Equational.Proofs.Requests
import Equational.Proofs.Residues
import Equational.Proofs.Restoration
import Equational.Proofs.RewritingTerms
import Equational.Proofs.RigidHeads
import Equational.Proofs.Scopes
import Equational.Proofs.Searches
import Equational.Proofs.SelfMatching
import Equational.Proofs.SequenceRewriting
import Equational.Proofs.StandingApplications
import Equational.Proofs.StoredAtoms
import Equational.Proofs.SubjectOrder
import Equational.Proofs.Substitution
import Equational.Proofs.Termination
import Equational.Proofs.Traces
import Equational.Proofs.Transparency
import Equational.Proofs.WellMade
import Equational.Proofs.WrappedRuns
import Equational.Proofs.WrittenItems
