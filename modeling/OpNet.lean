import OpNet.Main
import OpNet.Rule.Bypass
import OpNet.Rule.Table
import OpNet.Proofs.Execution
import OpNet.Proofs.Adjacency
import OpNet.Proofs.LastWriter
import OpNet.Proofs.Schedule
import OpNet.Proofs.Reorder
import OpNet.Proofs.Grouping
import OpNet.Proofs.Replacement
import OpNet.Proofs.Collapse
import OpNet.Proofs.Standing
import OpNet.Proofs.Boundary
import OpNet.Proofs.Admissible
import OpNet.Proofs.Chain
import OpNet.Proofs.FusionPass
import OpNet.Proofs.Edits
import OpNet.Proofs.Substitution
import OpNet.Proofs.SoundAdjacency
import OpNet.Proofs.ExactReplacement
import OpNet.Proofs.Sequence
import OpNet.Proofs.Longest
import OpNet.Proofs.Matches
import OpNet.Proofs.Limit
import OpNet.Proofs.OrderedSearch
import OpNet.Proofs.SharedBuffers
import OpNet.Proofs.CanonicalOrder
import OpNet.Proofs.ProgramOrder
import OpNet.Proofs.LastWriterGraph
import OpNet.Proofs.BoundaryBlobs
import OpNet.Proofs.ExportedEdges
import OpNet.Proofs.SelfDelimiting
import OpNet.Proofs.RoundTrip
import OpNet.Proofs.UniqueChain
import OpNet.Proofs.ExportedChains
import OpNet.Proofs.Fixpoint
import OpNet.Proofs.InPlace
import OpNet.Proofs.ChainsInPlace
import OpNet.Proofs.Composition
import OpNet.Proofs.FusedNodes
import OpNet.Proofs.MatchOrder
import OpNet.Proofs.ApplyPhase
import OpNet.Proofs.SessionRun
import OpNet.Proofs.RecentHistory
import OpNet.Proofs.PassListing
import OpNet.Proofs.SessionTrace
import OpNet.Proofs.StoredFiles
import OpNet.Proofs.ArgumentGrammar
import OpNet.Proofs.CommandRun
import OpNet.Proofs.JsonText
import OpNet.Proofs.DistinctTraces
import OpNet.Proofs.TokenForms
import OpNet.Proofs.Layouts
import OpNet.Proofs.Documents
import OpNet.Proofs.NetSize
