import MonadicIR.Specialise
import MonadicIR.Optimiser.Pipeline
import MonadicIR.Machine.Run
import MonadicIR.FlowGraph.Build
import MonadicIR.FlowGraph.Dot
import MonadicIR.Sample
import MonadicIR.CommandLine
import MonadicIR.Main
import MonadicIR.Proofs.Components
import MonadicIR.Proofs.Merging
import MonadicIR.Proofs.PruningRuns
import MonadicIR.Proofs.InliningRuns
import MonadicIR.Proofs.Intact
import MonadicIR.Proofs.NeverReturningRuns
import MonadicIR.Proofs.WriteOnly
import MonadicIR.Proofs.StaysAccepted
import MonadicIR.Proofs.Summaries
import MonadicIR.Proofs.DerivationDepth
import MonadicIR.Proofs.Grounded
import MonadicIR.Proofs.StaleNotes
import MonadicIR.Proofs.Nameless
import MonadicIR.Proofs.Tracking
import MonadicIR.Proofs.GraphShape
import MonadicIR.Proofs.CaseSimplification
import MonadicIR.Proofs.Redirecting
import MonadicIR.Proofs.FunctionGraphs
import MonadicIR.Proofs.MergedParams
import MonadicIR.Proofs.PrimitiveLaws
import MonadicIR.Proofs.HandoffFamilies
import MonadicIR.Proofs.KnownArguments
import MonadicIR.Proofs.MergedGroups
import MonadicIR.Proofs.FreshCopies
import MonadicIR.Proofs.NothingDead
import MonadicIR.Proofs.InliningEnds
import MonadicIR.Proofs.PruningOrder
import MonadicIR.Proofs.ReferenceCounts
import MonadicIR.Proofs.ResolvedRenaming
import MonadicIR.Proofs.RecursionFree
import MonadicIR.Proofs.PlainCopies
import MonadicIR.Proofs.IdleLoops
import MonadicIR.Proofs.FreeVariables
import MonadicIR.Proofs.Detours
import MonadicIR.Proofs.ReplacementChains
import MonadicIR.Proofs.FactOrder
import MonadicIR.Proofs.UnboundedRuns
