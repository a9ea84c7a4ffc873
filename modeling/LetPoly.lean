import LetPoly.Check
import LetPoly.CommandLine
import LetPoly.Eval
import LetPoly.Main
import LetPoly.Term.Dump
import LetPoly.Term.Parser
import LetPoly.Term.Walk
import LetPoly.Proofs.Substitutions
import LetPoly.Proofs.Annotations
import LetPoly.Proofs.CheckedPrograms
import LetPoly.Proofs.TypeSafety
import LetPoly.Proofs.Grammar
import LetPoly.Proofs.Reading
import LetPoly.Proofs.ParserExact
import LetPoly.Proofs.FrontEnd
import LetPoly.Proofs.RecordedNodes
import LetPoly.Proofs.SparedVariables
import LetPoly.Proofs.ConsistentTypes
import LetPoly.Proofs.TabledInference
import LetPoly.Proofs.TypeTable
import LetPoly.Proofs.Renaming
import LetPoly.Proofs.Pairings
import LetPoly.Proofs.TwinRuns
import LetPoly.Proofs.ItemReports
import LetPoly.Proofs.Preludes
import LetPoly.Proofs.Placement
import LetPoly.Proofs.SettledStages
import LetPoly.Proofs.IndependentItems
import LetPoly.Proofs.ShiftedVariables
import LetPoly.Proofs.Scoping
import LetPoly.Proofs.RenamedRuns
import LetPoly.Proofs.RenamedTypes
import LetPoly.Proofs.RenamedChecks
import LetPoly.Proofs.Excerpts
import LetPoly.Proofs.Places
import LetPoly.Proofs.NodeLocations
import LetPoly.Proofs.ErrorLocations
import LetPoly.Proofs.ReportedLines
import LetPoly.Proofs.FileReports
import LetPoly.Proofs.PrintedTypes
import LetPoly.Proofs.WatchedRuns
import LetPoly.Proofs.OrderlyRuns
import LetPoly.Proofs.Compositions
import LetPoly.Proofs.Captures
import LetPoly.Proofs.Attribution
import LetPoly.Proofs.BlamedNodes
import LetPoly.Proofs.ProgramParts
import LetPoly.Proofs.TypedNodes
import LetPoly.Proofs.StoppedChecks
import LetPoly.Proofs.TokenRules
import LetPoly.Proofs.CoveredTexts
import LetPoly.Proofs.RelabeledTokens
import LetPoly.Proofs.Layout
import LetPoly.Proofs.NodeTexts
import LetPoly.Proofs.SymmetricUnification
import LetPoly.Proofs.GenuineClashes
import LetPoly.Proofs.Generalization
import LetPoly.Proofs.DepthLimits
import LetPoly.Proofs.BindingCycles
import LetPoly.Proofs.CompositionLaws
import LetPoly.Proofs.JsonTexts
import LetPoly.Proofs.DumpedTrees
