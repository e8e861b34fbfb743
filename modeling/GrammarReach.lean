import GrammarReach.Container.DisjointSets
import GrammarReach.Grammar.Normalizer
import GrammarReach.Bracket.Language
import GrammarReach.Graph.Components
import GrammarReach.Graph.EdgeList
import GrammarReach.Graph.Pieces
import GrammarReach.Saturation.Reachability
import GrammarReach.Graph.Restriction
import GrammarReach.Graph.Condensation
import GrammarReach.Bracket.Automaton
import GrammarReach.Analysis.ValueFlow
import GrammarReach.Settings.Reader
import GrammarReach.Analysis.Report
import GrammarReach.Files.Tree
import GrammarReach.Command.Arguments
import GrammarReach.Command.Run
import GrammarReach.Main
import GrammarReach.Proofs.Bracket.CanonicalLabels
import GrammarReach.Proofs.Bracket.Nesting
import GrammarReach.Proofs.Graph.Indices
import GrammarReach.Proofs.Graph.Numbering
import GrammarReach.Proofs.Graph.Walks
import GrammarReach.Proofs.Graph.Components
import GrammarReach.Proofs.Container.Rows
import GrammarReach.Proofs.Derivation.Tables
import GrammarReach.Proofs.Bracket.BalancedWalks
import GrammarReach.Proofs.Bracket.ComponentGraphs
import GrammarReach.Proofs.Bracket.ParityGrammar
import GrammarReach.Proofs.Bracket.BalancedAnswers
import GrammarReach.Proofs.Saturation.Pruning
import GrammarReach.Proofs.Saturation.SegmentCounts
import GrammarReach.Proofs.Saturation.SupportedAnswers
import GrammarReach.Proofs.Analysis.Sides
import GrammarReach.Proofs.Analysis.Refinement
import GrammarReach.Proofs.Graph.Condensation
import GrammarReach.Proofs.Analysis.Approximation
import GrammarReach.Proofs.Analysis.Questions
import GrammarReach.Proofs.Analysis.Stages
import GrammarReach.Proofs.Analysis.Comparisons
import GrammarReach.Proofs.Analysis.ExactBounds
import GrammarReach.Proofs.Analysis.Histories
import GrammarReach.Proofs.Analysis.CondensedAnswers
import GrammarReach.Proofs.Saturation.SupportGraphs
import GrammarReach.Proofs.Analysis.AlphaFamilies
import GrammarReach.Proofs.Analysis.Endings
import GrammarReach.Proofs.Analysis.EdgeOrder
import GrammarReach.Proofs.Saturation.ClauseMeanings
import GrammarReach.Proofs.Bracket.PrintedGrammars
import GrammarReach.Proofs.Bracket.AutomatonProducts
import GrammarReach.Proofs.Saturation.IndexedJoin
import GrammarReach.Proofs.Bracket.SupportedWalks
import GrammarReach.Proofs.Analysis.MergedAnswers
import GrammarReach.Proofs.Graph.TargetEdges
import GrammarReach.Proofs.Bracket.SpelledBrackets
import GrammarReach.Proofs.Derivation.Retention
import GrammarReach.Proofs.Container.Partitions
import GrammarReach.Proofs.Graph.Partition
import GrammarReach.Proofs.Analysis.WrappedPaths
import GrammarReach.Proofs.Analysis.TripledAnswers
import GrammarReach.Proofs.Analysis.FlowPruning
import GrammarReach.Proofs.Graph.Insertions
import GrammarReach.Proofs.Graph.RepeatedEdges
import GrammarReach.Proofs.Graph.ContentTexts
import GrammarReach.Proofs.Saturation.NumberedJoins
import GrammarReach.Proofs.Saturation.MissingSegments
import GrammarReach.Proofs.Container.SearchLengths
import GrammarReach.Proofs.Bracket.PaddedLabels
import GrammarReach.Proofs.Graph.WrittenFiles
import GrammarReach.Proofs.Command.ResultFiles
