import FlexPlan.PythonText
import FlexPlan.TransitionRuns
import FlexPlan.SynthesizerUtils
import FlexPlan.OccurrenceSearch
import FlexPlan.ResourceFile
import FlexPlan.Footprint
import FlexPlan.TableDependency
import FlexPlan.VersionNames
import FlexPlan.StableSort
import FlexPlan.SolverOutput
import FlexPlan.ParallelSolverRunner
import FlexPlan.PlanExtraction
import FlexPlan.CegisRound
import FlexPlan.ResultFileRace
import FlexPlan.CoreLearning
import FlexPlan.DistillMain
import FlexPlan.CoreSeparation
import FlexPlan.FinFlagRace
import FlexPlan.GuardedCommands
import FlexPlan.ResourcePlan
import FlexPlan.UpdateProgram
import FlexPlan.ResourceFeasibility
import FlexPlan.PlanExchange
import FlexPlan.FreePruning
import FlexPlan.ResourceCompleteness
import FlexPlan.PlanMeasures
import FlexPlan.ConditionText
import FlexPlan.SpecLanguage
import FlexPlan.SpecParser
import FlexPlan.SpecInterpret
import FlexPlan.SpecViolation
import FlexPlan.SpecDisjunction
import FlexPlan.FlowGraph
import FlexPlan.CfgAlgos
import FlexPlan.Dominance
import FlexPlan.DisjointSets
import FlexPlan.BasicBlocks
import FlexPlan.BlockFormation
import FlexPlan.DomFrontier
import FlexPlan.PostDominance
import FlexPlan.DecisionTree
import FlexPlan.ComputeDT
import FlexPlan.SliceLoop
import FlexPlan.PopulatedTables
import FlexPlan.ActionProfiles
import FlexPlan.SwitchChain
import FlexPlan.TableMatch
import FlexPlan.ValueSets
import FlexPlan.DisjunctiveNormalForm
import FlexPlan.CegisRun
import FlexPlan.ControlDependence
import FlexPlan.WorklistAlgo
import FlexPlan.InterproceduralFixpoint
import FlexPlan.LiveVariables
import FlexPlan.ReachingDefinitions
import FlexPlan.BalancedText
import FlexPlan.SelectEdges
import FlexPlan.PushIfs
import FlexPlan.IngressEgressMerge
import FlexPlan.EliminateDecl
import FlexPlan.DjSetUnion
import FlexPlan.DjSetExplain
import FlexPlan.CongruenceClosure
import FlexPlan.NegationNormalForm
import FlexPlan.MapLattice
import FlexPlan.ExpressionEncoding
import FlexPlan.ShiftSaturation
import FlexPlan.VerdictScan
import FlexPlan.ExtractPacket
import FlexPlan.IncrementalVerify
import FlexPlan.SnapshotVerify
import FlexPlan.FinalResult
import FlexPlan.AssertionReader
import FlexPlan.CoreClauses
import FlexPlan.BlockPrograms
import FlexPlan.DirectFormula
import FlexPlan.StatementText
import FlexPlan.AnnotationExpand
import FlexPlan.SmtText
import FlexPlan.PrintedFormula
import FlexPlan.ConcatStates
import FlexPlan.ConcatSmt
import FlexPlan.StackShifts
import FlexPlan.LookaheadConsumption
import FlexPlan.NecessaryAbstraction
