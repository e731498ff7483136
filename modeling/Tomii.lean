import Tomii.Foundations.MachineWord
import Tomii.Foundations.LazyReset
import Tomii.Buffers.GenPacked
import Tomii.Buffers.NodeDep
import Tomii.Buffers.EntrySpec
import Tomii.Buffers.Batching
import Tomii.Graph.Struct
import Tomii.Graph.Build
import Tomii.Runtime.Tables
import Tomii.Runtime.NodeCache
import Tomii.Runtime.Successor
import Tomii.Runtime.SlotCells
import Tomii.Runtime.LazyRefinement
import Tomii.Runtime.EdgeCalls
import Tomii.Runtime.CountBalance
import Tomii.Runtime.Dispatch
import Tomii.Runtime.Resolve
import Tomii.Runtime.CallTotals
import Tomii.Runtime.WalkSpec
import Tomii.Runtime.BulkCompletion
import Tomii.Runtime.BatchSpec
import Tomii.Runtime.Coalesce
import Tomii.Runtime.ArgResolution
import Tomii.Runtime.Releases
import Tomii.Runtime.ReleaseRuns
import Tomii.Runtime.DispatchSafety
import Tomii.Foundations.Interleaving
import Tomii.Runtime.SharedSlots
import Tomii.Runtime.ThreadPrograms
import Tomii.Runtime.ThreadPhases
import Tomii.Runtime.ThreadAccounts
import Tomii.Runtime.ThreadTickets
import Tomii.Runtime.ThreadCounters
import Tomii.Runtime.ThreadClaims
import Tomii.Runtime.ThreadWords
import Tomii.Runtime.ThreadSteps
import Tomii.Runtime.ThreadBrackets
import Tomii.Foundations.WordSet
import Tomii.Slots.SlotTable
import Tomii.Slots.Coherence
import Tomii.Slots.SlotRuns
import Tomii.Slots.SlotMoves
import Tomii.Slots.NetworkSlots
import Tomii.Slots.SlotPriority
import Tomii.Slots.SlotReuse
import Tomii.Slots.FrameNumbers
import Tomii.Slots.Admission
import Tomii.Runtime.ThreadReleases
import Tomii.Runtime.ThreadSources
import Tomii.Runtime.ThreadChecks
import Tomii.Runtime.ThreadResets
import Tomii.Runtime.ThreadActions
import Tomii.Runtime.ThreadWalks
import Tomii.Runtime.ThreadJobs
import Tomii.Runtime.FrameSafety
import Tomii.Runtime.FrameClaims
import Tomii.Runtime.WakeUps
import Tomii.Runtime.FrameAccounts
import Tomii.Runtime.ConditionFrames
import Tomii.Types.SlicedContainer
import Tomii.Types.SliceGuards
import Tomii.Types.SliceRollback
import Tomii.Slots.FrameFlow
import Tomii.Slots.BudgetRuns
import Tomii.Slots.CompletionTests
import Tomii.Slots.FrameCounts
import Tomii.Slots.FrameDrops
import Tomii.Slots.PacketRoutes
import Tomii.Slots.SlotHolders
import Tomii.Slots.InitialNodes
import Tomii.Foundations.Texts
import Tomii.Types.LiteralParsers
import Tomii.Types.PythonValues
import Tomii.Types.ValueRoundTrip
import Tomii.Types.ValueSurvival
import Tomii.Exports.Signature
import Tomii.Exports.Companion
import Tomii.Exports.Converter
import Tomii.Exports.Agreement
import Tomii.Exports.CRightWrappers
import Tomii.Types.RuntimeValues
import Tomii.Buffers.ResultMap
import Tomii.Buffers.ResultMapSpec
import Tomii.Runtime.PostNodes
import Tomii.Runtime.ConditionIndexes
import Tomii.Runtime.FetchedCells
import Tomii.Runtime.ConditionDependencies
import Tomii.Foundations.SlotWrites
import Tomii.Runtime.ArgBuffers
import Tomii.Runtime.ArgLayout
import Tomii.Runtime.ArgPositions
import Tomii.Runtime.ArgTemplates
import Tomii.Runtime.BulkArgs
import Tomii.Runtime.UncheckedTwins
import Tomii.Runtime.OneToOneFetch
import Tomii.Runtime.FanoutArrivals
import Tomii.Runtime.FanoutRuns
import Tomii.Runtime.CriticalPath
import Tomii.Graph.LiteralCapture
import Tomii.Runtime.AffinityGroups
import Tomii.Runtime.SuccessorArena
import Tomii.Builder.PyCallables
import Tomii.Runtime.BulkKernel
import Tomii.Foundations.OrderedMap
import Tomii.Slots.ParkedPackets
import Tomii.Timing.FrameStatistics
import Tomii.Codegen.RoundTrip
import Tomii.Scheduler.JobRuns
import Tomii.Scheduler.ShardLoads
import Tomii.Handover.Handovers
import Tomii.Codegen.LoadedGraph
