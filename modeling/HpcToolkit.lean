import HpcToolkit.Cct.MergeMetricLists
import HpcToolkit.Cct.Cct2Metrics
import HpcToolkit.Fmt.ReadBack
import HpcToolkit.Trace.Append
import HpcToolkit.ProfileDb.DoubleBufferedOutput
import HpcToolkit.Prof.Propagation
import HpcToolkit.Prof.Optimize
import HpcToolkit.Prof.CombinationOrder
import HpcToolkit.FlowGraph.ExteriorDistribution
import HpcToolkit.FlowGraph.InteriorRounds
import HpcToolkit.Sources.MetricSection
import HpcToolkit.Packed.ContextsReadBack
import HpcToolkit.TraceDb.ThreadRuns
import HpcToolkit.TraceDb.Layout
import HpcToolkit.Pipeline.OrderedWrite
import HpcToolkit.Pipeline.WavefrontsDelivered
import HpcToolkit.Pipeline.Timepoints
import HpcToolkit.Pipeline.TimeBounds
import HpcToolkit.Util.WorkExactlyOnce
import HpcToolkit.Util.RangeMap
import HpcToolkit.Classify.DwarfLeaves
import HpcToolkit.Classify.ElfSymbols
import HpcToolkit.Pipeline.Metrics
import HpcToolkit.Collections.IdMap
import HpcToolkit.Collections.Stack
import HpcToolkit.Collections.MpscQueueFifo
import HpcToolkit.Collections.SplayTree
import HpcToolkit.Packed.MetricsAgree
import HpcToolkit.HpcStruct.IntervalErase
import HpcToolkit.HpcStruct.Output
import HpcToolkit.HpcStruct.StmtPartition
import HpcToolkit.HpcStruct.Conservation
import HpcToolkit.StructFile.Recursion
import HpcToolkit.StructFile.AddressSets
import HpcToolkit.MetaDb.WholeFile
import HpcToolkit.Unwind.RecipePublish
import HpcToolkit.Cct.Walk
import HpcToolkit.CctDb.ContextRanges
import HpcToolkit.Ompt.ResolveRegion
import HpcToolkit.ThreadIds.FinalizeInvariant
import HpcToolkit.Memleak.Transparent
import HpcToolkit.Collections.BalancedTree
import HpcToolkit.Collections.BinaryTree
import HpcToolkit.Fmt.MetricDescriptor
import HpcToolkit.Locks.McsLockRuns
import HpcToolkit.Formats.Records
import HpcToolkit.Formats.Context
import HpcToolkit.Collections.CSkipListRuns
import HpcToolkit.Ompt.NotificationRuns
import HpcToolkit.Fnbounds.Leb128
import HpcToolkit.Fnbounds.FunctionTable
import HpcToolkit.Util.LinearLruCache
import HpcToolkit.Cct.Backtrace
import HpcToolkit.Prof.DenseIds
import HpcToolkit.MetaDb.IdentifierNames
import HpcToolkit.MetaDb.FormulaReadBack
import HpcToolkit.Loadmap.DsoRecords
import HpcToolkit.Gpu.KernelCompletion
import HpcToolkit.Gpu.TraceSampling
import HpcToolkit.Fmt.NvPairs
import HpcToolkit.X86.FixUps
import HpcToolkit.BlameShift.BlameMap
import HpcToolkit.Threads.DataFini
import HpcToolkit.Perf.EventNames
