import GraphAutofusion.SuperKernel.InitialSplitProgress
import GraphAutofusion.SuperKernel.ScheModeUniform
import GraphAutofusion.SuperKernel.SplitGraphRun
import GraphAutofusion.SuperKernel.PostProcessSync
import GraphAutofusion.Autofuse.AutoTuning
import GraphAutofusion.SuperKernel.StreamHeads
import GraphAutofusion.SuperKernel.InitSKGraph
import GraphAutofusion.SuperKernel.QueueOrder
import GraphAutofusion.SuperKernel.JitOrder
import GraphAutofusion.Autofuse.FusedGraphRun
import GraphAutofusion.Autofuse.RecomputeSplitRun
import GraphAutofusion.AscIr.RoundTrip
import GraphAutofusion.Symbolizer.GuardRun
import GraphAutofusion.SuperKernel.WaitReorder
import GraphAutofusion.GraphMetadef.CycleDetector
import GraphAutofusion.GraphMetadef.FastGraph
import GraphAutofusion.GraphMetadef.TopoSorting
import GraphAutofusion.GraphMetadef.ArgsFormatRoundTrip
import GraphAutofusion.Autofuse.BufQueOrders
import GraphAutofusion.SuperKernel.DeadlockRefineRun
import GraphAutofusion.SuperKernel.LockRollback
import GraphAutofusion.SuperKernel.ScopeBits
import GraphAutofusion.Autofuse.OverlapComponents
import GraphAutofusion.Autofuse.MemReuseAlloc
import GraphAutofusion.Autofuse.CoreNumSearch
import GraphAutofusion.SuperKernel.JitWorkspace
import GraphAutofusion.Autofuse.TransposeGroup
import GraphAutofusion.Autofuse.VectorFuncLimits
import GraphAutofusion.Autofuse.PgoLegality
import GraphAutofusion.Autofuse.L0TileSolver
import GraphAutofusion.SuperKernel.OptionsRegex
import GraphAutofusion.SuperKernel.ExtendOption
import GraphAutofusion.Autofuse.AxisMapping
import GraphAutofusion.Autofuse.LoadSequenceOrder
import GraphAutofusion.Autofuse.LoopAxesResult
import GraphAutofusion.Autofuse.RedundantLoadsValues
import GraphAutofusion.Autofuse.GroupReductionResult
import GraphAutofusion.GraphMetadef.QuickListRun
import GraphAutofusion.Att.OperatorCache
import GraphAutofusion.Att.VisitedNode
import GraphAutofusion.AscIr.AxisTableRun
import GraphAutofusion.AscIr.ViewOffsets
import GraphAutofusion.Autofuse.TilingGroupOrder
