import Ruda.Lib.Exec
import Ruda.Lib.OrdMap
import Ruda.Lib.Machine
import Ruda.Lib.RangeSet
import Ruda.Lib.Bytes
import Ruda.Memory.Taint
import Ruda.Memory.TaintRuns
import Ruda.Memory.Predict
import Ruda.Memory.ReserveOk
import Ruda.Memory.Quiet
import Ruda.Memory.LayoutSafe
import Ruda.Passes.ConstEvalExact
import Ruda.Kv.Manager
import Ruda.Kv.Pages
import Ruda.Kv.Tables
import Ruda.Kv.Rules
import Ruda.Kv.Accounting
import Ruda.Kv.Safety
import Ruda.Kv.PrefixCache
import Ruda.Kv.Rollback
import Ruda.Kv.Admission
import Ruda.Batch.History
import Ruda.Batch.Greedy
import Ruda.Batch.Progress
import Ruda.Batch.FencedRuns
import Ruda.Batch.WellFormed
import Ruda.Args.Layout
import Ruda.Lib.RoundRobin
import Ruda.Stream.Ordering
import Ruda.Stream.Synced
import Ruda.Device.ChannelDelivery
import Ruda.Optimizer.SharedSlots
import Ruda.Lib.Ring
import Ruda.Collective.Sums
import Ruda.Collective.Careful
import Ruda.Bundle.Answers
import Ruda.Rudapack.RoundTrip
import Ruda.Gguf.Sound
import Ruda.Autodiff.Merging
import Ruda.Parallel.Resumed
import Ruda.Data.Elastic
import Ruda.Generation.StopSequences
import Ruda.Serving.StopStringsHeld
import Ruda.Serving.ToolCallsGrow
import Ruda.Generation.TieredCacheRuns
import Ruda.Generation.SpeculativeExact
import Ruda.Passes.CompositeExact
import Ruda.Passes.CopyTransformExact
import Ruda.Tensor.ShapeReshape
import Ruda.Tensor.Slice
import Ruda.Tensor.SliceAgree
import Ruda.Lib.Chunks
import Ruda.Data.SftLoader
import Ruda.Data.SftStreams
import Ruda.Pytorch.Pickle
import Ruda.Pytorch.SkipPickle
import Ruda.Pytorch.Sharing
import Ruda.Pytorch.Machine
import Ruda.Pytorch.Follows
import Ruda.Pytorch.LegacyStorage
import Ruda.Pytorch.LegacyExact
import Ruda.Lib.Ravel
import Ruda.Pytorch.Rebuild
import Ruda.Pytorch.StridedView
import Ruda.Lib.Regroup
import Ruda.Tensor.ReshapeAction
import Ruda.Tensor.ReshapeOffsets
import Ruda.Tensor.QuantizedBytes
import Ruda.Rank.Protocol
import Ruda.Rank.Protocol
import Ruda.Rank.Frames
import Ruda.Rank.Agreement
import Ruda.Fusion.Order
import Ruda.Fusion.OrderExact
import Ruda.Data.ViewsAgree
import Ruda.Data.SamplerBalanced
import Ruda.Store.KeyRemapperExact
import Ruda.Lib.Cycle
import Ruda.Lib.ShortestPath
import Ruda.Lib.Bits
import Ruda.Lib.Acyclic
import Ruda.Lib.Kahn
import Ruda.Lib.Reach
import Ruda.Fusion.SubGraph
import Ruda.Fusion.Dag
import Ruda.Fusion.DagExact
import Ruda.Data.Pipeline
import Ruda.Data.PipelineExact
import Ruda.Data.Resumable
import Ruda.Data.ResumableExact
import Ruda.Topology.Rings
import Ruda.Lib.Segments
import Ruda.Data.TokenBatch
import Ruda.Data.TokenBatchPlans
import Ruda.Data.TokenBatchExact
import Ruda.Lib.Gather
import Ruda.Data.BatchLoader
import Ruda.Data.MultiThread
import Ruda.Data.MultiThreadExact
import Ruda.Data.MultiThreadRuns
