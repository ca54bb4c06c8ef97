import PimOfis.Api.State
import PimOfis.SpMV.IgSchedule
import PimOfis.SpMV.Handover
import PimOfis.Schedule.Progress
import PimOfis.PageRank.Bounds
import PimOfis.SpMV.RankSchedule
import PimOfis.Hw.Address
import PimOfis.Hw.Threads
import PimOfis.Hw.Transfer
import PimOfis.Mram.Mux
import PimOfis.Mram.Split
import PimOfis.Api.Launch
import PimOfis.Api.Push
import PimOfis.Api.StateVar
import PimOfis.Ufi.Selection
import PimOfis.Tasklets.Machine
import PimOfis.Tasklets.Stages
import PimOfis.Tasklets.Programs
import PimOfis.PageRank.Release
import PimOfis.Api.SetMux
import PimOfis.Mram.Reach
import PimOfis.Mram.Frame
import PimOfis.Lib.Cuts
import PimOfis.SpMV.RowSplit
import PimOfis.Lib.Greedy
import PimOfis.SpMV.NnzSplit
import PimOfis.SpMV.TaskletSplit
import PimOfis.SpMV.TileSplit
import PimOfis.Lib.Buf
import PimOfis.Lib.Csr
import PimOfis.SpMV.Coo
import PimOfis.Lib.Scatter
import PimOfis.SpMV.Csr2D
import PimOfis.SpMV.Rbdcsr
import PimOfis.Api.FifoPush
import PimOfis.Api.FifoFlush
import PimOfis.Lib.Bytes
import PimOfis.Mram.DpuProgram
import PimOfis.Lib.Loops
import PimOfis.Mram.ProgramCopy
import PimOfis.PageRank.Graph
import PimOfis.Lib.Walk
import PimOfis.PageRank.Server
import PimOfis.PageRank.Refinement
import PimOfis.PageRank.LocalRank
import PimOfis.Lib.Alloc
import PimOfis.PageRank.Buffers
import PimOfis.SpMV.LogicalDpus
import PimOfis.SpMV.Csr2DFile
import PimOfis.SpMV.EsHost
import PimOfis.Api.ParallelExec
import PimOfis.SpMV.IgBuffers
import PimOfis.Api.Bitmaps
import PimOfis.Api.Reports
import PimOfis.Api.DpuSet
import PimOfis.Hw.Interleave
import PimOfis.Api.DpuAlloc
import PimOfis.Api.AccessCheck
import PimOfis.Lib.CText
import PimOfis.SpMV.MatrixMarket
import PimOfis.Lib.CFile
import PimOfis.SpMV.MatrixFiles
import PimOfis.Lib.Index
import PimOfis.Hw.Blocks
import PimOfis.Hw.ScatterGather
import PimOfis.Lib.Phases
import PimOfis.PageRank.Kernel
import PimOfis.PageRank.KernelHost
import PimOfis.Lib.Settled
import PimOfis.SpMV.EndToEnd
import PimOfis.DpuRt.BuddyAlloc
import PimOfis.DpuRt.BuddyCalls
import PimOfis.DpuRt.BuddyHeap
import PimOfis.DpuRt.WramFifo
