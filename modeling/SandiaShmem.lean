import SandiaShmem.Core.Runs
import SandiaShmem.Core.FifoLock
import SandiaShmem.Core.OneSided
import SandiaShmem.Core.Driving
import SandiaShmem.Core.ParentTree
import SandiaShmem.Core.Reduction
import SandiaShmem.Core.LockTrace
import SandiaShmem.Core.Tally
import SandiaShmem.Core.While
import SandiaShmem.Core.Linear
import SandiaShmem.Core.FreeList
import SandiaShmem.Core.Fill
import SandiaShmem.Core.Scan
import SandiaShmem.Core.Scatter
import SandiaShmem.Core.Ledger
import SandiaShmem.Core.Slice
import SandiaShmem.Core.Registers
import SandiaShmem.Core.LostUpdate
import SandiaShmem.Core.CInt
import SandiaShmem.Core.CString
import SandiaShmem.Core.ByteMem
import SandiaShmem.Core.LineFill
import SandiaShmem.Core.BitTrie
import SandiaShmem.Core.Rings
import SandiaShmem.Core.LinkedTrie
import SandiaShmem.Core.BitScan
import SandiaShmem.Core.Blocks
import SandiaShmem.Core.WordMem
import SandiaShmem.Core.Allocator
import SandiaShmem.Config
import SandiaShmem.Checks.ActiveSet
import SandiaShmem.Checks.Symmetric
import SandiaShmem.Lock.Mcs
import SandiaShmem.Lock.McsInv
import SandiaShmem.Lock.Spinlock
import SandiaShmem.Teams.Psync
import SandiaShmem.Teams.Bits
import SandiaShmem.Teams.Shared
import SandiaShmem.Teams.Alloc
import SandiaShmem.Teams.MyPe
import SandiaShmem.Teams.SplitStrided
import SandiaShmem.Teams.Split2d
import SandiaShmem.Teams.Translate
import SandiaShmem.Teams.Reuse
import SandiaShmem.Collectives.Trees
import SandiaShmem.Collectives.KaryTree
import SandiaShmem.Collectives.CollInit
import SandiaShmem.Collectives.CallTree
import SandiaShmem.Collectives.ReduceLocal
import SandiaShmem.Collectives.Calls
import SandiaShmem.Collectives.SyncTree
import SandiaShmem.Collectives.SyncDissem
import SandiaShmem.Collectives.Barrier
import SandiaShmem.Collectives.Ring
import SandiaShmem.Collectives.RecDbl
import SandiaShmem.Collectives.Bcast
import SandiaShmem.Collectives.ReduceTree
import SandiaShmem.Collectives.Fcollect
import SandiaShmem.Collectives.FcollectRing
import SandiaShmem.Collectives.FcollectRecdbl
import SandiaShmem.Collectives.FcollectLinear
import SandiaShmem.Collectives.FcollectSelect
import SandiaShmem.Collectives.KaryOverflow
import SandiaShmem.Collectives.Collect
import SandiaShmem.Collectives.Alltoall
import SandiaShmem.Teams.Broadcast
import SandiaShmem.Transport.PtlMutex
import SandiaShmem.Transport.OfiStx
import SandiaShmem.Transport.PtlQuiet
import SandiaShmem.Transport.OfiQuiet
import SandiaShmem.Transport.OfiFragments
import SandiaShmem.Transport.OfiPosts
import SandiaShmem.Transport.PutSignal
import SandiaShmem.Transport.PutWait
import SandiaShmem.Transport.PtlEvents
import SandiaShmem.Transport.UcxPut
import SandiaShmem.Transport.Mswap
import SandiaShmem.Transport.Signal
import SandiaShmem.Transport.Contexts
import SandiaShmem.Transport.OfiCtx
import SandiaShmem.Transport.PtlCtx
import SandiaShmem.Transport.Translate
import SandiaShmem.Transport.StxAuto
import SandiaShmem.Transport.UcxAddr
import SandiaShmem.Transport.PtlPt
import SandiaShmem.Runtime.SymHeap
import SandiaShmem.Runtime.Node
import SandiaShmem.Runtime.MpiKvs
import SandiaShmem.Runtime.HexCodec
import SandiaShmem.Runtime.ShmemFreeList
import SandiaShmem.Runtime.UtilWrap
import SandiaShmem.Sync.Compare
import SandiaShmem.Sync.TestAll
import SandiaShmem.Sync.AnySome
import SandiaShmem.Sync.WaitBlock
import SandiaShmem.Heap.Chunks
import SandiaShmem.Heap.TreeBins
import SandiaShmem.Heap.Layout
import SandiaShmem.Heap.Bins
import SandiaShmem.Heap.State
import SandiaShmem.Heap.Links
import SandiaShmem.Heap.Linked
import SandiaShmem.Heap.Inv
import SandiaShmem.Heap.System
import SandiaShmem.Heap.Search
import SandiaShmem.Heap.Malloc
import SandiaShmem.Heap.Free
import SandiaShmem.Heap.Reshape
import SandiaShmem.Heap.Realloc
import SandiaShmem.Heap.Memalign
import SandiaShmem.Heap.Calls
import SandiaShmem.Heap.Placement
import SandiaShmem.Core.Progress
import SandiaShmem.Collectives.Progress
import SandiaShmem.Collectives.SyncProgress
import SandiaShmem.Collectives.BcastProgress
import SandiaShmem.Collectives.RecDblProgress
import SandiaShmem.Collectives.RingProgress
import SandiaShmem.Collectives.ReduceProgress
import SandiaShmem.Collectives.FcollectProgress
import SandiaShmem.Collectives.AlltoallProgress
import SandiaShmem.Collectives.CollectProgress
