import MemFabric.AccOffload.Lru.Dispatch
import MemFabric.AccOffload.Lru.RowRun
import MemFabric.AccOffload.ResidentAddrs.Parallel
import MemFabric.Smem.Store.ReadBack
import MemFabric.Smem.Store.Breaks
import MemFabric.Smem.Group.Reuse
import MemFabric.Smem.Group.Counters
import MemFabric.Smem.Group.Recovery
import MemFabric.Smem.Collective.Scopes
import MemFabric.Smem.Collective.Gather
import MemFabric.Smem.BmEntry
import MemFabric.AccOffload.MemManager.Runs
import MemFabric.Hybm.VaRemoval
import MemFabric.Hybm.BatchCopy
import MemFabric.Hybm.Compose
import MemFabric.Hybm.Segment.Release
import MemFabric.Hybm.Segment.UserWindows
import MemFabric.Zbal.Sma.HeapLost
import MemFabric.Zbal.Classic.BarrierOverlap
import MemFabric.Zbal.Classic.AllGatherSmall
import MemFabric.Zbal.Classic.ExchangeSpace
import MemFabric.Zbal.Moe.Balance
import MemFabric.Zbal.Classic.AlltoAllRuns
import MemFabric.Zbal.GroupId
import MemFabric.Smem.Store.Overlay
import MemFabric.Hybm.ExInfo
import MemFabric.Smem.TransMemory
import MemFabric.Smem.Group.Redo
import MemFabric.Hybm.Segment.UserRollback
import MemFabric.Util.StrUtil
