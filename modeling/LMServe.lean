import LMServe.Lib.Hoare
import LMServe.Lib.Table
import LMServe.Lib.Run
import LMServe.Lib.Chunk
import LMServe.Lib.Ownership
import LMServe.Sequence
import LMServe.BlockAllocator
import LMServe.BlockManager
import LMServe.Tables
import LMServe.RefCount
import LMServe.RefCountOps
import LMServe.PageTable
import LMServe.PageTableOps
import LMServe.PageTableFree
import LMServe.PageTableRegions
import LMServe.Scheduler
import LMServe.System
import LMServe.Queues
import LMServe.Watching
import LMServe.Ledger
import LMServe.Scheduling
import LMServe.Allocation
import LMServe.Footprint
import LMServe.SystemInv
import LMServe.SystemSteps
import LMServe.Worker
import LMServe.Admission
import LMServe.Engine
import LMServe.ClearCache
import LMServe.Controller
import LMServe.Pages
import LMServe.Sharing
import LMServe.Hidden
import LMServe.Reservations
import LMServe.Transfer
import LMServe.Holdings
import LMServe.Custody
import LMServe.Orphans
import LMServe.Forward
import LMServe.Census
import LMServe.Wrapper
import LMServe.Delivery
import LMServe.Wakeup
import LMServe.BlockMaps
import LMServe.Passes
import LMServe.Lifecycle
import LMServe.LifecycleRun
import LMServe.Residency
import LMServe.Samples
import LMServe.HashTable
import LMServe.Eviction
import LMServe.Devices
import LMServe.Content
import LMServe.MapFrame
import LMServe.Leaks
import LMServe.Activation
import LMServe.FreeList
import LMServe.Reserving
import LMServe.Handover
import LMServe.Lib.Channel
import LMServe.Handshake
import LMServe.Idle
import LMServe.Frames
import LMServe.Publishing
import LMServe.Clearing
import LMServe.Background
import LMServe.Reordering
import LMServe.Monitor
import LMServe.Sharding
import LMServe.Checkpoint
import LMServe.Naming
import LMServe.Packing
import LMServe.CopyPlans
import LMServe.Collisions
import LMServe.Filling
import LMServe.Coverage
import LMServe.Budget
import LMServe.Tiling
import LMServe.Rounds
import LMServe.Lib.Rotation
import LMServe.Router
import LMServe.DoubleFree
import LMServe.Reclaim
import LMServe.Limits
import LMServe.Hosted
import LMServe.Steady
import LMServe.Progress
import LMServe.Counted
import LMServe.Listings
import LMServe.InFlight
import LMServe.Copying
import LMServe.Ranks
import LMServe.Completion
