import Ignium.Heap.KernelHeap
import Ignium.Heap.Runs
import Ignium.Heap.Slabs
import Ignium.Ipc.CompleteKill
import Ignium.Ipc.DeadPeers
import Ignium.Ipc.Donations
import Ignium.Ipc.ExactlyOnce
import Ignium.Ipc.Inheritance
import Ignium.Ipc.Queues
import Ignium.Ipc.Registers
import Ignium.Ipc.Stages
import Ignium.Ipc.System
import Ignium.Ipc.Timing
import Ignium.Ipc.World
import Ignium.Kernel.Blank
import Ignium.Kernel.Board
import Ignium.Kernel.Calls
import Ignium.Kernel.Creation
import Ignium.Kernel.Dangling
import Ignium.Kernel.Directory
import Ignium.Kernel.Effects
import Ignium.Kernel.Elf
import Ignium.Kernel.ElfFormat
import Ignium.Kernel.ElfLoad
import Ignium.Kernel.Fdt
import Ignium.Kernel.FdtSafe
import Ignium.Kernel.FdtTokens
import Ignium.Kernel.FdtTree
import Ignium.Kernel.Grants
import Ignium.Kernel.HeldPages
import Ignium.Kernel.Image
import Ignium.Kernel.Incarnations
import Ignium.Kernel.Intact
import Ignium.Kernel.Ledger
import Ignium.Kernel.Loader
import Ignium.Kernel.Loading
import Ignium.Kernel.Machine
import Ignium.Kernel.NoEffect
import Ignium.Kernel.Ownership
import Ignium.Kernel.PageCaps
import Ignium.Kernel.Process
import Ignium.Kernel.Reserved
import Ignium.Kernel.Revocation
import Ignium.Kernel.Room
import Ignium.Kernel.Slots
import Ignium.Kernel.UseAfterFree
import Ignium.Kernel.UserStack
import Ignium.Lib.Blocks
import Ignium.Lib.Bytes
import Ignium.Lib.Interleave
import Ignium.Lib.Intrusive
import Ignium.Lib.Machine
import Ignium.Lib.Outcome
import Ignium.Lib.Registry
import Ignium.Lib.Returns
import Ignium.Mem.Buddy
import Ignium.Mem.Calls
import Ignium.Mem.Coalesced
import Ignium.Mem.Count
import Ignium.Mem.FreeLaw
import Ignium.Mem.Init
import Ignium.Mem.Ops
import Ignium.Mem.Runs
import Ignium.Mem.Shape
import Ignium.Mmu.Exact
import Ignium.Mmu.KernelMap
import Ignium.Mmu.Levels
import Ignium.Mmu.PageTable
import Ignium.Mmu.Refinement
import Ignium.Mmu.Spaces
import Ignium.Mmu.Split
import Ignium.Mmu.Tables
import Ignium.Mmu.Teardown
import Ignium.Mmu.Trees
import Ignium.Mmu.UserMap
import Ignium.Mmu.View
import Ignium.Sched.Identity
import Ignium.Sched.OneHart
import Ignium.Sched.Ranks
import Ignium.Sched.ReadyQueues
import Ignium.Sched.Scheduler
import Ignium.Sched.Sections
import Ignium.Sched.Slots
import Ignium.Sched.Thread
import Ignium.Sched.Ticks
import Ignium.Sched.Tidy
import Ignium.Sched.Wakeups
import Ignium.Sched.Wellformed
import Ignium.User.FilePages
import Ignium.User.FileStore
import Ignium.User.FileTable
import Ignium.User.MemoryServer
import Ignium.User.Ramfs
