import Yaos.Alloc.FrameStore
import Yaos.Alloc.HolePool
import Yaos.Alloc.HolePool.Parted
import Yaos.Alloc.HolePool.Pool
import Yaos.Alloc.HolePool.Proofs
import Yaos.Alloc.HolePool.Sorted
import Yaos.Alloc.HolePool.Spin
import Yaos.Alloc.KHeap
import Yaos.Alloc.KHeap.Blocks
import Yaos.Alloc.LinearZone
import Yaos.Alloc.LinearZone.Blocks
import Yaos.Alloc.LinearZone.FirstFit
import Yaos.Alloc.LinearZone.Hints
import Yaos.Alloc.LinearZone.Lending
import Yaos.Alloc.LinearZone.Nodes
import Yaos.Alloc.LinearZone.Proofs
import Yaos.Alloc.LinearZone.Runs
import Yaos.Alloc.LinearZone.Tidy
import Yaos.Alloc.Locks
import Yaos.Alloc.PhyPage
import Yaos.Alloc.PhyPage.Nodes
import Yaos.Alloc.PhyPage.Proofs
import Yaos.Blk
import Yaos.Blk.WakeUp
import Yaos.Boot.Alternative
import Yaos.Boot.Alternative.Proofs
import Yaos.Boot.Cpus
import Yaos.Boot.IoMem
import Yaos.Boot.IoMem.Remap
import Yaos.Boot.Loader
import Yaos.Boot.Loader.Proofs
import Yaos.Boot.Madt
import Yaos.Boot.OnMem
import Yaos.Boot.OnMem.Proofs
import Yaos.Boot.Pml4
import Yaos.Boot.Pml4.Proofs
import Yaos.Boot.Reserve
import Yaos.Boot.Reserve.Bound
import Yaos.Clock
import Yaos.Clock.Proofs
import Yaos.DirectMap
import Yaos.Exhaustion
import Yaos.Fault
import Yaos.Httpd.Pool
import Yaos.Httpd.Pool.Proofs
import Yaos.Httpd.Pool.Runs
import Yaos.Httpd.Pool.Safety
import Yaos.Httpd.Pool.Search
import Yaos.Httpd.Request
import Yaos.Httpd.Response
import Yaos.Httpd.SendChain
import Yaos.Kthread
import Yaos.Kthread.Current
import Yaos.Kthread.Parents
import Yaos.Kthread.Poll
import Yaos.Kthread.Poll.Proofs
import Yaos.Lib.Bitmap
import Yaos.Lib.ByteMemory
import Yaos.Lib.Calendar
import Yaos.Lib.Chain
import Yaos.Lib.Cycle
import Yaos.Lib.Family
import Yaos.Lib.Intervals
import Yaos.Lib.Occurrences
import Yaos.Lib.OnesComplement
import Yaos.Lib.Pointers
import Yaos.Lib.Records
import Yaos.Lib.Regions
import Yaos.Lib.Ring
import Yaos.Lib.Run
import Yaos.Lib.TableTree
import Yaos.Lib.Word
import Yaos.Lua.Content
import Yaos.Lua.Promise
import Yaos.Lua.Promise.Adoption
import Yaos.Lua.Promise.Balance
import Yaos.Lua.Promise.Calls
import Yaos.Lua.Promise.Errors
import Yaos.Lua.Promise.Handlers
import Yaos.Lua.Promise.Next
import Yaos.Lua.Promise.OnStack
import Yaos.Lua.Promise.OnStack.Proofs
import Yaos.Lua.Promise.Once
import Yaos.Lua.Promise.Passing
import Yaos.Lua.Promise.Proofs
import Yaos.Lua.Promise.Registry
import Yaos.Lua.Promise.Valued
import Yaos.Lua.Split
import Yaos.Lua.ThreadPool
import Yaos.Memory.Copy
import Yaos.Memory.Move
import Yaos.Memory.Move.Proofs
import Yaos.Memory.Set
import Yaos.Module
import Yaos.Msi
import Yaos.Net
import Yaos.Net.Checksum
import Yaos.Net.Checksum.Agree
import Yaos.Net.Checksum.Proofs
import Yaos.Net.Checksum.Verify
import Yaos.Net.Receive
import Yaos.Net.Scatter
import Yaos.Net.Transmit
import Yaos.PageTable
import Yaos.PageTable.Copy
import Yaos.PageTable.Cover
import Yaos.PageTable.Failure
import Yaos.PageTable.Fresh
import Yaos.PageTable.Giant
import Yaos.PageTable.Ledger
import Yaos.PageTable.Map
import Yaos.PageTable.MapAlloc
import Yaos.PageTable.PageRange
import Yaos.PageTable.Pages
import Yaos.PageTable.Range
import Yaos.PageTable.Runs
import Yaos.PageTable.SoftWalk
import Yaos.PageTable.Split
import Yaos.PageTable.Unmap
import Yaos.PageTable.V2p
import Yaos.PageTable.Walk
import Yaos.PageTable.Writes
import Yaos.Pci
import Yaos.Pci.Device
import Yaos.Pci.Device.Proofs
import Yaos.Pci.Proofs
import Yaos.PhyMem
import Yaos.PhyMem.Exhausted
import Yaos.PhyMem.Runs
import Yaos.PhyMem.SmallPages
import Yaos.Printk
import Yaos.Printk.Format
import Yaos.Printk.Number
import Yaos.Slub
import Yaos.Slub.Proofs
import Yaos.Slub.Runs
import Yaos.Slub.Safety
import Yaos.Softirq
import Yaos.Stack
import Yaos.Stack.Guards
import Yaos.Stack.Release
import Yaos.Tasklet
import Yaos.Tasklet.Proofs
import Yaos.Timer
import Yaos.Timer.Apic
import Yaos.Timer.Event
import Yaos.Timer.Order
import Yaos.Timer.Proofs
import Yaos.Timer.Runs
import Yaos.Vga
import Yaos.Vga.Proofs
import Yaos.Virtio
import Yaos.Virtio.Invariant
import Yaos.Virtio.Proofs
import Yaos.Virtio.Runs
import Yaos.Virtio.Setup
import Yaos.Virtio.Traffic
