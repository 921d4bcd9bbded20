import BadgerOS.Pmm.Coalescing
import BadgerOS.Pmm.Init
import BadgerOS.Vmm.Split
import BadgerOS.Vmm.ZeroPage
import BadgerOS.Vmm.Handles
import BadgerOS.Vmm.Isolation
import BadgerOS.Vmm.Requests
import BadgerOS.Vmm.Shrink
import BadgerOS.Vfs.ByteFile
import BadgerOS.Vfs.Writers
import BadgerOS.Mem.Coherence
import BadgerOS.Mem.WriteBack
import BadgerOS.Heap.Safety
import BadgerOS.Vfs.VNodes
import BadgerOS.Vfs.Links
import BadgerOS.Vfs.Crossing
import BadgerOS.Vfs.MediaKeys
import BadgerOS.Vfs.Creations
import BadgerOS.Vfs.DentMoves
import BadgerOS.Vfs.Directories
import BadgerOS.Fat.Chains
import BadgerOS.Fat.ClusterOwners
import BadgerOS.Ext2.BlockProgress
import BadgerOS.Ext2.BlockRuns
import BadgerOS.Device.Partition
import BadgerOS.Sync.Wakeups
import BadgerOS.Sync.Unintr
import BadgerOS.Sync.Waitlist
import BadgerOS.Sync.GracePeriod
import BadgerOS.Pipe.Stream
import BadgerOS.Ramfs.Refinement
import BadgerOS.Vmm.Mapping
import BadgerOS.Vmm.DeviceBits
import BadgerOS.Vmm.Cleanup
import BadgerOS.Vmm.Leaves
import BadgerOS.Sched.RoundRobin
import BadgerOS.Sched.Stealing
import BadgerOS.Device.Bus
import BadgerOS.Device.Irq
import BadgerOS.Process.Signal
import BadgerOS.Arch.LazyFloat
import BadgerOS.Util.RadixFailures
import BadgerOS.Util.IdAlloc
