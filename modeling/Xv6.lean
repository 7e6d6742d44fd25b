import Xv6.Lib.Buffer
import Xv6.Lib.Bits
import Xv6.Kernel.Huffman.Heap
import Xv6.Kernel.Huffman.BuildTree
import Xv6.Kernel.Huffman.Codec
import Xv6.Kernel.Huffman.BitStream
import Xv6.Kernel.Huffman.Agreement
import Xv6.Kernel.Huffman.RoundTrip
import Xv6.Kernel.Huffman.Stream
import Xv6.Kernel.Huffman.Safety
import Xv6.Lib.BinaryHeap
import Xv6.Kernel.Huffman.HeapOrder
import Xv6.Kernel.Huffman.Proper
import Xv6.Lib.OptimalTree
import Xv6.Lib.Preserves
import Xv6.Kernel.Huffman.Optimal
import Xv6.Kernel.Huffman.Bounds
import Xv6.Kernel.Huffman.Leftover
import Xv6.Kernel.Huffman.Stale
import Xv6.Lib.Transition
import Xv6.Lib.RedoLog
import Xv6.Lib.Wp
import Xv6.Lib.Fields
import Xv6.Lib.Terminated
import Xv6.Lib.FreeMap
import Xv6.Kernel.Param
import Xv6.Kernel.Log.State
import Xv6.Kernel.Log.System
import Xv6.Kernel.Log.Invariant
import Xv6.Kernel.Log.Recovery
import Xv6.Kernel.Log.Reservation
import Xv6.Kernel.Fs.Layout
import Xv6.Kernel.Fs.State
import Xv6.Kernel.Fs.Blocks
import Xv6.Kernel.Fs.Inode
import Xv6.Kernel.Fs.Data
import Xv6.Kernel.Fs.Refs
import Xv6.Kernel.Fs.Consistent
import Xv6.Kernel.Fs.Write
import Xv6.Kernel.Fs.Writei
import Xv6.Kernel.Fs.Free
import Xv6.Kernel.Fs.Table
import Xv6.Kernel.Fs.Bitmap
import Xv6.Kernel.Fs.Read
import Xv6.Kernel.Fs.ByteArrays
import Xv6.Kernel.Fs.Compressed
import Xv6.Kernel.Fs.Image
import Xv6.Kernel.Fs.Dir
import Xv6.Kernel.Fs.Lasting
import Xv6.Kernel.Fs.Path
import Xv6.Kernel.Fs.References
import Xv6.Kernel.Fs.Namex
import Xv6.Kernel.Fs.Sysfile
import Xv6.Kernel.Fs.Linking
import Xv6.Kernel.Fs.Creating
import Xv6.Kernel.Fs.FailedCalls
import Xv6.Kernel.Fs.Transparent
import Xv6.Kernel.Fs.Raw
import Xv6.Kernel.Fs.OutOfSpace
import Xv6.Kernel.Fs.Transaction
import Xv6.Lib.Ring
import Xv6.Lib.Recency
import Xv6.Kernel.Bio.Cache
import Xv6.Kernel.Bio.Integrity
import Xv6.Kernel.Bio.Lru
import Xv6.Lib.RingBuffer
import Xv6.Kernel.Pipe.Buffer
import Xv6.Kernel.Pipe.Fifo
import Xv6.Kernel.Pipe.Fault
import Xv6.Kernel.Log.Cached
import Xv6.Kernel.Log.Pinned
import Xv6.Kernel.Log.PinnedRuns
import Xv6.Kernel.Log.PinnedCommit
import Xv6.Kernel.Log.Buffers
import Xv6.Kernel.Log.NoBuffers
import Xv6.Lib.Radix
import Xv6.Kernel.Vm.Pte
import Xv6.Kernel.Vm.Memory
import Xv6.Kernel.Vm.Table
import Xv6.Kernel.Vm.Ledger
import Xv6.Kernel.Vm.Walk
import Xv6.Kernel.Vm.Access
import Xv6.Kernel.Vm.Transfer
import Xv6.Kernel.Vm.Strings
import Xv6.Kernel.Vm.PageTable
import Xv6.Kernel.Vm.Contents
import Xv6.Kernel.Vm.User
import Xv6.Kernel.Vm.Copy
import Xv6.Kernel.Vm.Kinit
import Xv6.Kernel.Vm.Duplicate
import Xv6.Kernel.Proc.Growproc
import Xv6.Kernel.Proc.Fetch
import Xv6.Kernel.Proc.Info
import Xv6.Kernel.Proc.Records
import Xv6.Kernel.Proc.Live
import Xv6.Kernel.Proc.Active
import Xv6.User.Rle
import Xv6.Lib.Numeral
import Xv6.Kernel.Console.Printint
import Xv6.User.Printf
import Xv6.User.Grep
import Xv6.User.Memmove
import Xv6.Kernel.Sched.Proc
import Xv6.Kernel.Sched.Machine
import Xv6.Lib.Holders
import Xv6.Kernel.Sched.Shape
import Xv6.Kernel.Sched.Coherent
import Xv6.Kernel.Sched.Turn
import Xv6.Kernel.Sched.Preserved
import Xv6.Kernel.Sched.OneCpu
import Xv6.Kernel.Sched.FreeSlots
import Xv6.Kernel.Sched.Wakeup
import Xv6.Kernel.Sched.Family
import Xv6.Kernel.Sched.Reaping
import Xv6.Kernel.Locks.Nesting
import Xv6.Kernel.Sched.Checks
import Xv6.Kernel.Virtio.Disk
import Xv6.Kernel.Virtio.Atomic
