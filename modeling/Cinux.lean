import Cinux.System.Machine
import Cinux.Ring.Basic
import Cinux.Ring.Counters
import Cinux.Kernel.Block
import Cinux.Bio.Bcache
import Cinux.Bio.Sharing
import Cinux.System.Program
import Cinux.System.Locks
import Cinux.Bio.Io
import Cinux.Fs.Icache
import Cinux.Fs.InodeRefs
import Cinux.Fs.Syscalls
import Cinux.Fs.Deadlock
import Cinux.Proc.Table
import Cinux.Proc.ExitWait
import Cinux.Proc.Sleep
import Cinux.Bio.Sequential
import Cinux.Redo.Basic
import Cinux.Log.Machine
import Cinux.Log.Buffers
import Cinux.Log.Crash
import Cinux.Ext2.File
import Cinux.Ext2.Alloc
import Cinux.Ext2.AllocSound
import Cinux.Ext2.Dir
import Cinux.Ext2.Dirlink
import Cinux.Ext2.Insertion
import Cinux.Ext2.Unlink
import Cinux.Ext2.Driver
import Cinux.Ext2.Coherence
import Cinux.Ext2.WriteThrough
import Cinux.Ext2.DirBlocks
import Cinux.Proc.Wakeup
import Cinux.Pipe.Basic
import Cinux.Pipe.Wakeup
import Cinux.Proc.Recycle
import Cinux.Bio.Versions
import Cinux.Ext2.Durable
import Cinux.Fs.Kernel
import Cinux.System.Occurrences
import Cinux.Fs.Balance
import Cinux.Fs.CallBalance
import Cinux.Fs.Creation
import Cinux.Fs.Namei
import Cinux.System.Requests
import Cinux.Virtio.Disk
import Cinux.Virtio.Chains
import Cinux.Virtio.Protocol
import Cinux.Ext2.Release
import Cinux.Ext2.BlockMap
import Cinux.Proc.Pids
import Cinux.Fs.Links
import Cinux.Console.Basic
import Cinux.Console.Lines
import Cinux.System.Ownership
import Cinux.Vm.Memory
import Cinux.Vm.Tree
import Cinux.Vm.Owned
import Cinux.Ext2.Lookup
import Cinux.Ext2.Bounds
import Cinux.Ext2.Scan
import Cinux.Ext2.Leak
import Cinux.Ext2.Marks
import Cinux.Ext2.Reads
import Cinux.Ext2.Counts
import Cinux.Vm.Sbrk
import Cinux.Vm.Space
import Cinux.Vm.Unmap
import Cinux.Vm.Grow
import Cinux.Vm.Process
import Cinux.Vm.Strings
import Cinux.System.Slots
import Cinux.Vm.Exec
import Cinux.Vm.Lifetimes
import Cinux.Vm.PageOwners
import Cinux.Ext2.Geometry
import Cinux.Fs.WriteBack
import Cinux.Fs.SelfDeadlock
import Cinux.Ext2.Truncate
import Cinux.Vm.Map
import Cinux.Vm.Focus
import Cinux.Fs.Frames
import Cinux.Vm.ExecFails
import Cinux.Vm.Arguments
import Cinux.Vm.Segments
import Cinux.Vm.Fork
import Cinux.Kernel.Printf
import Cinux.Proc.Interrupts
