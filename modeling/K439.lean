import K439.Lib.Run
import K439.Lib.Linked
import K439.Lib.Tiling
import K439.Lib.Blocks
import K439.Lib.Words
import K439.Heap.Basic
import K439.Heap.Layout
import K439.Exit.Basic
import K439.Exit.Once
import K439.Heap.Clients
import K439.Heap.Requests
import K439.Lib.Ledger
import K439.Lib.Loop
import K439.Sched.Basic
import K439.Sched.Places
import K439.Sched.Runs
import K439.Sched.Semaphore
import K439.Lib.Account
import K439.Sched.Lives
import K439.Sched.Interrupts
import K439.Sched.Nesting
import K439.Print.Dopr
import K439.Print.Format
import K439.Print.Numbers
import K439.Sched.Program
import K439.Sched.BoundedBuffer
import K439.Sched.Event
import K439.Vmm.Basic
import K439.Vmm.Frame
import K439.Vmm.Operations
import K439.Vmm.Runs
import K439.Fs.ReadBack
import K439.Fs.Remove
import K439.Fs.Calls
import K439.Fs.MakeDirectory
import K439.Fs.Coherent
import K439.Fs.Cached
import K439.Fs.Remount
import K439.Fs.FileRead
import K439.Fs.Path
import K439.Fs.Acyclic
import K439.Fs.TwoWriters
import K439.Fs.OpenFilesMutex
import K439.User.Arguments
import K439.User.Stores
import K439.User.ProgramName
import K439.User.Shell
import K439.Lib.RefCount
import K439.Table.Basic
import K439.Table.References
import K439.Table.Invariant
import K439.Table.Steps
import K439.Table.Calls
import K439.Table.Fork
import K439.Table.Reaper
import K439.Table.Runs
import K439.Table.Frames
import K439.Table.Join
import K439.Table.Lifetimes
import K439.Heap.DoubleFree
import K439.Heap.Realloc
import K439.Heap.Gets
import K439.Fs.Lookup
import K439.Fs.FullDisk
import K439.Fs.Allocator
import K439.Fs.MkfsStores
import K439.Fs.MkfsLookup
import K439.Fs.ReadFully
import K439.Vmm.Contents
import K439.Vmm.Isolation
import K439.Vmm.Fork
import K439.Lib.Memory
import K439.Vmm.Memories
import K439.User.Image
import K439.Handles.OpenFiles
import K439.Handles.Descriptors
import K439.Handles.Calls
import K439.Lib.BitField
import K439.Cpu.Descriptor
import K439.Cpu.ContextSwitch
import K439.Vmm.PageTables
import K439.Sched.Timer
import K439.Sched.Sleep
import K439.Sched.UserSemaphore
import K439.Sched.SimpleQueue
