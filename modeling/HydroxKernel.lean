import HydroxKernel.Lib.Assert
import HydroxKernel.Lib.Runs
import HydroxKernel.Lib.Deadlock
import HydroxKernel.Lib.Bytes
import HydroxKernel.Lib.Links
import HydroxKernel.Lib.Tables
import HydroxKernel.Lib.Queues
import HydroxKernel.Lib.Utf8
import HydroxKernel.Lib.Words
import HydroxKernel.Lib.Intervals
import HydroxKernel.Lib.Str
import HydroxKernel.Lib.RowMajor
import HydroxKernel.Lib.Ends
import HydroxKernel.Lib.BitFields
import HydroxKernel.Lib.ChildLinks
import HydroxKernel.Lib.Guarded
import HydroxKernel.Util.BitVector
import HydroxKernel.Util.ArrayDeque
import HydroxKernel.Util.ArrayDequeIter
import HydroxKernel.Util.ArrayDequeOwners
import HydroxKernel.Util.BitVectorSet
import HydroxKernel.Util.OneShot
import HydroxKernel.Mem.Frame
import HydroxKernel.Mem.FrameInit
import HydroxKernel.Mem.Virt
import HydroxKernel.Mem.VirtPages
import HydroxKernel.Mem.VirtSpec
import HydroxKernel.Mem.VirtFree
import HydroxKernel.Mem.VirtTake
import HydroxKernel.Mem.VirtRuns
import HydroxKernel.Mem.VirtIter
import HydroxKernel.Mem.PageAlloc
import HydroxKernel.Mem.PageAllocSafety
import HydroxKernel.Mem.PageAllocRollback
import HydroxKernel.Mem.Early
import HydroxKernel.Mem.EarlySafety
import HydroxKernel.Mem.EarlyStack
import HydroxKernel.Mem.EarlyCalls
import HydroxKernel.Mem.Slab
import HydroxKernel.Mem.SlabLists
import HydroxKernel.Mem.SlabSafety
import HydroxKernel.Mem.SlabDetect
import HydroxKernel.Mem.SlabDrop
import HydroxKernel.Mem.DefaultAlloc
import HydroxKernel.Mem.DefaultAllocRouting
import HydroxKernel.Mem.DefaultAllocMemory
import HydroxKernel.Mem.DefaultAllocRealloc
import HydroxKernel.Sync.Mutex
import HydroxKernel.Sync.MutexSafety
import HydroxKernel.Sync.MutexValue
import HydroxKernel.Sync.Uninterruptible
import HydroxKernel.Sync.UninterruptibleSafety
import HydroxKernel.Sync.SpinlockValue
import HydroxKernel.Sync.Spinlock
import HydroxKernel.Sync.Future
import HydroxKernel.Sync.FutureRefs
import HydroxKernel.Sync.FutureInputs
import HydroxKernel.Sync.FutureAll
import HydroxKernel.Sync.FutureAny
import HydroxKernel.Arch.Interrupt
import HydroxKernel.Arch.InterruptGate
import HydroxKernel.Arch.Machine
import HydroxKernel.Arch.InterruptEntry
import HydroxKernel.Arch.Irq
import HydroxKernel.Arch.ExtendedRegisters
import HydroxKernel.Arch.Page
import HydroxKernel.Arch.PageCoherence
import HydroxKernel.Arch.PageMap
import HydroxKernel.Arch.FreeRegions
import HydroxKernel.Arch.VgaBuffer
import HydroxKernel.Arch.VgaScroll
import HydroxKernel.Sched.Task
import HydroxKernel.Sched.ThreadQueues
import HydroxKernel.Sched.Operations
import HydroxKernel.Sched.Consistency
import HydroxKernel.Sched.ThreadLists
import HydroxKernel.Sched.WaitLists
import HydroxKernel.Sync.FutureBlocking
import HydroxKernel.Sync.FutureBlockingSteps
import HydroxKernel.Sync.FutureWakeups
import HydroxKernel.Sched.Switch
import HydroxKernel.Sched.Resume
import HydroxKernel.Sched.Locks
import HydroxKernel.Sched.LockPlaces
import HydroxKernel.Sched.LockOrder
import HydroxKernel.Sched.LockProgress
import HydroxKernel.Sched.Death
import HydroxKernel.Io.Tty
import HydroxKernel.Io.TtyStream
import HydroxKernel.Io.Ansi
import HydroxKernel.Io.AnsiText
import HydroxKernel.Io.CharReader
import HydroxKernel.Io.Vt
import HydroxKernel.Io.VtGrid
import HydroxKernel.Io.ControlSequences
import HydroxKernel.Cmd.Readline
import HydroxKernel.Cmd.ReadlineDisplay
import HydroxKernel.Cmd.LineEditor
import HydroxKernel.Cmd.ReadlineText
import HydroxKernel.Cmd.ParseCommand
import HydroxKernel.Cmd.CommandSpaces
import HydroxKernel.Cmd.DebugConsole
import HydroxKernel.Options.Parse
import HydroxKernel.Options.Render
import HydroxKernel.Dev.Scancode
import HydroxKernel.Dev.Keyboard
import HydroxKernel.Dev.KeyDelivery
import HydroxKernel.Dev.HeldKeys
import HydroxKernel.Dev.Tree
import HydroxKernel.Dev.Lookup
import HydroxKernel.Dev.HubLinks
import HydroxKernel.Log.Init
import HydroxKernel.Log.Delivery
import HydroxKernel.Options.Warnings
import HydroxKernel.Io.Console
import HydroxKernel.Io.Typing
