import OSLib.Foundation.Runs
import OSLib.Foundation.Bitmap
import OSLib.Foundation.Bytes
import OSLib.Foundation.Words
import OSLib.Foundation.X86
import OSLib.Foundation.StackMachine
import OSLib.Foundation.SubRegisters
import OSLib.Foundation.Paging
import OSLib.Foundation.LongMode
import OSLib.Foundation.ProtectedMode
import OSLib.Foundation.Loops
import OSLib.Foundation.Stores
import OSLib.Foundation.SpinLocks
import OSLib.Foundation.StringOps
import OSLib.Foundation.FirstFound
import OSLib.Foundation.MachineInt
import OSLib.Foundation.Numerals
import OSLib.Foundation.Pic8259
import OSLib.Foundation.Align
import OSLib.Foundation.Ring
import OSLib.Foundation.Circular
import OSLib.Foundation.Fat12
import OSLib.Foundation.Emits
import OSLib.Foundation.RealMode
import OSLib.Memory.Desc
import OSLib.Memory.Page
import OSLib.Memory.Agree
import OSLib.Memory.Accounting
import OSLib.Memory.Init
import OSLib.Memory.Alloc
import OSLib.Memory.Places
import OSLib.Memory.Handout
import OSLib.Memory.ZoneFit
import OSLib.Memory.Search
import OSLib.Memory.ZoneLoop
import OSLib.Memory.FreeCount
import OSLib.Memory.FreeMap
import OSLib.Memory.FirstWord
import OSLib.Memory.LoopBounds
import OSLib.Memory.Metadata
import OSLib.Memory.LowZone
import OSLib.Memory.AddressSpace
import OSLib.Memory.Layout
import OSLib.Lib.List
import OSLib.Lib.Lists
import OSLib.Lib.String
import OSLib.Lib.Memory
import OSLib.Lib.StringCompare
import OSLib.Lib.StringCopy
import OSLib.Loader.MemoryMap
import OSLib.Loader.Boot
import OSLib.Loader.Routines
import OSLib.Loader.RootSearch
import OSLib.Loader.Kernel
import OSLib.Loader.Handoff
import OSLib.Trap.Gates
import OSLib.Trap.Descriptors
import OSLib.Trap.Nesting
import OSLib.Trap.Entry
import OSLib.Trap.Handlers
import OSLib.Trap.Reports
import OSLib.Trap.Irq
import OSLib.Task.Switch
import OSLib.Task.Resume
import OSLib.Task.Fork
import OSLib.Task.Thread
import OSLib.Task.ForkEffects
import OSLib.Task.Ring
import OSLib.Task.Pids
import OSLib.Task.Isolation
import OSLib.Print.Number
import OSLib.Print.NumberText
import OSLib.Print.DigitBounds
import OSLib.Print.Screen
import OSLib.Print.Cells
import OSLib.Print.TextGrid
import OSLib.Print.Backspace
import OSLib.Print.Format
import OSLib.Print.Pieces
import OSLib.Print.Buffer
import OSLib.Print.Scan
import OSLib.Print.Conversions
import OSLib.Print.Texts
import OSLib.Print.Dump
import OSLib.RustOS.PageTables
import OSLib.RustOS.Start
import OSLib.RustOS.Translate
import OSLib.RustOS.Writer
import OSLib.RustOS.Screens
import OSLib.RustOS.Locks
import OSLib.RustOS.FrameAllocator
