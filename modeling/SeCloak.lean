import SeCloak.Misc.Code
import SeCloak.Misc.Sweep
import SeCloak.Misc.BitField
import SeCloak.Misc.Holders
import SeCloak.Misc.Steps
import SeCloak.State
import SeCloak.Platform
import SeCloak.Drivers.Csu
import SeCloak.Drivers.Gic
import SeCloak.Drivers.GpioPort
import SeCloak.Kernel.Interrupt
import SeCloak.Emulation.Regions
import SeCloak.Drivers.Dt
import SeCloak.Drivers.DtProps
import SeCloak.Drivers.DtHolders
import SeCloak.Drivers.Fb
import SeCloak.Drivers.FbProps
import SeCloak.Drivers.Gpio
import SeCloak.Drivers.GpioKeys
import SeCloak.Drivers.GpioKeysProps
import SeCloak.Kernel.Boot
import SeCloak.Kernel.BootProps
import SeCloak.Kernel.Protection
import SeCloak.Kernel.Toggle
import SeCloak.Emulation.Bus
import SeCloak.Emulation.Handle
import SeCloak.Emulation.HandleProps
import SeCloak.Emulation.Cloaked
import SeCloak.Emulation.Security
import SeCloak.Entry.Display
import SeCloak.Entry.Entry
import SeCloak.Entry.EntryProps
import SeCloak.Entry.Settings
import SeCloak.Entry.Get
import SeCloak.Entry.Concurrent
import SeCloak.Entry.SetProps
import SeCloak.Entry.Lines
import SeCloak.Entry.System
import SeCloak.Entry.Window
import SeCloak.Entry.Denied
import SeCloak.Kernel.Order
import SeCloak.Drivers.FbParams
import SeCloak.Entry.Refused
import SeCloak.Drivers.FbBounds
import SeCloak.Entry.Screen
import SeCloak.Entry.Faults
import SeCloak.Entry.Panic
import SeCloak.Emulation.Stores
import SeCloak.Entry.Shown
import SeCloak.Emulation.Redirect
import SeCloak.Emulation.Integrity
import SeCloak.Emulation.Loads
import SeCloak.Emulation.Secrecy
import SeCloak.Drivers.GpioIrq
import SeCloak.Entry.Fresh
import SeCloak.Emulation.Windows
import SeCloak.Emulation.Adjacent
import SeCloak.Emulation.Arm
import SeCloak.Emulation.Instructions
import SeCloak.Entry.Thread
import SeCloak.Misc.Span
import SeCloak.Mm.MemMap
import SeCloak.Mm.Registered
import SeCloak.Mm.VaSpace
import SeCloak.Mm.Placing
import SeCloak.Misc.Extend
import SeCloak.Mm.Tables
import SeCloak.Mm.Walk
import SeCloak.Mm.Mapped
import SeCloak.Drivers.FbFields
import SeCloak.Drivers.FbBlit
import SeCloak.Drivers.FbRelease
import SeCloak.Drivers.DtUndo
import SeCloak.Emulation.Effects
import SeCloak.Emulation.Acknowledge
import SeCloak.Emulation.Modify
import SeCloak.Drivers.GpioPins
import SeCloak.Drivers.GpioServe
import SeCloak.Emulation.Quiesce
import SeCloak.Mm.Dynamic
import SeCloak.Drivers.GicLines
import SeCloak.Drivers.DtDenials
import SeCloak.Drivers.Secpwr
import SeCloak.Kernel.Dispatch
import SeCloak.Kernel.Query
import SeCloak.Kernel.Walk
import SeCloak.Kernel.Numbers
import SeCloak.Kernel.Classes
import SeCloak.Kernel.Descriptors
import SeCloak.Kernel.FrontEnds
import SeCloak.Drivers.KeysPresses
import SeCloak.Drivers.KeysKernel
import SeCloak.Misc.Bytes
import SeCloak.Heap.Malloc
import SeCloak.Heap.MallocProps
import SeCloak.Mm.Buffers
import SeCloak.Mm.Entries
import SeCloak.Mm.Capacity
import SeCloak.Kernel.Table
import SeCloak.Drivers.GpioFrame
import SeCloak.Mm.ByPa
import SeCloak.Mm.Granted
import SeCloak.Misc.Ring
import SeCloak.Heap.Layout
import SeCloak.Heap.Release
import SeCloak.Heap.Shrink
import SeCloak.Heap.Memalign
import SeCloak.Heap.Pools
import SeCloak.Monitor.Runs
import SeCloak.Kernel.SpinLock
import SeCloak.Libfdt.Blob
import SeCloak.Libfdt.Progress
import SeCloak.Libfdt.Probed
import SeCloak.Mm.Sorted
