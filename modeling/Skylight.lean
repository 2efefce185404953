import Skylight.Laws.Paging.Spaces
import Skylight.Laws.Pmm.Contracts
import Skylight.Laws.Pmm.Counter
import Skylight.Laws.Paging.Contracts
import Skylight.Laws.Cpu.Gate
import Skylight.Laws.Cpu.Frame
import Skylight.Cpu.System
import Skylight.Laws.Cpu.Swapgs
import Skylight.Laws.Proc.States
import Skylight.Laws.Proc.RoundRobin
import Skylight.Laws.Proc.Switch
import Skylight.Proc.AddressSpace
import Skylight.Laws.Paging.Sequence
import Skylight.Laws.Proc.AddressSpace
import Skylight.Proc.Calls
import Skylight.Laws.Proc.Punmap
import Skylight.Laws.Proc.Pmap
import Skylight.Laws.Proc.Calls
import Skylight.Laws.Proc.Escape
import Skylight.Laws.Proc.Framebuffer
import Skylight.Laws.Proc.Keyboard
import Skylight.Apps.Prism
import Skylight.Laws.Apps.Prism
import Skylight.Lib.Framing
import Skylight.Iodev.Ps2
import Skylight.Laws.Iodev.Ps2
import Skylight.Iodev.Shell
import Skylight.Laws.Iodev.Shell
import Skylight.Laws.Pmm.Pools
import Skylight.Mem.Paging.Reload
import Skylight.Laws.Paging.Reload
import Skylight.Lib.Bytes
import Skylight.Mem.Heap.Allocator
import Skylight.Laws.Heap.Headers
import Skylight.Laws.Heap.Segments
import Skylight.Laws.Heap.Chain
import Skylight.Laws.Heap.Release
import Skylight.Laws.Heap.Obtain
import Skylight.Laws.Heap.Grow
import Skylight.Laws.Heap.Malloc
import Skylight.Laws.Heap.Client
import Skylight.Laws.Heap.Contracts
import Skylight.Mem.Heap.Pools
import Skylight.Laws.Heap.Pools
import Skylight.Laws.Paging.Replace
import Skylight.Laws.Paging.Remap
import Skylight.Laws.Heap.Rounds
import Skylight.Laws.Heap.Coalesce
import Skylight.Laws.Heap.Copy
import Skylight.Laws.Heap.Sizes
import Skylight.Laws.Paging.Exhaustion
import Skylight.Laws.Heap.Exhaustion
import Skylight.Apps.Typing
import Skylight.Laws.Apps.Typing
import Skylight.Iodev.Ahci
import Skylight.Laws.Iodev.Ahci
import Skylight.Boot.Limine
import Skylight.Laws.Pmm.Listed
import Skylight.Laws.Boot.Limine
import Skylight.Laws.Boot.Copy
import Skylight.Laws.Boot.Entries
import Skylight.Laws.Pmm.Traces
import Skylight.Laws.Pmm.Maximal
import Skylight.Laws.Pmm.Reuse
import Skylight.Proc.Elf
import Skylight.Proc.ElfMemory
import Skylight.Laws.Proc.Stops
import Skylight.Laws.Proc.Segments
import Skylight.Laws.Proc.Elf
import Skylight.Laws.Proc.Loading
import Skylight.Laws.Proc.Walk
import Skylight.Laws.Proc.Image
import Skylight.Laws.Proc.Context
import Skylight.Laws.Pmm.Realloc
import Skylight.Mem.Pmm.Realloc
import Skylight.Laws.Proc.Exposure
import Skylight.Laws.Boot.Tables
import Skylight.Laws.Boot.Modules
import Skylight.Iodev.Acpi
import Skylight.Iodev.Apic
import Skylight.Laws.Iodev.Madt
import Skylight.Laws.Iodev.Tables
import Skylight.Lib.Links
import Skylight.Iodev.Ioapic
import Skylight.Laws.Iodev.Ioapic
import Skylight.Lib.Count
import Skylight.Iodev.Pci
import Skylight.Laws.Iodev.Pci
import Skylight.Lib.Steps
import Skylight.Lib.Slots
import Skylight.Cpu.Idt
import Skylight.Laws.Cpu.Idt
import Skylight.Iodev.Pit
import Skylight.Laws.Iodev.Pit
import Skylight.Extra.Conv
import Skylight.Laws.Extra.Conv
import Skylight.Cpu.Backtrace
import Skylight.Laws.Cpu.Backtrace
import Skylight.Laws.Pmm.Neighbours
import Skylight.Apps.Kbd
import Skylight.Laws.Apps.Kbd
import Skylight.Laws.Apps.Shift
import Skylight.Laws.Apps.Startup
import Skylight.Extra.Printf
import Skylight.Laws.Extra.Printf
import Skylight.Laws.Extra.Scan
import Skylight.Laws.Extra.Vprintf
import Skylight.Laws.Extra.Integers
import Skylight.Apps.Malloc
import Skylight.Laws.Apps.Malloc
import Skylight.Laws.Apps.Runs
import Skylight.Laws.Apps.Recovery
import Skylight.Laws.Apps.Tiling
import Skylight.Cpu.Gdt
import Skylight.Laws.Cpu.Gdt
import Skylight.Iodev.AhciRead
import Skylight.Laws.Iodev.AhciRead
import Skylight.Laws.Apps.Merging
import Skylight.Apps.Text
import Skylight.Laws.Apps.Text
import Skylight.Laws.Pmm.Descriptors
import Skylight.Lib.Holding
import Skylight.Laws.Proc.Isolation
import Skylight.Apps.Menu
import Skylight.Lib.Raster
import Skylight.Laws.Apps.Menu
import Skylight.Lib.Answers
import Skylight.Lib.Windows
import Skylight.Iodev.PciConf
import Skylight.Laws.Iodev.PciConf
import Skylight.Lib.Growth
import Skylight.Laws.Paging.Sparse
import Skylight.Laws.Pmm.Holdings
import Skylight.Laws.Proc.Program
import Skylight.Laws.Extra.Pieces
import Skylight.Laws.Paging.Held
import Skylight.Lib.Owners
import Skylight.Iodev.Drivers
import Skylight.Laws.Iodev.Redirect
import Skylight.Laws.Iodev.Drivers
import Skylight.Laws.Iodev.Routing
import Skylight.Laws.Iodev.Setup
import Skylight.Laws.Proc.Beside
