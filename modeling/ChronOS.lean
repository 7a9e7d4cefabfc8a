import ChronOS.Foundation.Memory
import ChronOS.Foundation.Search
import ChronOS.Foundation.Radix
import ChronOS.Foundation.Ring
import ChronOS.Foundation.Stack
import ChronOS.Foundation.Fifo
import ChronOS.Foundation.BitField
import ChronOS.Foundation.Loop
import ChronOS.Foundation.Cells
import ChronOS.Foundation.DoublyLinked
import ChronOS.Foundation.Tiling
import ChronOS.Foundation.Simulation
import ChronOS.Foundation.Frames
import ChronOS.Boot.Bootloader
import ChronOS.Boot.Rsdp
import ChronOS.Ds.Bitmap
import ChronOS.Utils.Regs
import ChronOS.Utils.Strings
import ChronOS.Mm.Paging
import ChronOS.Mm.PagingTables
import ChronOS.Mm.PagingEntries
import ChronOS.Mm.PagingRefinement
import ChronOS.Mm.IdentityMap
import ChronOS.Mm.Pmm
import ChronOS.Mm.PmmRuns
import ChronOS.Mm.PmmPages
import ChronOS.Mm.PmmSegments
import ChronOS.Mm.PmmKernel
import ChronOS.Mm.Vmm
import ChronOS.Mm.VmmAgreement
import ChronOS.Mm.VmmMapping
import ChronOS.Mm.VmmIsolation
import ChronOS.Loader.Elf
import ChronOS.Loader.ElfImage
import ChronOS.Loader.ElfWrites
import ChronOS.Process.Process
import ChronOS.Process.SchedulerRing
import ChronOS.Process.CreationFrame
import ChronOS.Process.BitmapOwnership
import ChronOS.Process.BitmapStorage
import ChronOS.Process.BadExecutable
import ChronOS.Idt.Interrupts
import ChronOS.Idt.TimerStack
import ChronOS.Idt.Syscall
import ChronOS.Idt.AddressSpaces
import ChronOS.Idt.FileTable
import ChronOS.Idt.SyscallBounds
import ChronOS.Pci.LaiHost
import ChronOS.Pci.Pci
import ChronOS.Pci.Capabilities
import ChronOS.Drivers.Ahci
import ChronOS.Drivers.AhciPort
import ChronOS.Drivers.E1000
import ChronOS.Drivers.E1000Irq
import ChronOS.Drivers.Device
import ChronOS.Shmall.Heap
import ChronOS.Shmall.AddNode
import ChronOS.Shmall.HeapInit
import ChronOS.Shmall.Realloc
import ChronOS.Shmall.FreeLists
import ChronOS.Shmall.Tiles
import ChronOS.Shmall.Bins
import ChronOS.Shmall.Allocator
import ChronOS.Shmall.Coalescing
import ChronOS.Shmall.HeapRuns
import ChronOS.Shmall.HeapUse
import ChronOS.Mm.PmmContiguity
import ChronOS.Mm.PmmSource
import ChronOS.Fs.Diskio
import ChronOS.Foundation.BitStream
import ChronOS.Foundation.Chains
import ChronOS.Foundation.Calls
import ChronOS.Fs.FatWindow
import ChronOS.Fs.FatEntries
import ChronOS.Fs.AhciDrive
import ChronOS.Fs.FatTable
import ChronOS.Fs.FatChains
import ChronOS.Fs.FatFiles
import ChronOS.Fs.FatData
import ChronOS.Fs.FatRead
import ChronOS.Fs.FatWrite
import ChronOS.Fs.FatStore
import ChronOS.Net.Arp
import ChronOS.Net.FrameBounds
import ChronOS.Acpi.Acpi
import ChronOS.Acpi.AcpiInit
import ChronOS.Acpi.LaiMap
import ChronOS.Apic.Ioapic
import ChronOS.Timers.Hpet
import ChronOS.Printk.Number
import ChronOS.Printk.Vsprintf
import ChronOS.Printk.Conversions
import ChronOS.Printk.IntArgs
import ChronOS.Terminal.Terminal
import ChronOS.Terminal.Grid
import ChronOS.Terminal.Cursor
