import AlexOS.Lib.Mem
import AlexOS.Lib.LinkedList
import AlexOS.Lib.Field
import AlexOS.Heap.Sizes
import AlexOS.Heap.Allocator
import AlexOS.Physical.Available
import AlexOS.Physical.Count
import AlexOS.Physical.Search
import AlexOS.Physical.Release
import AlexOS.Virtual.Reserved
import AlexOS.Virtual.Translation
import AlexOS.Virtual.Access
import AlexOS.Virtual.Ranges
import AlexOS.Virtual.Deallocate
import AlexOS.Virtual.BootMap
import AlexOS.Virtual.FindFree
import AlexOS.Virtual.Mmap
import AlexOS.Fat.Chains
import AlexOS.Fat.Update
import AlexOS.Fat.Free
import AlexOS.Fat.Append
import AlexOS.Fat.Create
import AlexOS.Fat.Scan
import AlexOS.Fat.Root
import AlexOS.Ata.Sectors
import AlexOS.Stage2.Read
import AlexOS.Stage2.Layout
import AlexOS.Stage2.Load
import AlexOS.Stage2.Resolve
import AlexOS.Stage2.Window
import AlexOS.Stage2.Compose
import AlexOS.Process.Map
import AlexOS.Process.Exec
import AlexOS.Vfs.ReadLine
import AlexOS.Stdio.Console
import AlexOS.Stdio.Printf
import AlexOS.Elf.Remap
import AlexOS.Dma.Release
import AlexOS.Elf.Table
import AlexOS.Stage2.MemDetect
import AlexOS.Stage2.Chs
import AlexOS.Stdio.Number
import AlexOS.Pci.Scan
import AlexOS.Usb.Descriptors
import AlexOS.Interrupt.Syscall
import AlexOS.Interrupt.Irq
import AlexOS.Interrupt.Sleep
import AlexOS.Vfs.Keyboard
import AlexOS.Vfs.Race
import AlexOS.Vfs.Shell
import AlexOS.Ata.Volume
import AlexOS.Fat.Browse
import AlexOS.Stage1.Boot
import AlexOS.Interrupt.Gates
import AlexOS.Usb.Controllers
import AlexOS.Heap.PagedRun
