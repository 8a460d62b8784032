import Xesual.Library.Execution
import Xesual.Library.Chain
import Xesual.PhysicalMemory.Basic
import Xesual.PhysicalMemory.FreeList
import Xesual.PhysicalMemory.Theorems.FreePages
import Xesual.PhysicalMemory.Theorems.AllocatePages
import Xesual.PhysicalMemory.Theorems.Ownership
import Xesual.PhysicalMemory.System
import Xesual.Boot.MemoryMap
import Xesual.PhysicalMemory.Theorems.System
import Xesual.PhysicalMemory.Concurrent
import Xesual.PhysicalMemory.Theorems.Concurrent
import Xesual.Library.Bytes
import Xesual.Library.Memory
import Xesual.PhysicalMemory.Locking
import Xesual.PhysicalMemory.Theorems.Locking
import Xesual.Library.Trie
import Xesual.Library.Traversal
import Xesual.VirtualMemory.Basic
import Xesual.VirtualMemory.Theorems.Entry
import Xesual.VirtualMemory.Theorems.Map
import Xesual.VirtualMemory.Theorems.Walk
import Xesual.VirtualMemory.Kernel
import Xesual.VirtualMemory.Theorems.Kernel
import Xesual.Process.Basic
import Xesual.Process.Theorems.Pass
import Xesual.Process.Machine
import Xesual.Process.Theorems.Machine
import Xesual.Process.Ownership
import Xesual.Process.Theorems.CurrentProcess
import Xesual.Process.Theorems.Slots
import Xesual.Traps.Entry
import Xesual.Traps.Theorems.Entry
import Xesual.Boot.Theorems.MemoryMap
import Xesual.Boot.Theorems.KernelPageTable
import Xesual.VirtualMemory.AddressSpaces
import Xesual.VirtualMemory.Theorems.Changes
import Xesual.VirtualMemory.Theorems.AddressSpaces
import Xesual.Library.Program
import Xesual.Pci.Basic
import Xesual.Pci.Devices
import Xesual.Pci.Theorems.Scan
import Xesual.Pci.Theorems.Enumeration
import Xesual.Pci.Concurrent
import Xesual.Pci.Theorems.Concurrent
import Xesual.Library.Contracts
import Xesual.Traps.Interrupts
import Xesual.Traps.Theorems.Interrupts
import Xesual.Library.Assembly
import Xesual.Traps.Frames
import Xesual.Traps.Theorems.Frames
import Xesual.Process.Switch
import Xesual.Process.Theorems.Switch
import Xesual.Traps.Nesting
import Xesual.Traps.Theorems.Nesting
import Xesual.VirtualMemory.Exhaustion
import Xesual.VirtualMemory.Theorems.Exhaustion
import Xesual.Process.Allocation
import Xesual.Process.Theorems.Allocation
import Xesual.Process.Theorems.Accounting
import Xesual.Pci.Theorems.Duplicates
import Xesual.Heap.Basic
import Xesual.Heap.FreeList
import Xesual.Heap.Theorems.Allocate
import Xesual.Heap.Theorems.Requests
import Xesual.Heap.Calls
import Xesual.Heap.Theorems.Calls
import Xesual.Heap.Blocks
import Xesual.Heap.Theorems.Undo
import Xesual.Heap.System
import Xesual.Heap.Theorems.System
import Xesual.Boot.Processors
import Xesual.Boot.Theorems.Processors
import Xesual.Pci.Registers
import Xesual.Pci.Theorems.Filter
import Xesual.Pci.Theorems.Registers
import Xesual.Graphics.Display
import Xesual.Graphics.Theorems.Display
import Xesual.Boot.Apic
import Xesual.Boot.Theorems.Apic
import Xesual.Printf.Basic
import Xesual.Printf.Format
import Xesual.Printf.Directives
import Xesual.Printf.Text
import Xesual.Printf.Theorems.Arguments
import Xesual.Printf.Theorems.Buffer
import Xesual.Printf.Theorems.Digits
import Xesual.Printf.Theorems.Hexadecimal
import Xesual.Printf.Theorems.Parser
import Xesual.Printf.Log
import Xesual.Printf.Theorems.Log
import Xesual.Segments.Processor
import Xesual.Segments.Theorems.Descriptors
import Xesual.Segments.Theorems.Machine
import Xesual.Segments.Theorems.Ports
import Xesual.Traps.Gates
import Xesual.Traps.Panic
import Xesual.Traps.Theorems.Gates
import Xesual.Traps.Theorems.Panic
