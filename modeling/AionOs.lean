import AionOs.Lib.Machine
import AionOs.Memory.PmmCounters
import AionOs.Memory.PmmRelease
import AionOs.Memory.HeapAligned
import AionOs.Memory.DirectMap
import AionOs.Memory.Tlb
import AionOs.Store.IndexRoom
import AionOs.Store.Unsaved
import AionOs.Store.Book
import AionOs.Store.OwnBytes
import AionOs.Store.Recent
import AionOs.Store.Pointers
import AionOs.Action.Attributes
import AionOs.Action.FileWrite
import AionOs.Action.Numbers
import AionOs.Action.Hex
import AionOs.Action.Compose
import AionOs.Action.Results
import AionOs.Action.Recall
import AionOs.Drivers.Audio
import AionOs.Drivers.Framebuffer
import AionOs.Drivers.Format
import AionOs.Drivers.SerialLine
import AionOs.Drivers.BringUp
import AionOs.Interrupt.Gdt
import AionOs.Boot.KernelMain
import AionOs.Boot.Entry
import AionOs.Runtime.WorkingMemory
import AionOs.Runtime.Evaluated
import AionOs.Runtime.Output
import AionOs.Runtime.Life
import AionOs.Runtime.Perception
