import KosKernel.Devices.Keyboard
import KosKernel.Devices.PCIDevice
import KosKernel.Devices.Screen
import KosKernel.Gdb.Registers
import KosKernel.Gdb.Replies
import KosKernel.Generic.FreeStack
import KosKernel.Generic.RegionRuns
import KosKernel.Kernel.BlockStore
import KosKernel.Kernel.DebugOptions
import KosKernel.Kernel.ExecFile
import KosKernel.Kernel.Exit
import KosKernel.Kernel.FrameLocks
import KosKernel.Kernel.FreshPages
import KosKernel.Kernel.Multiboot
import KosKernel.Kernel.Pending
import KosKernel.Kernel.SemStore
import KosKernel.Kernel.Zombies
import KosKernel.Machine.AsyncIrq
import KosKernel.Machine.LazyFaults
import KosKernel.Machine.LocalProcessor
import KosKernel.Machine.PageMap
import KosKernel.Machine.Preemption
import KosKernel.Machine.RecursiveMap
import KosKernel.Runtime.Handles
import KosKernel.Runtime.MessageQueue
import KosKernel.Runtime.Mutex
import KosKernel.Runtime.Sleeps
import KosKernel.Runtime.Teardown
import KosKernel.Runtime.Termination
import KosKernel.Ulib.Cond
import KosKernel.World.Access
