import Hydrangea.Lib.Transition
import Hydrangea.Lib.Linked
import Hydrangea.Mem.HeapLists
import Hydrangea.Mem.HeapSafety
import Hydrangea.Multitasking.Spinlock
import Hydrangea.Multitasking.Scheduler
import Hydrangea.Multitasking.TaskLists
import Hydrangea.Multitasking.Termination
import Hydrangea.Multitasking.Scheduling
import Hydrangea.Ds.Comparator
import Hydrangea.Ds.ListT
import Hydrangea.Ds.OrderedList
import Hydrangea.Lib.SearchTree
import Hydrangea.Ds.BST
import Hydrangea.Fs.FileDescriptor
import Hydrangea.Lib.Word
import Hydrangea.Mem.Paging
import Hydrangea.Mem.PagingMaps
import Hydrangea.Mem.PagingUnmaps
import Hydrangea.Lib.CString
import Hydrangea.Libk.String
import Hydrangea.Fs.Vfs
import Hydrangea.Fs.VfsPaths
import Hydrangea.Mem.FrameOwnership
import Hydrangea.Drivers.Ata
import Hydrangea.Lib.PioDevice
import Hydrangea.Drivers.AtaPio
import Hydrangea.Drivers.AtaBytes
import Hydrangea.Fs.Ext2
import Hydrangea.Fs.Ext2Blocks
import Hydrangea.Fs.Ext2Files
import Hydrangea.Fs.FileOps
import Hydrangea.Fs.FileTasks
import Hydrangea.Fs.Pipe
import Hydrangea.Mem.Frames
import Hydrangea.Mem.MemoryMap
import Hydrangea.Mem.PagingClones
import Hydrangea.Lib.Memory
import Hydrangea.Lib.X86
import Hydrangea.Multitasking.TaskSwitch
import Hydrangea.Multitasking.Pids
import Hydrangea.Lib.Traced
import Hydrangea.Exec.Elf
import Hydrangea.Mem.PagingAllocs
import Hydrangea.Mem.PagingInit
import Hydrangea.Exec.ElfBytes
import Hydrangea.Exec.ElfPages
import Hydrangea.Exec.ElfLoads
import Hydrangea.Exec.ElfExecutables
import Hydrangea.Exec.ElfSafety
import Hydrangea.Exec.ElfHarmless
import Hydrangea.Fs.VfsNodes
import Hydrangea.Lib.LinkedTree
import Hydrangea.Fs.VfsTrees
import Hydrangea.Fs.VfsRuns
import Hydrangea.Fs.Tmpfs
import Hydrangea.Fs.FileLocks
import Hydrangea.Mem.HeapSteps
import Hydrangea.Mem.HeapTasks
import Hydrangea.Fs.VfsTasks
import Hydrangea.Fs.Ext2Dirs
import Hydrangea.Fs.Ext2Listings
import Hydrangea.Fs.Ext2Init
import Hydrangea.Fs.Ext2Superblocks
import Hydrangea.Lib.Traversal
import Hydrangea.Fs.VfsMount
import Hydrangea.Fs.VfsMountEnds
import Hydrangea.Fs.VfsLookups
import Hydrangea.Fs.VfsAbsPaths
import Hydrangea.Fs.VfsMakeNodes
import Hydrangea.Fs.Initrd
import Hydrangea.Fs.VfsMadePaths
import Hydrangea.Fs.TmpfsCreates
import Hydrangea.Fs.VfsUniqueNames
import Hydrangea.Lib.RoundRobin
import Hydrangea.Multitasking.Turns
import Hydrangea.Fs.VfsPartitions
import Hydrangea.Fs.VfsMountRuns
import Hydrangea.Fs.FileReads
import Hydrangea.Fs.PipeOverruns
import Hydrangea.Fs.TarReads
import Hydrangea.Fs.VfsFrees
import Hydrangea.Fs.VfsMountFailures
import Hydrangea.Fs.VfsOps
import Hydrangea.Mem.BitmapAccesses
import Hydrangea.Mem.HeapFrees
import Hydrangea.Mem.HeapReallocs
import Hydrangea.Lib.Restores
import Hydrangea.Multitasking.Schedlock
import Hydrangea.Fs.FileFlags
import Hydrangea.Multitasking.UserTasks
import Hydrangea.Syscalls.Cwd
import Hydrangea.Syscalls.NodeUsers
import Hydrangea.Multitasking.TaskPointers
import Hydrangea.Syscalls.Syscall
import Hydrangea.Syscalls.SyscallRuns
import Hydrangea.Lib.Runs
import Hydrangea.Lib.Stepwise
import Hydrangea.Libc.String
import Hydrangea.Libc.Tokens
import Hydrangea.Libc.Memmove
import Hydrangea.Libc.Comparisons
import Hydrangea.Libc.BoundedCopies
import Hydrangea.Libc.Substrings
import Hydrangea.Libk.Itoa
import Hydrangea.Libk.Stdio
import Hydrangea.Drivers.Mouse
import Hydrangea.Drivers.Kbd
import Hydrangea.Drivers.Ps2
import Hydrangea.Libk.Scank
import Hydrangea.Term.VgaTerm
import Hydrangea.Term.VesaTerm
import Hydrangea.Lib.Countdown
import Hydrangea.Lib.Pic8259
import Hydrangea.Lib.Descriptors
import Hydrangea.Cpu.Gdt
import Hydrangea.Lib.X86Rings
import Hydrangea.Cpu.Idt
import Hydrangea.Cpu.InterruptFrames
import Hydrangea.Syscalls.SyscallEntry
import Hydrangea.Cpu.Pic
import Hydrangea.Cpu.Irq
import Hydrangea.Cpu.IrqService
import Hydrangea.Mem.AddressSpaces
import Hydrangea.Multitasking.Preemption
