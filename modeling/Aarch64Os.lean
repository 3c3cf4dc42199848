import Aarch64Os.Base.Transition
import Aarch64Os.Base.LinkedCells
import Aarch64Os.Driver.Virtio
import Aarch64Os.Driver.VirtioSystem
import Aarch64Os.Base.Counting
import Aarch64Os.Driver.VirtioChains
import Aarch64Os.Driver.VirtioExhaustion
import Aarch64Os.Base.Bitmap
import Aarch64Os.Base.Bytes
import Aarch64Os.Kernel.Buf
import Aarch64Os.Kernel.Ext2.Alloc
import Aarch64Os.Kernel.File
import Aarch64Os.Kernel.FileTable
import Aarch64Os.Kernel.Ext2.FileView
import Aarch64Os.Kernel.Ext2.Grow
import Aarch64Os.Kernel.Ext2.ReadBack
import Aarch64Os.Kernel.BufHandles
import Aarch64Os.Kernel.BufSharing
import Aarch64Os.Kernel.CurrentProc
import Aarch64Os.Kernel.ExitStatus
import Aarch64Os.Kernel.Killing
import Aarch64Os.Kernel.Waiting
import Aarch64Os.Base.PathGraph
import Aarch64Os.Base.OpenStore
import Aarch64Os.Base.RingBuffer
import Aarch64Os.Base.Spinlock
import Aarch64Os.Base.Words
import Aarch64Os.Driver.VirtioCompletion
import Aarch64Os.Kernel.Ext2.Dirent
import Aarch64Os.Kernel.Ext2.Itable
import Aarch64Os.Kernel.Ext2.Mknod
import Aarch64Os.Kernel.Ext2.Parent
import Aarch64Os.Kernel.SleepWake
import Aarch64Os.Base.Debt
import Aarch64Os.Kernel.BufStore
import Aarch64Os.Kernel.Ext2.Balance
import Aarch64Os.Kernel.Mm.AddressSpaces
import Aarch64Os.Kernel.Ext2.FailedCalls
import Aarch64Os.Kernel.InodeOwners
import Aarch64Os.Kernel.Ext2.GrowRight
import Aarch64Os.Kernel.Ext2.LinkRight
import Aarch64Os.Usr.MallocRight
import Aarch64Os.Kernel.ConsoleLine
import Aarch64Os.Kernel.Mm.SharedBreak
import Aarch64Os.Kernel.Ext2.Backing
import Aarch64Os.Kernel.Ext2.StorageRuns
import Aarch64Os.Base.Decides
import Aarch64Os.Kernel.BufReread
import Aarch64Os.Kernel.FileIo
import Aarch64Os.Kernel.Ext2.ReadRight
import Aarch64Os.Kernel.Ext2.ReadCounts
import Aarch64Os.Kernel.Ext2.InumBits
import Aarch64Os.Kernel.Ext2.SyncLoad
import Aarch64Os.Kernel.Ext2.Bounds
import Aarch64Os.Kernel.OpenRight
import Aarch64Os.Base.ByteMem
import Aarch64Os.Kernel.Exec
import Aarch64Os.Kernel.Mm.FreshPages
import Aarch64Os.Kernel.ExecImage
import Aarch64Os.Kernel.ExecArgs
import Aarch64Os.Kernel.ExecRight
import Aarch64Os.Kernel.ExecFailure
import Aarch64Os.Kernel.BufMirrored
import Aarch64Os.Kernel.Ext2.Steady
import Aarch64Os.Kernel.Ext2.NodeKept
import Aarch64Os.Kernel.NodeTypes
import Aarch64Os.Base.Lockstep
import Aarch64Os.Base.Returns
import Aarch64Os.Base.TableTree
import Aarch64Os.Base.Tiling
import Aarch64Os.Kernel.Mm.PageNames
import Aarch64Os.Kernel.Mm.Ram
import Aarch64Os.Kernel.Mm.RamTables
import Aarch64Os.Kernel.Mm.Teardown
import Aarch64Os.Kernel.Mm.Translation
import Aarch64Os.Kernel.Mm.Copying
import Aarch64Os.Kernel.Mm.KernelPages
import Aarch64Os.Kernel.Mm.Growth
import Aarch64Os.Kernel.Mm.KallocCpus
import Aarch64Os.Kernel.Mm.Attributes
import Aarch64Os.Base.Numeral
import Aarch64Os.Base.Tokens
import Aarch64Os.Kernel.Strings
import Aarch64Os.Kernel.PrintNumber
import Aarch64Os.Kernel.Printk
import Aarch64Os.Kernel.Ext2.Skipping
import Aarch64Os.Usr.Shell
import Aarch64Os.Kernel.Mm.Granted
import Aarch64Os.Kernel.Mm.Segments
import Aarch64Os.Kernel.Mm.AnyFile
import Aarch64Os.Usr.MallocGrants
import Aarch64Os.Kernel.ForkFailure
import Aarch64Os.Kernel.Cpus
import Aarch64Os.Kernel.Switching
import Aarch64Os.Kernel.Masks
import Aarch64Os.Base.Aarch64
import Aarch64Os.Base.SavedWords
import Aarch64Os.Base.FillLoops
import Aarch64Os.Kernel.Vectortable
import Aarch64Os.Kernel.Cswitch
import Aarch64Os.Kernel.KernelStacks
import Aarch64Os.Kernel.KernelStacksSteps
import Aarch64Os.Kernel.KernelStacksRuns
import Aarch64Os.Kernel.Syscall
import Aarch64Os.Kernel.Boot
import Aarch64Os.Kernel.BootSpace
import Aarch64Os.Base.Exclusives
import Aarch64Os.Kernel.Spinlock
import Aarch64Os.Kernel.Scheduling
import Aarch64Os.Base.NameTree
import Aarch64Os.Kernel.Ext2.DirTree
