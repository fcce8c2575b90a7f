import LinuxKernel.Drivers.Raid6Recov
import LinuxKernel.Drivers.RtcLib
import LinuxKernel.Lib.IdrWalk
import LinuxKernel.Lib.IdrStray
import LinuxKernel.Lib.RwsemWake
import LinuxKernel.Lib.VsprintfBinEq
import LinuxKernel.Lib.RadixTreeHole
import LinuxKernel.Lib.RadixTreeGang
import LinuxKernel.Lib.IdrRemoveAll
import LinuxKernel.Lib.TextSearchBlocks
import LinuxKernel.Lib.Genalloc
import LinuxKernel.Lib.LruCache
import LinuxKernel.Lib.Div64
import LinuxKernel.Mm.PercpuAreaInvariant
import LinuxKernel.Mm.BuddyInvariant
import LinuxKernel.Mm.UnmappedArea
import LinuxKernel.Mm.VmapArea
import LinuxKernel.Mm.Munmap
import LinuxKernel.Mm.HugetlbCount
import LinuxKernel.Fs.PosixLockDeadlock
import LinuxKernel.Fs.SeqFileSafety
import LinuxKernel.Fs.SeqFileText
import LinuxKernel.Fs.PosixAclMasq
import LinuxKernel.Ipc.SemRun
import LinuxKernel.Ipc.SemUndo
import LinuxKernel.Net.FilterBounds
import LinuxKernel.Net.IpFragmentReasm
import LinuxKernel.Net.InetPeerSafety
import LinuxKernel.Security.EbitmapRead
import LinuxKernel.Security.EbitmapNetlbl
import LinuxKernel.Scripts.KconfigCompare
import LinuxKernel.Kernel.TimerRun
import LinuxKernel.Kernel.ResourceSplit
import LinuxKernel.Kernel.ResourceAllocate
import LinuxKernel.Kernel.KfifoRecord
import LinuxKernel.Kernel.SystemRam
import LinuxKernel.Kernel.Range
import LinuxKernel.Kernel.EarlyRes
