import OscKernel.Cpio.Newc
import OscKernel.Frames.BuddyTiling
import OscKernel.Frames.ReservedRuns
import OscKernel.Paging.UserMapping
import OscKernel.Threads.RoundRobin
import OscKernel.Threads.SwitchTo
import OscKernel.Threads.OnHart
import OscKernel.Traps.UserMemory
import OscKernel.Vfs.Paths
import OscKernel.Vfs.Descriptors
import OscKernel.Cpio.Readers
import OscKernel.Cpio.Agreement
import OscKernel.Cpio.Advance
import OscKernel.Cpio.Cat
import OscKernel.Paging.PhysBytes
import OscKernel.Paging.ExecProgram
import OscKernel.Fdt.Blob
import OscKernel.Fdt.PathOffset
import OscKernel.Fdt.Search
import OscKernel.Fdt.FullPath
import OscKernel.Fdt.GetProp
import OscKernel.Fdt.Nops
import OscKernel.Frames.Answers
import OscKernel.Frames.AllocFree
import OscKernel.Frames.OverReserve
import OscKernel.Fdt.UnitAddress
import OscKernel.Fdt.OwnProperties
import OscKernel.Fdt.Layout
import OscKernel.Fdt.WalkEnds
import OscKernel.Paging.IdentityMap
import OscKernel.Paging.MapRange
import OscKernel.Vfs.PathBuffer
import OscKernel.Vfs.ReadWrite
import OscKernel.Vfs.TreeWalk
import OscKernel.Fdt.PathDepth
import OscKernel.Fdt.Reads
import OscKernel.Fdt.Inside
import OscKernel.Fdt.Tokens
import OscKernel.Fdt.Lookup
import OscKernel.Fdt.Main
import OscKernel.Fdt.MainSafe
import OscKernel.Loops.Counted
import OscKernel.Video.Delay
import OscKernel.Cpio.LetterCase
import OscKernel.Threads.Regions
import OscKernel.Video.Flush
import OscKernel.Video.Display
import OscKernel.Video.FwCfg
import OscKernel.Video.VideoInit
import OscKernel.Mmio.Program
import OscKernel.Uart.Driver
import OscKernel.Mmio.Outline
import OscKernel.Uart.Board
import OscKernel.Lists.ListHead
import OscKernel.Threads.Kernel
import OscKernel.Uart.Interrupts
import OscKernel.Start.Bare
import OscKernel.Start.HighHalf
import OscKernel.Start.Trampoline
import OscKernel.Vfs.Persistence
import OscKernel.Video.Animation
