import BadOS.Foundation.CInt
import BadOS.Foundation.Loop
import BadOS.Foundation.Execution
import BadOS.Foundation.ByteMemory
import BadOS.Foundation.Strings
import BadOS.Foundation.LittleEndian
import BadOS.Foundation.Placement
import BadOS.Foundation.WordStack
import BadOS.Foundation.PackedBits
import BadOS.Foundation.Blocks
import BadOS.Foundation.RunLength
import BadOS.Foundation.RingBuffer
import BadOS.Foundation.PointerRing
import BadOS.Foundation.Tiling
import BadOS.Foundation.RadixTree
import BadOS.Libc.String
import BadOS.Libc.Copy
import BadOS.Libc.StringCopy
import BadOS.Libc.StringOrder
import BadOS.Libc.Gets
import BadOS.Video.Format
import BadOS.Video.Converter
import BadOS.Video.Player
import BadOS.Video.Playback
import BadOS.Video.Progress
import BadOS.Video.Decoding
import BadOS.Video.Pacing
import BadOS.Video.RoundTrip
import BadOS.Video.Optimality
import BadOS.Video.Reader
import BadOS.Kernel.Kheap
import BadOS.Kernel.HeapInvariant
import BadOS.Kernel.HeapRuns
import BadOS.Kernel.HeapRequests
import BadOS.Kernel.HeapReuse
import BadOS.Kernel.Pmm
import BadOS.Kernel.PmmOwnership
import BadOS.Kernel.BootMemory
import BadOS.Kernel.Vmm
import BadOS.Kernel.VmmRefinement
import BadOS.Kernel.AddressSpace
import BadOS.Kernel.FrameLog
import BadOS.Kernel.PageMapping
import BadOS.Kex.Format
import BadOS.KexLd.Elf
import BadOS.KexLd.Linker
import BadOS.KexLd.RoundTrip
import BadOS.KexLd.Faithful
import BadOS.Kernel.KexLoader
import BadOS.Kernel.LoadedPages
import BadOS.Kernel.KexImage
import BadOS.Kernel.LoadedImage
import BadOS.Kernel.Ledger
import BadOS.Kernel.BootFrames
import BadOS.Kernel.VideoMapping
import BadOS.Kernel.SegmentFrames
import BadOS.Kernel.SegmentWrites
import BadOS.Kernel.StaleFrames
import BadOS.Kernel.FrameExhaustion
import BadOS.Kernel.FrameBudget
import BadOS.Kernel.LoaderBudget
import BadOS.Kernel.BootBudget
import BadOS.Kernel.PhysicalBitmap
import BadOS.Kernel.PhysicalBoot
import BadOS.Kernel.BootRoles
import BadOS.Kernel.Keyboard
import BadOS.Kernel.ShiftState
import BadOS.Kernel.Process
import BadOS.Kernel.SchedulerRing
import BadOS.Kernel.ThreadCreation
import BadOS.Kernel.Interrupts
import BadOS.Kernel.Preemption
import BadOS.Kernel.Delivery
import BadOS.Kernel.Descriptors
import BadOS.Kernel.Gateways
import BadOS.Kernel.Pic
import BadOS.Kernel.Uptime
import BadOS.Kernel.BitmapStorage
import BadOS.Kernel.BitmapPlacement
import BadOS.Kernel.BitmapSetup
import BadOS.Libc.Printf
import BadOS.Libc.Format
import BadOS.Libc.Counting
import BadOS.Kernel.Fs
import BadOS.Kernel.FsWalk
import BadOS.Kernel.FsLookup
import BadOS.Kernel.FsImage
import BadOS.Kernel.Display
import BadOS.Kernel.DrawBounds
import BadOS.Kernel.DrawEffect
import BadOS.Kernel.DrawRuns
import BadOS.Kernel.DrawFailure
import BadOS.Video.Scan
import BadOS.Video.Screen
import BadOS.Video.SizeCheck
import BadOS.KexLd.Program
import BadOS.Kernel.Start
import BadOS.Kernel.UserAccess
import BadOS.Kernel.Isolation
import BadOS.Video.Pipeline
