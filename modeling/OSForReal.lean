import OSForReal.Framework.Res
import OSForReal.Framework.Chain
import OSForReal.Framework.Ownership
import OSForReal.Framework.Run
import OSForReal.Framework.Word
import OSForReal.Framework.Traced
import OSForReal.Framework.Bitmap
import OSForReal.Framework.Bytes
import OSForReal.Framework.Search
import OSForReal.Framework.Counter
import OSForReal.Framework.Rows
import OSForReal.Std.Memory
import OSForReal.Std.HeapBytes
import OSForReal.Std.Stores
import OSForReal.Std.Terminal
import OSForReal.Hal.Ata
import OSForReal.Kernel.PageFrameAllocator
import OSForReal.TagFS.Utils
import OSForReal.TagFS.Tfsfmt
import OSForReal.TagFS.FuseDriver
import OSForReal.Kernel.TagFS
import OSForReal.TagFS.Accesses
import OSForReal.Proof.Heap.Arena
import OSForReal.Proof.Heap.Release
import OSForReal.Proof.Heap.Represents
import OSForReal.Proof.Heap.Allocate
import OSForReal.Proof.Heap.Free
import OSForReal.Proof.Heap.System
import OSForReal.Proof.Heap.Safety
import OSForReal.Proof.Heap.Conservation
import OSForReal.Proof.Heap.FreeReturns
import OSForReal.Proof.Heap.FreeList
import OSForReal.Proof.Heap.Stores
import OSForReal.Proof.Heap.Selection
import OSForReal.Proof.Heap.FullBlocks
import OSForReal.Proof.Terminal
import OSForReal.Proof.Ata.Drive
import OSForReal.Proof.Ata.Discipline
import OSForReal.Proof.Pages.Walk
import OSForReal.Proof.Pages.Map
import OSForReal.Proof.Pages.Frames
import OSForReal.Proof.Pages.Wasted
import OSForReal.Proof.Pages.Uncommit
import OSForReal.Proof.Heap.FailedAllocation
import OSForReal.Proof.TagFS.Layout
import OSForReal.Proof.TagFS.Copy
import OSForReal.Proof.TagFS.WriteFiles
import OSForReal.Proof.TagFS.Format
import OSForReal.Proof.TagFS.Usable
import OSForReal.Proof.TagFS.FatWellFormed
import OSForReal.Proof.TagFS.Read
import OSForReal.Proof.TagFS.ReadBack
import OSForReal.Proof.TagFS.Write
import OSForReal.Proof.TagFS.Calls
import OSForReal.Proof.TagFS.FuseRuns
import OSForReal.Proof.TagFS.Names
import OSForReal.Proof.TagFS.Lawful
import OSForReal.Proof.TagFS.WriteRead
import OSForReal.Proof.TagFS.EndOfFile
import OSForReal.Proof.TagFS.Unlink
import OSForReal.Proof.TagFS.TagMap
import OSForReal.Proof.TagFS.Tags
import OSForReal.Proof.Heap.Front
import OSForReal.Proof.Tfs.View
import OSForReal.Proof.Tfs.Sectors
import OSForReal.Proof.Tfs.Blocks
import OSForReal.Proof.Tfs.Calls
import OSForReal.Proof.Tfs.Read
import OSForReal.Proof.Tfs.Memory
import OSForReal.Proof.Tfs.Confined
import OSForReal.Proof.Tfs.Write
import OSForReal.Proof.Tfs.WriteRead
import OSForReal.Proof.Tfs.SameAsFuse
import OSForReal.Proof.Tfs.NewFile
import OSForReal.Proof.Tfs.Isolation
import OSForReal.Framework.Wrap
import OSForReal.TagFS.Indices
import OSForReal.Proof.TagFS.Indices
import OSForReal.Proof.TagFS.Skipped
import OSForReal.Proof.TagFS.WriteTag
import OSForReal.Framework.FirstFit
import OSForReal.Proof.TagFS.TagTables
import OSForReal.Proof.Tfs.Lookup
import OSForReal.Proof.Tfs.FailedWrite
import OSForReal.Framework.Decimal
import OSForReal.TagFS.Flags
import OSForReal.Proof.TagFS.IntFlags
import OSForReal.Framework.CommandLine
import OSForReal.Proof.TagFS.FlagsRun
import OSForReal.Proof.TagFS.ParseFlags
import OSForReal.Std.Io
import OSForReal.Proof.Io.Cursor
import OSForReal.Proof.Io.Arguments
import OSForReal.Framework.X86
import OSForReal.Arch.Interrupts
import OSForReal.Proof.Arch.Interrupts
import OSForReal.Framework.Refinement
import OSForReal.Proof.TagFS.Directory
import OSForReal.Proof.TagFS.DirectoryRuns
import OSForReal.Framework.Paging
import OSForReal.Arch.Bootstrap
import OSForReal.Proof.Pages.Bootstrap
import OSForReal.Proof.Heap.Backing
import OSForReal.Proof.Pages.AddressSpace
import OSForReal.Proof.Ata.Disk
import OSForReal.Proof.Ata.Store
import OSForReal.Proof.TagFS.DirectoryFiles
import OSForReal.Proof.Tfs.Directory
import OSForReal.Framework.Descriptors
import OSForReal.Framework.Pic
import OSForReal.Hal.Pic
import OSForReal.Arch.Descriptors
import OSForReal.Proof.Arch.Descriptors
import OSForReal.Proof.Arch.Dispatch
import OSForReal.TagFS.Main
import OSForReal.Proof.TagFS.CommandLines
import OSForReal.Proof.TagFS.Sessions
import OSForReal.Framework.ByteCopy
import OSForReal.Proof.Pages.BootInfo
import OSForReal.Framework.Uart
import OSForReal.Hal.Serial
import OSForReal.Std.Console
import OSForReal.Proof.Console
import OSForReal.Framework.Related
import OSForReal.Framework.PciConfig
import OSForReal.Hal.Ide
import OSForReal.Hal.Pci
import OSForReal.Proof.Ata.Related
import OSForReal.Proof.Ata.Controller
import OSForReal.Proof.Ata.Detect
import OSForReal.Proof.Ata.Init
import OSForReal.Proof.Ata.Calls
