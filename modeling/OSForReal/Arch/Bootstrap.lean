import OSForReal.Framework.ByteCopy
import OSForReal.Kernel.PageFrameAllocator

/-!
# The page tables that the kernel boots with (`arch/x86/boot/bootstrap.c`)

`bootstrap` fills three page tables before paging is on: the first 2 MiB to
themselves, and the kernel image, 4 MiB for each of the other two. `link.ld`
says where the kernel image is, and where among the first 2 MiB the tables are.
Before that it copies the `Multiboot_Info`, and the memory map that it points at, to
the end of the boot code, where the kernel reads them.
-/

namespace OSForReal

open Framework
open Framework.Bytes

/-- The tables of `bootstrap.c`, zero-initialised. -/
structure BootPaging where
  pageDirectory : Nat → Nat
  lowPageTable : Nat → Nat
  kernelPageTable1 : Nat → Nat
  kernelPageTable2 : Nat → Nat

/-- The loop that maps the pages from `physAddr` up to `physEnd`, the first at `virtAddr`. -/
def mapRange (table : Nat → Nat) (virtAddr physAddr physEnd : Nat) : Nat → Nat :=
  if physAddr < physEnd then
    mapRange (Function.update table ((virtAddr >>> 12) &&& 0x3FF) (physAddr ||| pageTableFlags)) (virtAddr + pageSize)
      (physAddr + pageSize) physEnd
  else table
termination_by physEnd - physAddr
decreasing_by exact Nat.sub_lt_sub_left ‹_› (Nat.lt_add_of_pos_right (by decide))

/-- `__kernel_phys_end` -/
def KernelImage.kernelPhysEnd (K : KernelImage) : Nat := kernelPhysStart + (K.kernelEnd - kernelStart)

/-- `kernel_phys_mid` -/
abbrev kernelPhysMid : Nat := kernelPhysStart + 4 * (1024 * 1024)

/-- The page tables as `bootstrap` leaves them. -/
def bootstrap (K : KernelImage) (B : BootTables) : BootPaging :=
  let pageDirectory := Function.update (fun _ => 0) (0 >>> 22) (B.lowPageTable ||| pageDirFlags)
  let lowPageTable := mapRange (fun _ => 0) 0 0 0x200000
  let pageDirectory := Function.update pageDirectory (0xC0000000 >>> 22) (B.kernelPageTable1 ||| pageDirFlags)
  let kernelPageTable1 := mapRange (fun _ => 0) 0xC0000000 kernelPhysStart kernelPhysMid
  let pageDirectory := Function.update pageDirectory (0xC0400000 >>> 22) (B.kernelPageTable2 ||| pageDirFlags)
  let kernelPageTable2 := mapRange (fun _ => 0) 0xC0400000 kernelPhysMid K.kernelPhysEnd
  { pageDirectory, lowPageTable, kernelPageTable1, kernelPageTable2 }

/-- What `link.ld` and the alignments in `bootstrap.c` say of where things are: the kernel image is
whole pages, and the tables are pages of their own between 1 MiB and 2 MiB. -/
structure BootTables.Placed (B : BootTables) (K : KernelImage) : Prop where
  kernelEnd : K.kernelEnd % pageSize = 0
  low : B.lowPageTable % pageSize = 0 ∧ 0x100000 ≤ B.lowPageTable ∧ B.lowPageTable < 0x200000
  table1 : B.kernelPageTable1 % pageSize = 0 ∧ 0x100000 ≤ B.kernelPageTable1 ∧ B.kernelPageTable1 < 0x200000
  table2 : B.kernelPageTable2 % pageSize = 0 ∧ 0x100000 ≤ B.kernelPageTable2 ∧ B.kernelPageTable2 < 0x200000
  low_ne_table1 : B.lowPageTable ≠ B.kernelPageTable1
  low_ne_table2 : B.lowPageTable ≠ B.kernelPageTable2
  table1_ne_table2 : B.kernelPageTable1 ≠ B.kernelPageTable2

/-! ## The memory map -/

/-- `sizeof(Multiboot_Info)`, which is packed. -/
abbrev sizeofMultibootInfo : Nat := 116

/-- `&boot_info->mmap_length` -/
abbrev mmapLengthAt (bootInfo : Nat) : Nat := bootInfo + 44

/-- `&boot_info->mmap_addr` -/
abbrev mmapAddrAt (bootInfo : Nat) : Nat := bootInfo + 48

/-- The `MMap_Segment` at an address. -/
def mmapSegmentAt (m : Bytes) (a : Nat) : MMapSegment where
  size := u32 m a
  baseAddr := u64 m (a + 4)
  length := u64 m (a + 12)
  type := u32 m (a + 20)

/-- What `pfa_init` reads of the `Multiboot_Info` at an address. -/
def multibootInfoAt (m : Bytes) (bootInfo : Nat) : MultibootInfo where
  mmapLength := u32 m (mmapLengthAt bootInfo)
  segmentAt offset := mmapSegmentAt m (u32 m (mmapAddrAt bootInfo) + offset)

/-- `boot_memory_copy` -/
def bootMemoryCopy (m : Bytes) (dst src size : Nat) : Bytes := forward m dst src size

/-- The copies that `bootstrap` makes to `__boot_end`, and the `mmap_addr` that it sets. -/
def copyBootInfo (m : Bytes) (bootEnd bootInfo : Nat) : Bytes :=
  let m := bootMemoryCopy m bootEnd bootInfo sizeofMultibootInfo
  let newMmapAddr := bootEnd + sizeofMultibootInfo
  let m := bootMemoryCopy m newMmapAddr (u32 m (mmapAddrAt bootEnd)) (u32 m (mmapLengthAt bootEnd))
  setU32 m (mmapAddrAt bootEnd) newMmapAddr

end OSForReal
