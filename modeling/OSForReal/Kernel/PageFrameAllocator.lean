import OSForReal.Framework.Bitmap
import OSForReal.Std.Memory

/-!
# The page frame allocator (`kernel/page_frame_allocator.c`)

`pfa_init` marks in a bitmap the pages that are not general purpose memory,
and `pfa_commit_page` maps the first unmarked one at a virtual address. Bit `n`
stands for the page frame at `RESERVED_PHYS + n * PAGE_SIZE`, modulo 2³².

The memory map is what `mmap_addr` points at: an entry for each number of
bytes traversed. Page tables are arrays of words in the kernel image, and the
two-level walk finds them at their physical addresses.
-/

namespace OSForReal

open Framework (Res)
open Framework.Bitmap (Words isSet setBit clearBit firstClear)

/-- `RESERVED_PHYS` -/
abbrev reservedPhys : Nat := 10 * (1024 * 1024)

/-- `ARRAY_LEN(pfa_page_tables)` -/
abbrev pfaPageTablesLen : Nat := 254

/-- `ARRAY_LEN(pfa_page_bitmap)` -/
abbrev pfaPageBitmapLen : Nat := 32704

/-- `MMap_Segment` -/
structure MMapSegment where
  size : Nat
  baseAddr : Nat
  length : Nat
  type : Nat
deriving DecidableEq, Repr

/-- The part of `Multiboot_Info` that `pfa_init` reads, with the entry at each
offset from `mmap_addr`. -/
structure MultibootInfo where
  mmapLength : Nat
  segmentAt : Nat → MMapSegment

/-! ## `pfa_init` -/

/-- Marks the page at `addr`. -/
def markPage (bitmap : Words) (addr : Nat) : Words :=
  setBit bitmap ((addr - reservedPhys) / pageSize)

/-- Marks the pages from `addr` to `areaEnd`. -/
def markPages (bitmap : Words) (addr areaEnd : Nat) : Words :=
  if addr < areaEnd then markPages (markPage bitmap addr) (addr + pageSize) areaEnd else bitmap
termination_by areaEnd - addr
decreasing_by exact Nat.sub_lt_sub_left ‹_› (Nat.lt_add_of_pos_right (by decide))

/-- Marks the pages of the area between two addresses, above the reserved ones. -/
def markArea (bitmap : Words) (start areaEnd : Nat) : Words :=
  if areaEnd > reservedPhys then
    let areaStart := alignBackwards start pageSize
    markPages bitmap (if areaStart < reservedPhys then reservedPhys else areaStart) areaEnd
  else bitmap

/-- Marks what lies between the end of the last entry and this one, and this one
unless it is general purpose memory. Addresses are truncated to `size_t`. -/
def markSegment (bitmap : Words) (endOfLastSegment : Nat) (segment : MMapSegment) : Words :=
  let bitmap := markArea bitmap endOfLastSegment (alignForward (segment.baseAddr % 2 ^ 32) pageSize)
  if segment.type ≠ 1 then
    markArea bitmap (segment.baseAddr % 2 ^ 32)
      (alignForward ((segment.baseAddr + segment.length) % 2 ^ 64 % 2 ^ 32) pageSize)
  else bitmap

/-- The variables of the loop of `pfa_init`; `segment` is at `mmapAddr + offset`. -/
structure InitState where
  bitmap : Words
  endOfLastSegment : Nat
  bytesTraversed : Nat
  offset : Nat

/-- One step of the loop of `pfa_init`. -/
def initStep (boot : MultibootInfo) (s : InitState) : Res (InitState ⊕ Words) :=
  if s.bytesTraversed < boot.mmapLength then
    let segment := boot.segmentAt s.offset
    .ok (.inl {
      bitmap := markSegment s.bitmap s.endOfLastSegment segment
      endOfLastSegment := (segment.baseAddr + segment.length) % 2 ^ 64 % 2 ^ 32
      bytesTraversed := (s.bytesTraversed + (segment.size + 4) % 2 ^ 32) % 2 ^ 32
      offset := s.offset + (segment.size + 4) % 2 ^ 32 })
  else .ok (.inr s.bitmap)

/-- `pfa_init`, on the zero-initialised `pfa_page_bitmap`. -/
def pfaInit (boot : MultibootInfo) (fuel : Nat) : Res Words :=
  Res.loop (initStep boot) fuel ⟨fun _ => 0, 0, 0, 0⟩

/-! ## `pfa_commit_page` -/

/-- What the linker decides: where the kernel image ends and where in it
`pfa_page_tables` lies. `link.ld` fixes `__kernel_start`, keeps the image below
8 MiB, and places it at `__kernel_phys_start`. -/
structure KernelImage where
  kernelEnd : Nat
  pfaPageTables : Nat
  image : kernelEnd - kernelStart < maxKernelSize
  aligned : pfaPageTables % pageSize = 0
  lo : kernelStart ≤ pfaPageTables
  hi : pfaPageTables + pfaPageTablesLen * pageSize ≤ kernelEnd

/-- `__kernel_phys_start` -/
abbrev kernelPhysStart : Nat := 2 * (1024 * 1024)

/-- The globals of `page_frame_allocator.c`, and `page_directory`. -/
structure Pfa where
  pageBitmap : Words
  pageTables : Nat → Nat → Nat
  pageDirectory : Nat → Nat

/-- The page tables that `bootstrap` sets up before paging. -/
structure BootTables where
  lowPageTable : Nat
  kernelPageTable1 : Nat
  kernelPageTable2 : Nat

/-- `PAGE_DIR_PRESENT | PAGE_DIR_RW | PAGE_DIR_ACCESS_ALL | PAGE_DIR_ACCESSED` -/
def pageDirFlags : Nat := 1 <<< 0 ||| 1 <<< 1 ||| 1 <<< 2 ||| 1 <<< 5

/-- `PAGE_TABLE_PRESENT | PAGE_TABLE_RW | PAGE_TABLE_ACCESS_ALL | PAGE_TABLE_ACCESSED` -/
def pageTableFlags : Nat := 1 <<< 0 ||| 1 <<< 1 ||| 1 <<< 2 ||| 1 <<< 5

/-- `page_directory` as `bootstrap` leaves it: the first 4 MiB and the 8 MiB of the kernel. -/
def bootPageDirectory (B : BootTables) (entry : Nat) : Nat :=
  if entry = 0 >>> 22 then B.lowPageTable ||| pageDirFlags
  else if entry = 0xC0000000 >>> 22 then B.kernelPageTable1 ||| pageDirFlags
  else if entry = 0xC0400000 >>> 22 then B.kernelPageTable2 ||| pageDirFlags
  else 0

/-- `mapped_virt_to_pfa_tables_index` -/
def mappedVirtToPfaTablesIndex (virtAddr : Nat) : Res Nat := do
  let index := (virtAddr + 2 ^ 32 - (kernelStart + maxKernelSize)) % 2 ^ 32 / (pageSize * 1024)
  Res.assert (index < pfaPageTablesLen)
  .ok index

/-- The physical address of a virtual address in the kernel image. -/
def kernelPhys (virtAddr : Nat) : Nat := virtAddr - (kernelStart - kernelPhysStart)

/-- `pfa_tables_index_to_table_phys` -/
def pfaTablesIndexToTablePhys (K : KernelImage) (index : Nat) : Res Nat := do
  Res.assert (index < pfaPageTablesLen)
  let pfaTableVirt := K.pfaPageTables + index * pageSize
  Res.assert (pfaTableVirt ≥ kernelStart ∧ pfaTableVirt < K.kernelEnd)
  .ok (kernelPhys pfaTableVirt)

/-- `mapped_virt_to_page_directory_entry` -/
def mappedVirtToPageDirectoryEntry (virt : Nat) : Nat := virt >>> 22

/-- `mapped_virt_to_page_table_entry` -/
def mappedVirtToPageTableEntry (virt : Nat) : Nat := (virt >>> 12) &&& 0x3FF

/-- The frame that bit `n` of the bitmap stands for. -/
def pageFrame (n : Nat) : Nat := (reservedPhys + n * pageSize) % 2 ^ 32

/-- Takes the first clear bit of `pfa_page_bitmap`: the frame, 1 if there is none, and the bitmap. -/
def takeFrame (bitmap : Words) : Nat × Words :=
  match firstClear bitmap pfaPageBitmapLen with
  | some n => (pageFrame n, setBit bitmap n)
  | none => (1, bitmap)

/-- `pfa_commit_page` -/
def pfaCommitPage (K : KernelImage) (p : Pfa) (virtAddr : Nat) : Res (Bool × Pfa) := do
  Res.assert (virtAddr &&& 0xfff = 0)
  let (frame, pageBitmap) := takeFrame p.pageBitmap
  if frame = 1 then .ok (false, { p with pageBitmap })
  else
    Res.assert (frame &&& 0xFFF = 0)
    let pageDirectoryEntry := mappedVirtToPageDirectoryEntry virtAddr
    let pageTableEntry := mappedVirtToPageTableEntry virtAddr
    let pfaPageTablesIndex ← mappedVirtToPfaTablesIndex virtAddr
    let pageTablePhys ← pfaTablesIndexToTablePhys K pfaPageTablesIndex
    .ok (true, {
      pageBitmap
      pageDirectory := Function.update p.pageDirectory pageDirectoryEntry (pageTablePhys ||| pageDirFlags)
      pageTables := Function.update p.pageTables pfaPageTablesIndex
        (Function.update (p.pageTables pfaPageTablesIndex) pageTableEntry (frame ||| pageTableFlags)) })

/-! ## `pfa_uncommit_all` -/

/-- `pfa_tables_index_to_mapped_virt` -/
def pfaTablesIndexToMappedVirt (index : Nat) : Res Nat := do
  Res.assert (index < pfaPageTablesLen)
  .ok (index * pageSize * 1024 + (kernelStart + maxKernelSize))

/-- The bit of the frame that a page table entry names. The subtraction wraps for
frames below `RESERVED_PHYS`, and so for the entries that are zero. -/
def frameBit (entry : Nat) : Nat := ((entry &&& 0xfffff000) + 2 ^ 32 - reservedPhys) % 2 ^ 32 / pageSize

/-- The body of the outer loop of `pfa_uncommit_all`, for table `i`. -/
def uncommitTable (p : Pfa) (i : Nat) : Res Pfa := do
  let pageBitmap := (List.range 1024).foldl (fun b j => clearBit b (frameBit (p.pageTables i j))) p.pageBitmap
  let pageTables := Function.update p.pageTables i fun _ => 0
  let virtAddr ← pfaTablesIndexToMappedVirt i
  let pageDirectoryEntry := virtAddr >>> 22
  let pageDirectory := if p.pageDirectory pageDirectoryEntry &&& 1 <<< 0 ≠ 0 then
      Function.update p.pageDirectory pageDirectoryEntry 0
    else p.pageDirectory
  .ok { pageBitmap, pageTables, pageDirectory }

/-- `pfa_uncommit_all` -/
def pfaUncommitAll (p : Pfa) : Res Pfa := (List.range pfaPageTablesLen).foldlM uncommitTable p

end OSForReal
