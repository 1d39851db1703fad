import OSForReal.Std.HeapBytes
import OSForReal.TagFS.FuseDriver

/-!
# The tagged file system in the kernel (`kernel/fs/tagfs.c`)

`tfs_init`, `tfs_read`, `tfs_write` and `tfs_make_new_file`, on the bytes of the
disk and the kernel's heap. The global `tfs_fs_meta`, read once by `tfs_init`, is
the argument `fs`, and the pointer `tfs_sector_buffer` the argument
`tfsSectorBuffer`. A sector is read and written as the 512 bytes at `512 * lba`.

The copy of the FAT and of the file's entry, `fats` and `fileMeta`, are blocks of
the heap, and whatever lies where they are written is overwritten: the second FAT
sector goes to `fats + sector_size`, which is 1024 bytes on, behind the block.
The path and the caller's buffer are values, and no copy to the heap goes on at
address 0. A buffer leaves room for a sector in the 32-bit address space, so that
of the sums with a size only `offset + size` wraps.

`tfs_make_new_file` and `tfs_get_file_attributes` allocate nothing; they are on
the disk, and the memory from `tfs_sector_buffer` on.
-/

namespace OSForReal.TagFS

open Framework
open Framework.Bytes
open OSForReal.Heap (memoryAllocate memoryFree)

/-! ## Sectors -/

/-- What `ata_read_sector` reads. -/
def diskSector (disk : Bytes) (lba : Nat) : Bytes := fun k => disk (512 * lba + k)

/-- `ata_write_sector` -/
def writeDiskSector (disk : Bytes) (lba : Nat) (sector : Bytes) : Bytes := copy disk (512 * lba) 512 sector

section

variable (fs : FSMetadata)

/-- `tfs_get_file_metadata_lba` -/
def tfsGetFileMetadataLba : Nat := 1

/-- `tfs_get_tag_metadata_lba` -/
def tfsGetTagMetadataLba : Nat := (tfsGetFileMetadataLba + fs.fileMetaSectorCount) % 2 ^ 32

/-- `tfs_get_tag_file_array_lba` -/
def tfsGetTagFileArrayLba : Nat := (tfsGetTagMetadataLba fs + fs.tagMetaSectorCount) % 2 ^ 32

/-- `tfs_get_fat_lba` -/
def tfsGetFatLba : Nat := (tfsGetTagFileArrayLba fs + fs.tagFileSectorCount) % 2 ^ 32

/-- `tfs_get_data_lba` -/
def tfsGetDataLba : Nat := (tfsGetFatLba fs + fs.fatSectorCount) % 2 ^ 32

/-- `data_lba + fat_index` -/
def tfsSectorLba (fatIndex : Nat) : Nat := (tfsGetDataLba fs + fatIndex) % 2 ^ 32

/-- `tfs_count_file_meta_entries` -/
def tfsCountFileMetaEntries : Nat := fs.fileMetaSectorCount * fs.sectorSize % 2 ^ 32 / sizeofFileMetadata

end

/-! ## File metadata -/

/-- The inner loop of the searches over the file metadata: `k` entries of a
sector from `i` on, when `fileCount` entries did not satisfy `p`. -/
def searchEntries (p : Nat → Bool) (total : Nat) : Nat → Nat → Nat → Option Nat × Nat
  | 0, _, fileCount => (none, fileCount)
  | k + 1, i, fileCount =>
    if p i then (some i, fileCount)
    else if fileCount + 1 > total then (none, fileCount + 1)
    else searchEntries p total k (i + 1) (fileCount + 1)

/-- `File_Metadata_Result` -/
structure FileMetadataResult where
  found : Bool
  lba : Nat
  offset : Nat
deriving DecidableEq, Repr

/-! ## The heap -/

section

variable {σ : Type}

/-- `ata_read_sector(IDE_BUS_PRIM, 0, lba, buffer)`, of a drive that answers. -/
def readSector (h : Heap σ) (disk : Bytes) (lba buffer : Nat) : Res (Heap σ) := do
  Res.assert (lba ≤ 0xfffffff)
  .ok (h.copyTo buffer 512 (diskSector disk lba))

/-- `ata_write_sector(IDE_BUS_PRIM, 0, lba, buffer)`, of a drive that answers. -/
def writeSector (h : Heap σ) (disk : Bytes) (lba buffer : Nat) : Res Bytes := do
  Res.assert (lba ≤ 0xfffffff)
  .ok (writeDiskSector disk lba (h.bytesFrom buffer))

/-- `tfs_init`: `tfs_fs_meta`, `tfs_sector_buffer` and the heap. -/
def tfsInit (S : PageSupply σ) (fuel : Nat) (h : Heap σ) (disk : Bytes) : Res (FSMetadata × Nat × Heap σ) := do
  let (tfsSectorBuffer, h) ← memoryAllocate S fuel h 512
  let h ← readSector h disk 0 tfsSectorBuffer
  .ok (fsMeta (h.bytesFrom tfsSectorBuffer), tfsSectorBuffer, h)

/-- The block for the FAT, and both its sectors read. -/
def tfsLoadFats (S : PageSupply σ) (fs : FSMetadata) (fuel : Nat) (h : Heap σ) (disk : Bytes) :
    Res (Nat × Heap σ) := do
  let (fats, h) ← memoryAllocate S fuel h (fs.sectorSize * fs.fatSectorCount % 2 ^ 32)
  let h ← readSector h disk (tfsGetFatLba fs) fats
  -- `fats` points at entries of 2 bytes.
  let h ← readSector h disk ((tfsGetFatLba fs + 1) % 2 ^ 32) ((fats + 2 * fs.sectorSize) % 2 ^ 32)
  .ok (fats, h)

/-- The outer loop of `tfs_get_file_metadata_from_name`, over `k` sectors from
`lba` on. It goes on after a sector with the name. -/
def searchSectors (fs : FSMetadata) (tfsSectorBuffer : Nat) (disk : Bytes) (path : CStr) (fileMeta : Nat) :
    Nat → Nat → Nat → FileMetadataResult → Heap σ → Res (FileMetadataResult × Heap σ)
  | 0, _, _, result, h => .ok (result, h)
  | k + 1, lba, fileCount, result, h => do
    let h ← readSector h disk lba tfsSectorBuffer
    let buffer := h.bytesFrom tfsSectorBuffer
    match searchEntries (fun i => strcmpEq buffer (nameAt (sizeofFileMetadata * i)) path)
      (tfsCountFileMetaEntries fs) (fs.sectorSize / sizeofFileMetadata) 0 fileCount with
    | (some i, fileCount) =>
      searchSectors fs tfsSectorBuffer disk path fileMeta k (lba + 1) fileCount ⟨true, lba, sizeofFileMetadata * i⟩
        (h.copyWithin fileMeta (tfsSectorBuffer + sizeofFileMetadata * i) sizeofFileMetadata)
    | (none, fileCount) => searchSectors fs tfsSectorBuffer disk path fileMeta k (lba + 1) fileCount result h

/-- `tfs_get_file_metadata_from_name`, for a `file_meta` on the heap. -/
def tfsGetFileMetadataFromName (fs : FSMetadata) (tfsSectorBuffer : Nat) (h : Heap σ) (disk : Bytes) (path : CStr)
    (fileMeta : Nat) : Res (FileMetadataResult × Heap σ) :=
  searchSectors fs tfsSectorBuffer disk path fileMeta fs.fileMetaSectorCount tfsGetFileMetadataLba 0 ⟨false, 0, 0⟩ h

end

/-! ## The FAT in memory -/

/-- `fats[i]` -/
def fatsAt (fats : Bytes) (i : Nat) : Nat := u16 fats (2 * i)

/-- `tfs_find_free_fat`, where no index is −1. -/
def tfsFindFreeFat (fs : FSMetadata) (fats : Bytes) : Option Nat :=
  let fatCount := fs.fatSectorCount * fs.sectorSize % 2 ^ 32 / 2
  let i := scan (fun i => fatsAt fats i == 0) fatCount 0
  if i < fatCount then some i else none

/-- The loop that skips sectors. -/
def skipFats (fats : Bytes) : Nat → Nat → Option Nat
  | 0, fatIndex => some fatIndex
  | sectorSkipCount + 1, fatIndex =>
    if fatsAt fats fatIndex = 0xffff then none else skipFats fats sectorSkipCount (fatsAt fats fatIndex)

/-! ## `tfs_read` -/

section

variable {σ : Type} (S : PageSupply σ) (fs : FSMetadata) (tfsSectorBuffer : Nat)

/-- The `while` of `tfs_read`: the buffer and the heap. Each pass reads at least
one byte, so that `read_size` passes are enough. -/
def tfsReadRest (disk : Bytes) (fats fileMeta readSize : Nat) :
    Nat → Heap σ → Bytes → Nat → Nat → Res (Bytes × Heap σ)
  | 0, h, buffer, _, _ => .ok (buffer, h)
  | fuel + 1, h, buffer, bufIndex, fatIndex =>
    if bufIndex < readSize then
      if bufIndex ≥ fileSize (h.bytesFrom fileMeta) 0 then .ok (buffer, h)
      else do
        let fatIndex := fatsAt (h.bytesFrom fats) fatIndex
        let bytesToRead := if readSize ≤ bufIndex + fs.sectorSize then readSize - bufIndex else fs.sectorSize
        let h ← readSector h disk (tfsSectorLba fs fatIndex) tfsSectorBuffer
        tfsReadRest disk fats fileMeta readSize fuel h (copy buffer bufIndex bytesToRead (h.bytesFrom tfsSectorBuffer))
          (bufIndex + bytesToRead) fatIndex
    else .ok (buffer, h)

/-- `tfs_read` from the first sector of the window on: what it returns, the buffer and the heap. -/
def tfsReadData (disk : Bytes) (fats fileMeta : Nat) (h : Heap σ) (buffer : Bytes) (readSize offset fatIndex : Nat) :
    Res (Bool × Bytes × Heap σ) := do
  let byteSkipCount := offset % fs.sectorSize
  let h ← readSector h disk (tfsSectorLba fs fatIndex) tfsSectorBuffer
  let sector := fun k => h.bytesFrom tfsSectorBuffer (byteSkipCount + k)
  if readSize ≤ fs.sectorSize - byteSkipCount then .ok (true, copy buffer 0 readSize sector, h)
  else
    let firstSectorBytes := fs.sectorSize - byteSkipCount
    let (buffer, h) ← tfsReadRest fs tfsSectorBuffer disk fats fileMeta readSize readSize h
      (copy buffer 0 firstSectorBytes sector) firstSectorBytes fatIndex
    .ok (true, buffer, h)

/-- `tfs_read` up to its `done`: what it returns, the buffer and the heap. -/
def tfsReadFile (disk : Bytes) (fats fileMeta : Nat) (h : Heap σ) (path : CStr) (buffer : Bytes) (readSize offset : Nat) :
    Res (Bool × Bytes × Heap σ) := do
  let (metaResult, h) ← tfsGetFileMetadataFromName fs tfsSectorBuffer h disk path fileMeta
  if !metaResult.found then .ok (false, buffer, h)
  else
    match skipFats (h.bytesFrom fats) (offset / fs.sectorSize) (firstDataSector (h.bytesFrom fileMeta) 0) with
    | none => .ok (false, buffer, h)
    | some fatIndex => tfsReadData fs tfsSectorBuffer disk fats fileMeta h buffer readSize offset fatIndex

/-- `tfs_read`: what it returns, the buffer and the heap. -/
def tfsRead (fuel : Nat) (h : Heap σ) (disk : Bytes) (path : CStr) (buffer : Bytes) (readSize offset : Nat) :
    Res (Bool × Bytes × Heap σ) := do
  Res.assert (fs.fatSectorCount = 2)
  let (fats, h) ← tfsLoadFats S fs fuel h disk
  let (fileMeta, h) ← memoryAllocate S fuel h sizeofFileMetadata
  let (result, buffer, h) ← tfsReadFile fs tfsSectorBuffer disk fats fileMeta h path buffer readSize offset
  let h ← memoryFree fuel h fileMeta
  let h ← memoryFree fuel h fats
  .ok (result, buffer, h)

/-! ## `tfs_write` -/

/-- Reads a sector to `tfs_sector_buffer`, makes the copy that is given, and writes it back. -/
def patchSector (disk : Bytes) (h : Heap σ) (lba : Nat) (memoryCopy : Heap σ → Heap σ) : Res (Bytes × Heap σ) := do
  let h ← readSector h disk lba tfsSectorBuffer
  let h := memoryCopy h
  let disk ← writeSector h disk lba tfsSectorBuffer
  .ok (disk, h)

/-- The `while` of `tfs_write`: the disk, the heap and the number of bytes
written. The `fat_index` it declares is a new variable, and `fats` is not written.
Each pass writes at least one byte. -/
def tfsWriteRest (fats : Nat) (buffer : Bytes) (size : Nat) :
    Nat → Bytes → Heap σ → Nat → Res (Bytes × Heap σ × Nat)
  | 0, disk, h, bufIndex => .ok (disk, h, bufIndex)
  | fuel + 1, disk, h, bufIndex =>
    if bufIndex < size then
      match tfsFindFreeFat fs (h.bytesFrom fats) with
      | none => .ok (disk, h, bufIndex)
      | some fatIndex => do
        let bytesToWrite := if size ≤ bufIndex + fs.sectorSize then size - bufIndex else fs.sectorSize
        let (disk, h) ← patchSector tfsSectorBuffer disk h (tfsSectorLba fs fatIndex)
          (·.copyTo tfsSectorBuffer bytesToWrite fun k => buffer (bufIndex + k))
        tfsWriteRest fats buffer size fuel disk h (bufIndex + bytesToWrite)
    else .ok (disk, h, bufIndex)

/-- `file_meta->first_data_sector`, a free entry for a file without data: the heap and the entry. -/
def tfsStartOfFile (h : Heap σ) (fats fileMeta : Nat) : Option (Heap σ × Nat) :=
  if firstDataSector (h.bytesFrom fileMeta) 0 = 0xffff then
    (tfsFindFreeFat fs (h.bytesFrom fats)).map fun fatIndex => (h.copyTo fileMeta 4 (byte fatIndex), fatIndex)
  else some (h, firstDataSector (h.bytesFrom fileMeta) 0)

/-- Raises `file_meta->size` to the end of a write. -/
def tfsGrowFile (h : Heap σ) (fileMeta fileEnd : Nat) : Heap σ :=
  if fileEnd > fileSize (h.bytesFrom fileMeta) 0 then h.copyTo ((fileMeta + 4) % 2 ^ 32) 4 (byte fileEnd) else h

/-- `tfs_write` from the sector in which the write begins on: the disk and the heap. -/
def tfsWriteData (disk : Bytes) (fats fileMeta : Nat) (h : Heap σ) (buffer : Bytes)
    (size offset byteSkipCount fatIndex : Nat) : Res (Bytes × Heap σ) := do
  let sectorLba := tfsSectorLba fs fatIndex
  if size ≤ fs.sectorSize - byteSkipCount then
    let (disk, h) ← patchSector tfsSectorBuffer disk h sectorLba
      (·.copyTo ((tfsSectorBuffer + byteSkipCount) % 2 ^ 32) size buffer)
    let h := if fatsAt (h.bytesFrom fats) fatIndex = 0 then h.copyTo ((fats + 2 * fatIndex) % 2 ^ 32) 2 (byte 0xffff) else h
    .ok (disk, tfsGrowFile h fileMeta ((offset + size) % 2 ^ 32))
  else
    let firstSectorBytes := fs.sectorSize - byteSkipCount
    let (disk, h) ← patchSector tfsSectorBuffer disk h sectorLba
      (·.copyTo ((tfsSectorBuffer + byteSkipCount) % 2 ^ 32) firstSectorBytes buffer)
    let (disk, h, written) ← tfsWriteRest fs tfsSectorBuffer fats buffer size size disk h firstSectorBytes
    .ok (disk, tfsGrowFile h fileMeta ((offset + written) % 2 ^ 32))

/-- `tfs_write` up to its `done`: what it returns, the disk and the heap. The copy
of the FAT, of which an entry may be set to `0xffff`, is not written back. -/
def tfsWriteFile (disk : Bytes) (fats fileMeta : Nat) (h : Heap σ) (path : CStr) (buffer : Bytes) (size offset : Nat) :
    Res (Bool × Bytes × Heap σ) := do
  let (metaResult, h) ← tfsGetFileMetadataFromName fs tfsSectorBuffer h disk path fileMeta
  if !metaResult.found then .ok (false, disk, h)
  else
    match tfsStartOfFile fs h fats fileMeta with
    | none => .ok (false, disk, h)
    | some (h, fatIndex) =>
      -- The two branches on `offset` skip sectors alike.
      let start := writeStart (h.bytesFrom fileMeta) 0 offset
      match skipFats (h.bytesFrom fats) (start / fs.sectorSize) fatIndex with
      | none => .ok (false, disk, h)
      | some fatIndex => do
        let (disk, h) ← tfsWriteData fs tfsSectorBuffer disk fats fileMeta h buffer size offset (start % fs.sectorSize) fatIndex
        let (disk, h) ← patchSector tfsSectorBuffer disk h metaResult.lba
          (·.copyWithin ((tfsSectorBuffer + metaResult.offset) % 2 ^ 32) fileMeta sizeofFileMetadata)
        .ok (true, disk, h)

/-- `tfs_write`: what it returns, the disk and the heap. -/
def tfsWrite (fuel : Nat) (h : Heap σ) (disk : Bytes) (path : CStr) (buffer : Bytes) (size offset : Nat) :
    Res (Bool × Bytes × Heap σ) := do
  Res.assert (fs.fatSectorCount = 2)
  let (fats, h) ← tfsLoadFats S fs fuel h disk
  let (fileMeta, h) ← memoryAllocate S fuel h sizeofFileMetadata
  let (result, disk, h) ← tfsWriteFile fs tfsSectorBuffer disk fats fileMeta h path buffer size offset
  let h ← memoryFree fuel h fileMeta
  let h ← memoryFree fuel h fats
  .ok (result, disk, h)

end

/-! ## `tfs_make_new_file` -/

/-- The outer loop of `tfs_make_new_file`. In a sector with a free entry it
initialises the first entry of the sector. -/
def makeInSectors (fs : FSMetadata) (disk : Bytes) (path : CStr) : Nat → Nat → Nat → Bool × Bytes
  | 0, _, _ => (false, disk)
  | k + 1, lba, fileCount =>
    let sector := diskSector disk lba
    let (found, fileCount) := searchEntries (fun i => fileMetadataEntryIsFree sector (sizeofFileMetadata * i))
      (tfsCountFileMetaEntries fs) (fs.sectorSize / sizeofFileMetadata) 0 fileCount
    match found with
    | some _ => (true, writeDiskSector disk lba (setName (setFileSize (setFirstDataSector sector 0 0xffff) 0 0) 0 path))
    | none => if fileCount > tfsCountFileMetaEntries fs then (false, disk) else makeInSectors fs disk path k (lba + 1) fileCount

/-- `tfs_make_new_file`: what it returns, and the disk. -/
def tfsMakeNewFile (fs : FSMetadata) (disk : Bytes) (path : CStr) : Bool × Bytes :=
  if path.strlen ≥ 24 then (false, disk)
  else makeInSectors fs disk path fs.fileMetaSectorCount tfsGetFileMetadataLba 0

/-! ## `tfs_get_file_attributes` -/

/-- The memory from `tfs_sector_buffer` on, once a sector is read to it. -/
def sectorBuffer (memory disk : Bytes) (lba : Nat) : Bytes := copy memory 0 512 (diskSector disk lba)

/-- The outer loop of `tfs_get_file_metadata_from_name`, over `k` sectors from
`lba` on: the result, and the caller's `*file_meta`. -/
def searchSectorsCall (fs : FSMetadata) (memory disk : Bytes) (path : CStr) :
    Nat → Nat → Nat → FileMetadataResult × Bytes → Res (FileMetadataResult × Bytes)
  | 0, _, _, result => .ok result
  | k + 1, lba, fileCount, (result, fileMeta) => do
    Res.assert (lba ≤ 0xfffffff)
    let buffer := sectorBuffer memory disk lba
    let (found, fileCount) := searchEntries (fun i => strcmpEq buffer (nameAt (sizeofFileMetadata * i)) path)
      (tfsCountFileMetaEntries fs) (fs.sectorSize / sizeofFileMetadata) 0 fileCount
    searchSectorsCall fs memory disk path k (lba + 1) fileCount
      (match found with
        | some i => (⟨true, lba, sizeofFileMetadata * i⟩,
            copy fileMeta 0 sizeofFileMetadata fun b => buffer (sizeofFileMetadata * i + b))
        | none => (result, fileMeta))

/-- `tfs_get_file_metadata_from_name`, for a `file_meta` of the caller: what it returns, and `*file_meta`. -/
def tfsGetFileMetadataFromNameCall (fs : FSMetadata) (memory disk : Bytes) (path : CStr) (fileMeta : Bytes) :
    Res (FileMetadataResult × Bytes) :=
  searchSectorsCall fs memory disk path fs.fileMetaSectorCount tfsGetFileMetadataLba 0 (⟨false, 0, 0⟩, fileMeta)

/-- `tfs_get_file_attributes`: what it returns, and the caller's `*file_meta`. -/
def tfsGetFileAttributes (fs : FSMetadata) (memory disk : Bytes) (path : CStr) (fileMeta : Bytes) :
    Res (Bool × Bytes) := do
  let (metaResult, fileMeta) ← tfsGetFileMetadataFromNameCall fs memory disk path fileMeta
  .ok (metaResult.found, fileMeta)

end OSForReal.TagFS
