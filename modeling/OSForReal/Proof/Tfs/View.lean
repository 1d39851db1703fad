import OSForReal.TagFS.Accesses

/-!
# What the calls of the kernel do to a file

`tfs_read` and `tfs_write` as they are when none of their buffers lies in
another: the disk and the caller's buffer, and of the heap only what the memory
shows of the FAT. Its first sector is read there; `view` is everything else that
`fats` points at, which the calls take for the rest of the FAT (`viewFats`).
-/

namespace OSForReal.Proof.Tfs

open Framework
open Framework.Bytes
open OSForReal.TagFS

variable (fs : FSMetadata)

/-- `fats`, when its first sector is read. -/
def viewFats (disk view : Bytes) : Bytes := copy view 0 512 (diskSector disk (tfsGetFatLba fs))

/-- Reads a sector, copies `n` bytes to its byte `o`, and writes it back. -/
def patchedSector (disk : Bytes) (lba o n : Nat) (src : Nat → UInt8) : Bytes :=
  writeDiskSector disk lba (copy (diskSector disk lba) o n src)

/-! ## The search for a name -/

/-- The search over `k` sectors from `lba` on. -/
def viewSearch (disk : Bytes) (path : CStr) : Nat → Nat → Nat → Option (Nat × Nat) → Option (Nat × Nat)
  | 0, _, _, result => result
  | k + 1, lba, fileCount, result =>
    let sector := diskSector disk lba
    let (found, fileCount) := searchEntries (fun i => strcmpEq sector (nameAt (sizeofFileMetadata * i)) path)
      (tfsCountFileMetaEntries fs) (fs.sectorSize / sizeofFileMetadata) 0 fileCount
    viewSearch disk path k (lba + 1) fileCount
      (match found with
        | some i => some (lba, sizeofFileMetadata * i)
        | none => result)

/-- The sector of the entry with a name, and its offset there. -/
def viewMetadata (disk : Bytes) (path : CStr) : Option (Nat × Nat) :=
  viewSearch fs disk path fs.fileMetaSectorCount tfsGetFileMetadataLba 0 none

/-! ## Reading -/

/-- The sectors after the first. -/
def viewReadRest (disk fats : Bytes) (readSize fileSize : Nat) : Nat → Bytes → Nat → Nat → Bytes
  | 0, buffer, _, _ => buffer
  | fuel + 1, buffer, bufIndex, fatIndex =>
    if bufIndex < readSize then
      if bufIndex ≥ fileSize then buffer
      else
        let fatIndex := fatsAt fats fatIndex
        let bytesToRead := if readSize ≤ bufIndex + fs.sectorSize then readSize - bufIndex else fs.sectorSize
        viewReadRest disk fats readSize fileSize fuel
          (copy buffer bufIndex bytesToRead (diskSector disk (tfsSectorLba fs fatIndex))) (bufIndex + bytesToRead) fatIndex
    else buffer

/-- What `tfs_read` returns, and the buffer. -/
def viewRead (disk view : Bytes) (path : CStr) (buffer : Bytes) (readSize offset : Nat) : Bool × Bytes :=
  match viewMetadata fs disk path with
  | none => (false, buffer)
  | some (metaLba, metaOffset) =>
    let fileMeta := 512 * metaLba + metaOffset
    let byteSkipCount := offset % fs.sectorSize
    match skipFats (viewFats fs disk view) (offset / fs.sectorSize) (firstDataSector disk fileMeta) with
    | none => (false, buffer)
    | some fatIndex =>
      let sector := diskSector disk (tfsSectorLba fs fatIndex)
      if readSize ≤ fs.sectorSize - byteSkipCount then
        (true, copy buffer 0 readSize fun k => sector (byteSkipCount + k))
      else
        let firstSectorBytes := fs.sectorSize - byteSkipCount
        (true, viewReadRest fs disk (viewFats fs disk view) readSize (fileSize disk fileMeta) readSize
          (copy buffer 0 firstSectorBytes fun k => sector (byteSkipCount + k)) firstSectorBytes fatIndex)

/-- Reading from the sector `fatIndex` on, with the FAT entries and the data sectors that it accesses. -/
def viewReadSectors (disk fats : Bytes) (fileSize : Nat) (buffer : Bytes) (readSize offset fatIndex : Nat) :
    Traced Access (Bool × Bytes) := do
  let byteSkipCount := offset % fs.sectorSize
  let data := fun i => diskSector disk (tfsSectorLba fs i)
  let sector ← readData data fatIndex
  if readSize ≤ fs.sectorSize - byteSkipCount then
    pure (true, copy buffer 0 readSize fun k => sector (byteSkipCount + k))
  else
    let firstSectorBytes := fs.sectorSize - byteSkipCount
    let (_, buffer) ← restTraced (fatsAt fats) data fs.sectorSize readSize fileSize readSize
      (copy buffer 0 firstSectorBytes fun k => sector (byteSkipCount + k)) firstSectorBytes fatIndex
    pure (true, buffer)

/-- `viewRead` with what it accesses. -/
def viewReadTraced (disk view : Bytes) (path : CStr) (buffer : Bytes) (readSize offset : Nat) :
    Traced Access (Bool × Bytes) :=
  match viewMetadata fs disk path with
  | none => pure (false, buffer)
  | some (metaLba, metaOffset) => do
    let fileMeta := 512 * metaLba + metaOffset
    match ← skipTraced (fatsAt (viewFats fs disk view)) (offset / fs.sectorSize) (firstDataSector disk fileMeta) with
    | none => pure (false, buffer)
    | some fatIndex =>
      viewReadSectors fs disk (viewFats fs disk view) (fileSize disk fileMeta) buffer readSize offset fatIndex

/-! ## Writing -/

/-- The sectors after the first: the disk, and the number of bytes written. -/
def viewWriteRest (fats buffer : Bytes) (size : Nat) : Nat → Bytes → Nat → Bytes × Nat
  | 0, disk, bufIndex => (disk, bufIndex)
  | fuel + 1, disk, bufIndex =>
    if bufIndex < size then
      match tfsFindFreeFat fs fats with
      | none => (disk, bufIndex)
      | some fatIndex =>
        let bytesToWrite := if size ≤ bufIndex + fs.sectorSize then size - bufIndex else fs.sectorSize
        viewWriteRest fats buffer size fuel
          (patchedSector disk (tfsSectorLba fs fatIndex) 0 bytesToWrite fun k => buffer (bufIndex + k))
          (bufIndex + bytesToWrite)
    else (disk, bufIndex)

/-- The data, from the byte `byteSkipCount` of the sector `fatIndex` on: the disk, and the number of bytes written. -/
def viewWriteSectors (disk fats buffer : Bytes) (size byteSkipCount fatIndex : Nat) : Bytes × Nat :=
  let sectorLba := tfsSectorLba fs fatIndex
  if size ≤ fs.sectorSize - byteSkipCount then (patchedSector disk sectorLba byteSkipCount size buffer, size)
  else
    let firstSectorBytes := fs.sectorSize - byteSkipCount
    viewWriteRest fs fats buffer size size (patchedSector disk sectorLba byteSkipCount firstSectorBytes buffer) firstSectorBytes

/-- The entry of the file, with a first sector, and that sector. -/
def viewStartOfFile (fats fileMeta : Bytes) : Option (Bytes × Nat) :=
  if firstDataSector fileMeta 0 = 0xffff then
    (tfsFindFreeFat fs fats).map fun fatIndex => (setFirstDataSector fileMeta 0 fatIndex, fatIndex)
  else some (fileMeta, firstDataSector fileMeta 0)

/-- What `tfs_write` returns, and the disk. -/
def viewWrite (disk view : Bytes) (path : CStr) (buffer : Bytes) (size offset : Nat) : Bool × Bytes :=
  match viewMetadata fs disk path with
  | none => (false, disk)
  | some (metaLba, metaOffset) =>
    match viewStartOfFile fs (viewFats fs disk view) (diskSector disk metaLba <| metaOffset + ·) with
    | none => (false, disk)
    | some (fileMeta, fatIndex) =>
      let start := writeStart fileMeta 0 offset
      match skipFats (viewFats fs disk view) (start / fs.sectorSize) fatIndex with
      | none => (false, disk)
      | some fatIndex =>
        let (disk', written) := viewWriteSectors fs disk (viewFats fs disk view) buffer size (start % fs.sectorSize) fatIndex
        (true, patchedSector disk' metaLba metaOffset sizeofFileMetadata
          (growFile fileMeta 0 ((offset + written) % 2 ^ 32)))

end OSForReal.Proof.Tfs
