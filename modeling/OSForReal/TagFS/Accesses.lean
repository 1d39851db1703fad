import OSForReal.Framework.Traced
import OSForReal.Kernel.TagFS

/-!
# What reading a file dereferences

`tagfs_read` and `tfs_read` again, as they are in `TagFS.FuseDriver` and
`Kernel.TagFS`, with the FAT entries and the data sectors that they access.
-/

namespace OSForReal.TagFS

open Framework
open Framework.Bytes
open OSForReal.Heap (memoryAllocate memoryFree)

/-- `fat[i]`, or the data sector `i`. -/
inductive Access where
  | fatEntry (i : Nat)
  | dataSector (i : Nat)
deriving DecidableEq, Repr

/-- `fat[i]` -/
def readEntry (next : Nat → Nat) (i : Nat) : Traced Access Nat := .record (.fatEntry i) (next i)

/-- The bytes of a data sector. -/
def readData (data : Nat → Bytes) (i : Nat) : Traced Access Bytes := .record (.dataSector i) (data i)

/-- The loop that skips sectors, in either driver. -/
def skipTraced (next : Nat → Nat) : Nat → Nat → Traced Access (Option Nat)
  | 0, fatIndex => pure (some fatIndex)
  | sectorSkipCount + 1, fatIndex => do
    let entry ← readEntry next fatIndex
    if entry = 0xffff then pure none else skipTraced next sectorSkipCount entry

/-- The `while` that reads the sectors after the first, in either driver. -/
def restTraced (next : Nat → Nat) (data : Nat → Bytes) (sectorSize size fileSize : Nat) :
    Nat → Bytes → Nat → Nat → Traced Access (Nat × Bytes)
  | 0, buf, bufIndex, _ => pure (bufIndex, buf)
  | fuel + 1, buf, bufIndex, fatIndex =>
    if bufIndex < size then
      if bufIndex ≥ fileSize then pure (bufIndex, buf)
      else do
        let fatIndex ← readEntry next fatIndex
        let bytesToRead := if size ≤ bufIndex + sectorSize then size - bufIndex else sectorSize
        let sector ← readData data fatIndex
        restTraced next data sectorSize size fileSize fuel (copy buf bufIndex bytesToRead sector) (bufIndex + bytesToRead)
          fatIndex
    else pure (bufIndex, buf)

/-! ## `tagfs_read` -/

/-- `tagfs_read` -/
def tagfsReadTraced (img : Bytes) (name : CStr) (buf : Bytes) (size offset : Nat) : Traced Access (Int × Bytes) :=
  let fs := fsMeta img
  let fileId := getFileIdFromName fs img name
  if fileId = 0 then pure (-enoent, buf)
  else
    let thisFileMeta := fileMetaAt fs (fileId - 1)
    if offset ≥ fileSize img thisFileMeta then pure (0, buf)
    else do
      let byteSkipCount := offset % fs.sectorSize
      match ← skipTraced (fat fs img) (offset / fs.sectorSize) (firstDataSector img thisFileMeta) with
      | none => pure (-ebadfd, buf)
      | some fatIndex =>
        let data := fun i k => img (sectorAt fs i + k)
        let sector ← readData data fatIndex
        if size ≤ fs.sectorSize - byteSkipCount then
          pure (toInt size, copy buf 0 size fun k => sector (byteSkipCount + k))
        else
          let firstSectorBytes := fs.sectorSize - byteSkipCount
          let (bufIndex, buf) ← restTraced (fat fs img) data fs.sectorSize size (fileSize img thisFileMeta) size
            (copy buf 0 firstSectorBytes fun k => sector (byteSkipCount + k)) firstSectorBytes fatIndex
          pure (toInt bufIndex, buf)

/-! ## `tfs_read` -/

section

variable {σ : Type} (S : PageSupply σ) (fs : FSMetadata) (tfsSectorBuffer : Nat)

/-- The `while` of `tfs_read`. -/
def tfsReadRestTraced (disk : Bytes) (fats fileMeta readSize : Nat) :
    Nat → Heap σ → Bytes → Nat → Nat → Traced Access (Res (Bytes × Heap σ))
  | 0, h, buffer, _, _ => pure (.ok (buffer, h))
  | fuel + 1, h, buffer, bufIndex, fatIndex =>
    if bufIndex < readSize then
      if bufIndex ≥ fileSize (h.bytesFrom fileMeta) 0 then pure (.ok (buffer, h))
      else do
        let fatIndex ← readEntry (fatsAt (h.bytesFrom fats)) fatIndex
        let bytesToRead := if readSize ≤ bufIndex + fs.sectorSize then readSize - bufIndex else fs.sectorSize
        let read ← .record (.dataSector fatIndex) (readSector h disk (tfsSectorLba fs fatIndex) tfsSectorBuffer)
        .after read fun h =>
          tfsReadRestTraced disk fats fileMeta readSize fuel h
            (copy buffer bufIndex bytesToRead (h.bytesFrom tfsSectorBuffer)) (bufIndex + bytesToRead) fatIndex
    else pure (.ok (buffer, h))

/-- `tfs_read` from the first sector of the window on. -/
def tfsReadDataTraced (disk : Bytes) (fats fileMeta : Nat) (h : Heap σ) (buffer : Bytes)
    (readSize offset fatIndex : Nat) : Traced Access (Res (Bool × Bytes × Heap σ)) := do
  let byteSkipCount := offset % fs.sectorSize
  let read ← .record (.dataSector fatIndex) (readSector h disk (tfsSectorLba fs fatIndex) tfsSectorBuffer)
  .after read fun h =>
    let sector := fun k => h.bytesFrom tfsSectorBuffer (byteSkipCount + k)
    if readSize ≤ fs.sectorSize - byteSkipCount then pure (.ok (true, copy buffer 0 readSize sector, h))
    else do
      let firstSectorBytes := fs.sectorSize - byteSkipCount
      let rest ← tfsReadRestTraced fs tfsSectorBuffer disk fats fileMeta readSize readSize h
        (copy buffer 0 firstSectorBytes sector) firstSectorBytes fatIndex
      pure (rest >>= fun (buffer, h) => .ok (true, buffer, h))

/-- `tfs_read` up to its `done`. -/
def tfsReadFileTraced (disk : Bytes) (fats fileMeta : Nat) (h : Heap σ) (path : CStr) (buffer : Bytes)
    (readSize offset : Nat) : Traced Access (Res (Bool × Bytes × Heap σ)) :=
  .after (tfsGetFileMetadataFromName fs tfsSectorBuffer h disk path fileMeta) fun (metaResult, h) =>
    if !metaResult.found then pure (.ok (false, buffer, h))
    else do
      match ← skipTraced (fatsAt (h.bytesFrom fats)) (offset / fs.sectorSize) (firstDataSector (h.bytesFrom fileMeta) 0) with
      | none => pure (.ok (false, buffer, h))
      | some fatIndex => tfsReadDataTraced fs tfsSectorBuffer disk fats fileMeta h buffer readSize offset fatIndex

/-- `tfs_read` -/
def tfsReadTraced (fuel : Nat) (h : Heap σ) (disk : Bytes) (path : CStr) (buffer : Bytes) (readSize offset : Nat) :
    Traced Access (Res (Bool × Bytes × Heap σ)) :=
  .after (Res.assert (fs.fatSectorCount = 2)) fun _ =>
  .after (tfsLoadFats S fs fuel h disk) fun (fats, h) =>
  .after (memoryAllocate S fuel h sizeofFileMetadata) fun (fileMeta, h) => do
    let read ← tfsReadFileTraced fs tfsSectorBuffer disk fats fileMeta h path buffer readSize offset
    pure do
      let (result, buffer, h) ← read
      let h ← memoryFree fuel h fileMeta
      let h ← memoryFree fuel h fats
      .ok (result, buffer, h)

end

end OSForReal.TagFS
