import OSForReal.Framework.Res
import OSForReal.TagFS.Utils

/-!
# The FUSE driver (`tagfs/FUSE_driver/src/tagfs.c`)

The callbacks `tagfs_getattr`, `tagfs_readdir`, `tagfs_read`, `tagfs_mknod`,
`tagfs_write` and `tagfs_unlink`, on the bytes of the mapped image. FUSE passes
paths that begin with `/`; `name` is what follows it (`path + 1`). `offset` is not
negative. A callback that fails returns its error number negated. `fs_meta` points
into the image; a callback reads it once here, as it is in an image whose sections
begin behind the header.
-/

namespace OSForReal.TagFS

open Framework
open Framework.Bytes

/-- `ENOENT` -/
abbrev enoent : Int := 2

/-- `ENOSPC` -/
abbrev enospc : Int := 28

/-- `ENAMETOOLONG` -/
abbrev enametoolong : Int := 36

/-- `EBADFD` -/
abbrev ebadfd : Int := 77

/-- The conversion of a size to the `int` that is returned. -/
def toInt (n : Nat) : Int := Int.bmod n (2 ^ 32)

/-- The loop that skips sectors: the FAT entry reached, unless the chain ends before. -/
def skipSectors (fs : FSMetadata) (img : Bytes) : Nat → Nat → Option Nat
  | 0, fatIndex => some fatIndex
  | sectorSkipCount + 1, fatIndex =>
    if fat fs img fatIndex = 0xffff then none else skipSectors fs img sectorSkipCount (fat fs img fatIndex)

/-! ## `tagfs_getattr` -/

/-- `struct stat`, the fields that are written. -/
structure Stat where
  ino : Nat := 0
  mode : Nat := 0
  nlink : Nat := 0
  size : Nat := 0
  blksize : Nat := 0
  blocks : Nat := 0
deriving DecidableEq, Repr

/-- `S_IFDIR | S_IRWXU | S_IRWXG | S_IRWXO` -/
abbrev dirMode : Nat := 0o040777

/-- `S_IFREG | S_IRWXU | S_IRWXG | S_IRWXO` -/
abbrev fileMode : Nat := 0o100777

/-- `CEIL_DIV` -/
def ceilDiv (m n : Nat) : Nat := (m + n - 1) / n

/-- One pass of the loop over the files of the root. -/
def addFile (fs : FSMetadata) (img : Bytes) (st : Stat) (i : Nat) : Stat :=
  if fileMetadataEntryIsFree img (fileMetaAt fs i) then st
  else
    { st with
      size := st.size + fileSize img (fileMetaAt fs i)
      blocks := st.blocks + ceilDiv (fileSize img (fileMetaAt fs i)) st.blksize }

/-- `tagfs_getattr`: what it returns, and `*st`. The path is `/` when no name follows. -/
def tagfsGetattr (img : Bytes) (name : CStr) (st : Stat) : Int × Stat :=
  let fs := fsMeta img
  let st := { st with nlink := 0, blksize := 512 }
  if name.strlen = 0 then
    (0, (List.range (countFileMetaEntries fs)).foldl (addFile fs img) { st with mode := dirMode })
  else
    let st := { st with mode := fileMode }
    let i := scan (fun i => strcmpEq img (nameAt (fileMetaAt fs i)) name) (countFileMetaEntries fs) 0
    if i < countFileMetaEntries fs then
      let size := fileSize img (fileMetaAt fs i)
      (0, { st with ino := i + 1, size, blocks := ceilDiv size st.blksize })
    else (-enoent, st)

/-! ## `tagfs_readdir` -/

/-- `tagfs_readdir`, which returns 0: the calls of `filler`, each with the address of a name and a `stat`. -/
def tagfsReaddir (img : Bytes) (name : CStr) : List (Nat × Stat) :=
  let fs := fsMeta img
  if name.strlen = 0 then
    (List.range (countFileMetaEntries fs)).filterMap fun i =>
      if fileMetadataEntryIsFree img (fileMetaAt fs i) then none
      else some (nameAt (fileMetaAt fs i),
        { ino := i + 1, size := fileSize img (fileMetaAt fs i), mode := fileMode })
  else []

/-! ## `tagfs_read` -/

/-- The `while` of `tagfs_read`, at the byte `bufIndex` of `buf`: the number of
bytes read. Each pass reads at least one, so that `size` passes are enough. -/
def readRest (fs : FSMetadata) (img : Bytes) (size fileSize : Nat) : Nat → Bytes → Nat → Nat → Nat × Bytes
  | 0, buf, bufIndex, _ => (bufIndex, buf)
  | fuel + 1, buf, bufIndex, fatIndex =>
    if bufIndex < size then
      if bufIndex ≥ fileSize then (bufIndex, buf)
      else
        let fatIndex := fat fs img fatIndex
        let bytesToRead := if size ≤ bufIndex + fs.sectorSize then size - bufIndex else fs.sectorSize
        readRest fs img size fileSize fuel (copy buf bufIndex bytesToRead fun k => img (sectorAt fs fatIndex + k))
          (bufIndex + bytesToRead) fatIndex
    else (bufIndex, buf)

/-- `tagfs_read`: what it returns, and the buffer. -/
def tagfsRead (img : Bytes) (name : CStr) (buf : Bytes) (size offset : Nat) : Int × Bytes :=
  let fs := fsMeta img
  let fileId := getFileIdFromName fs img name
  if fileId = 0 then (-enoent, buf)
  else
    let thisFileMeta := fileMetaAt fs (fileId - 1)
    if offset ≥ fileSize img thisFileMeta then (0, buf)
    else
      let byteSkipCount := offset % fs.sectorSize
      match skipSectors fs img (offset / fs.sectorSize) (firstDataSector img thisFileMeta) with
      | none => (-ebadfd, buf)
      | some fatIndex =>
        let sector := sectorAt fs fatIndex + byteSkipCount
        if size ≤ fs.sectorSize - byteSkipCount then (toInt size, copy buf 0 size fun k => img (sector + k))
        else
          let firstSectorBytes := fs.sectorSize - byteSkipCount
          let (bufIndex, buf) := readRest fs img size (fileSize img thisFileMeta) size
            (copy buf 0 firstSectorBytes fun k => img (sector + k)) firstSectorBytes fatIndex
          (toInt bufIndex, buf)

/-! ## `tagfs_mknod` -/

/-- `tagfs_mknod`; `regular` is `S_ISREG(mode)`. -/
def tagfsMknod (img : Bytes) (name : CStr) (regular : Bool) : Int × Bytes :=
  if regular then
    if name.strlen ≥ 24 then (-enametoolong, img)
    else
      let fs := fsMeta img
      let i := findFreeFileMeta fs img
      if i = countFileMetaEntries fs then (-enospc, img)
      else
        let thisFileMeta := fileMetaAt fs i
        (0, setName (setFileSize (setFirstDataSector img thisFileMeta 0xffff) thisFileMeta 0) thisFileMeta name)
  else (-38, img)

/-! ## `tagfs_write` -/

/-- The `while` of `tagfs_write`, at the byte `bufIndex` of `buf`: whether it
ends without an early return, the image, and the number of bytes written. The
`fat_index` it declares is a new variable, and `fat` is not written. Each pass
writes at least one byte, so that `size` passes are enough. -/
def writeRest (fs : FSMetadata) (buf : Bytes) (size : Nat) : Nat → Bytes → Nat → Bool × Bytes × Nat
  | 0, img, bufIndex => (true, img, bufIndex)
  | fuel + 1, img, bufIndex =>
    if bufIndex < size then
      match findFreeFat fs img with
      | none => (false, img, bufIndex)
      | some fatIndex =>
        let bytesToWrite := if size ≤ bufIndex + fs.sectorSize then size - bufIndex else fs.sectorSize
        writeRest fs buf size fuel (copy img (sectorAt fs fatIndex) bytesToWrite fun k => buf (bufIndex + k))
          (bufIndex + bytesToWrite)
    else (true, img, bufIndex)

/-- Raises the recorded size to the end of a write. -/
def growFile (img : Bytes) (thisFileMeta fileEnd : Nat) : Bytes :=
  if fileEnd > fileSize img thisFileMeta then setFileSize img thisFileMeta fileEnd else img

/-- The first FAT entry of a file, a free one for a file without data: the image and the entry. -/
def startOfFile (fs : FSMetadata) (img : Bytes) (thisFileMeta : Nat) : Option (Bytes × Nat) :=
  if firstDataSector img thisFileMeta = 0xffff then
    (findFreeFat fs img).map fun fatIndex => (setFirstDataSector img thisFileMeta fatIndex, fatIndex)
  else some (img, firstDataSector img thisFileMeta)

/-- Where a write begins: at `offset`, or at the end of a file that ends before it. -/
def writeStart (img : Bytes) (thisFileMeta offset : Nat) : Nat :=
  if offset < fileSize img thisFileMeta then offset else fileSize img thisFileMeta

/-- `tagfs_write`: what it returns, and the image. -/
def tagfsWrite (img : Bytes) (name : CStr) (buf : Bytes) (size offset : Nat) : Int × Bytes :=
  let fs := fsMeta img
  let fileId := getFileIdFromName fs img name
  if fileId = 0 then (-enoent, img)
  else
    let thisFileMeta := fileMetaAt fs (fileId - 1)
    match startOfFile fs img thisFileMeta with
    | none => (0, img)
    | some (img, fatIndex) =>
      -- The two branches on `offset` skip sectors alike.
      let start := writeStart img thisFileMeta offset
      let byteSkipCount := start % fs.sectorSize
      match skipSectors fs img (start / fs.sectorSize) fatIndex with
      | none => (-ebadfd, img)
      | some fatIndex =>
        let sector := sectorAt fs fatIndex + byteSkipCount
        if size ≤ fs.sectorSize - byteSkipCount then
          let img := copy img sector size buf
          let img := if fat fs img fatIndex = 0 then setFat fs img fatIndex 0xffff else img
          (toInt size, growFile img thisFileMeta (offset + size))
        else
          let firstSectorBytes := fs.sectorSize - byteSkipCount
          match writeRest fs buf size size (copy img sector firstSectorBytes buf) firstSectorBytes with
          | (false, img, bufIndex) => (toInt bufIndex, img)
          | (true, img, bufIndex) => (toInt bufIndex, growFile img thisFileMeta (offset + bufIndex))

/-! ## `tagfs_unlink` -/

/-- The `for (;;)` of `tagfs_unlink`, which follows the entry it has just cleared. -/
def unlinkLoop (fs : FSMetadata) : Nat → Bytes → Nat → Res Bytes
  | 0, _, _ => .timeout
  | fuel + 1, img, fatIndex =>
    let oldFatEntry := fat fs img fatIndex
    let img := setFat fs img fatIndex 0
    if oldFatEntry = 0xffff then .ok img else unlinkLoop fs fuel img (fat fs img fatIndex)

/-- `tagfs_unlink`: the image. The index of a name that is not found is 0 and
not −1, so that the entry before the first one is taken for it. -/
def tagfsUnlink (fuel : Nat) (img : Bytes) (name : CStr) : Res Bytes :=
  let fs := fsMeta img
  let thisFileMeta := fileMetaAt fs (getFileIdFromName fs img name) - sizeofFileMetadata
  let img := copy img (nameAt thisFileMeta) 1 fun _ => 0
  if firstDataSector img thisFileMeta = 0xffff then .ok img
  else unlinkLoop fs fuel img (firstDataSector img thisFileMeta)

/-- `tagfs_unlink`: what it returns, and the image. The index is a `uint16_t`. -/
def tagfsUnlinkCall (fuel : Nat) (img : Bytes) (name : CStr) : Res (Int × Bytes) :=
  let fileId : Int := getFileIdFromName (fsMeta img) img name
  if fileId = -1 then .ok (-enoent, img)
  else do
    let img ← tagfsUnlink fuel img name
    .ok (0, img)

end OSForReal.TagFS
