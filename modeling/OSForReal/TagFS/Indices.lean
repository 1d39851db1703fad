import OSForReal.Framework.Traced
import OSForReal.Framework.Wrap
import OSForReal.TagFS.Tfsfmt

/-!
# `write_files` with its 16-bit indices

`write_files` again, as in `TagFS.Tfsfmt`, with the counters and ids that are
`uint16_t`: they wrap, and a loop over one may not end. `fuel` bounds these
loops. The pointers to the sections are computed once, from the header `fs`; the
counts and the sector size are read in the image where they are used, since in
an image whose sections reach its header a store may change them. The run
records where a 16-bit index is used (`IndexEvent`).
-/

namespace OSForReal.TagFS

open Framework
open Framework.Bytes

/-- A use of a 16-bit index. -/
inductive IndexEvent where
  /-- The search for a free file metadata entry, and the id that follows. -/
  | fileSearch (img : Bytes)
  /-- `find_or_create_tag(name)` -/
  | tagSearch (img : Bytes) (name : CStr)
  /-- `fat[old_fat_index] = fat_index`, and what the entry then holds. -/
  | link (fatIndex stored : Nat)

section

variable (fuel : Nat) (fs : FSMetadata)

/-- The search for a free file metadata entry. -/
def findFreeFileMeta16 (img : Bytes) : Res Nat :=
  wrapScan (2 ^ 16) (fun i => fileMetadataEntryIsFree img (fileMetaAt fs i)) (countFileMetaEntries (fsMeta img)) fuel

/-- `find_or_create_tag` -/
def findOrCreateTag16 (img : Bytes) (name : CStr) : Res (Nat × Bytes) := do
  let count := tagMetaEntryCount (fsMeta img)
  let index ← wrapScan (2 ^ 16) (fun i => strcmpEq img (tagMetaAt fs i) name) count fuel
  if index < count then .ok ((index + 1) % 2 ^ 16, img)
  else do
    let index ← wrapScan (2 ^ 16) (fun i => tagMetadataEntryIsFree img (tagMetaAt fs i)) count fuel
    if index < count then .ok ((index + 1) % 2 ^ 16, strcpy img (tagMetaAt fs index) name)
    else .ok (0, img)

/-- `link_tag_to_file`; a full map leaves the image as it is. -/
def linkTagToFile16 (img : Bytes) (tagId fileId : Nat) : Bytes :=
  let count := tagFileEntryCount (fsMeta img)
  let linked := scan (fun i => u16 img (tagFileAt fs i) == tagId && u16 img (tagFileAt fs i + 2) == fileId) count 0
  if linked < count then img
  else
    let i := scan (fun i => u16 img (tagFileAt fs i) == 0) count 0
    if i < count then setU16 (setU16 img (tagFileAt fs i) tagId) (tagFileAt fs i + 2) fileId else img

/-- The loop that links the tags to a file. -/
def linkTags16 (fileId : Nat) : List CStr → Bytes → Traced IndexEvent (Res Bytes)
  | [], img => pure (.ok img)
  | tag :: tags, img => do
    let found ← Traced.record (.tagSearch img tag) (findOrCreateTag16 fuel fs img tag)
    Traced.after found fun (tagId, img) =>
      linkTags16 fileId tags (if tagId > 0 then linkTagToFile16 fs img tagId fileId else img)

/-- The search for a free FAT entry from `i` on. -/
def freeFatFrom (numFatEntries : Nat) (img : Bytes) (i : Nat) : Nat := scan (fun i => fat fs img i == 0) numFatEntries i

/-- `data + fat_index * fs_meta->sector_size` -/
def dataAt (img : Bytes) (fatIndex : Nat) : Nat := getData fs + (fsMeta img).sectorSize * fatIndex % 2 ^ 32

/-- The `for (;;)` that copies a file. -/
def copyLoop16 (numFatEntries : Nat) (src : List UInt8) : Nat → Bytes → Nat → Nat → Traced IndexEvent (Res (Bytes × Nat))
  | 0, _, _, _ => pure .timeout
  | passes + 1, img, fatIndex, bytesCopied =>
    let n := min (fsMeta img).sectorSize (src.length - bytesCopied)
    let img := copy img (dataAt fs img fatIndex) n fun k => src.getD (bytesCopied + k) 0
    let bytesCopied := bytesCopied + n
    if bytesCopied = src.length then pure (.ok (setFat fs img fatIndex 0xffff, bytesCopied))
    else
      let oldFatIndex := fatIndex
      let fatIndex := freeFatFrom fs numFatEntries img (fatIndex + 1)
      if fatIndex = numFatEntries then pure (.ok (setFat fs img oldFatIndex 0xffff, bytesCopied))
      else do
        -- The entry is 16 bits wide.
        let img := setFat fs img oldFatIndex fatIndex
        let img ← Traced.record (.link fatIndex (fat fs img oldFatIndex)) img
        copyLoop16 numFatEntries src passes img fatIndex bytesCopied

/-- The body of the loop over the file specs, once the source file is open. -/
def writeFile16 (tags : List CStr) (src : List UInt8) (dstFileName : CStr) (img : Bytes) :
    Traced IndexEvent (Res Bytes) :=
  if !isTagfsFile dstFileName src.length then pure (.ok img)
  else do
    let found ← Traced.record (.fileSearch img) (findFreeFileMeta16 fuel fs img)
    Traced.after found fun fileId =>
      if fileId = countFileMetaEntries (fsMeta img) then pure (.ok img)
      else
        let fileId := (fileId + 1) % 2 ^ 16
        let thisFileMeta := fileMetaAt fs fileId - sizeofFileMetadata
        let numFatEntries := fatCount (fsMeta img)
        let fatIndex := freeFatFrom fs numFatEntries img 0
        if fatIndex = numFatEntries then pure (.ok img)
        else do
          let copied ←
            copyLoop16 fs numFatEntries src numFatEntries (setFirstDataSector img thisFileMeta fatIndex) fatIndex 0
          Traced.after copied fun (img, bytesCopied) =>
            linkTags16 fuel fs fileId tags (setName (setFileSize img thisFileMeta bytesCopied) thisFileMeta dstFileName)

/-- The body of the loop over the file specs. -/
def writeFileSpec16 (files : CStr → Option (List UInt8)) (tags : List CStr) (img : Bytes) (spec : CStr) :
    Traced IndexEvent (Res Bytes) :=
  match parseFileSpec spec with
  | none => pure .halt
  | some (srcFilePath, dstFileName) =>
    match files srcFilePath with
    | none => pure (.ok img)
    | some src => writeFile16 fuel fs tags src dstFileName img

/-- The loop over the file specs. -/
def writeFileSpecs16 (files : CStr → Option (List UInt8)) (tags : List CStr) :
    List CStr → Bytes → Traced IndexEvent (Res Bytes)
  | [], img => pure (.ok img)
  | spec :: specs, img => do
    let written ← writeFileSpec16 fuel fs files tags img spec
    Traced.after written (writeFileSpecs16 files tags specs)

end

/-- `write_files` -/
def writeFiles16 (fuel : Nat) (options : WriteFilesOptions) (img : Bytes) : Traced IndexEvent (Res Bytes) :=
  writeFileSpecs16 fuel (fsMeta img) options.files (filterValidTagNames options.tags) options.fileSpecs img

end OSForReal.TagFS
