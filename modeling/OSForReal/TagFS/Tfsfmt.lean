import Mathlib.Data.List.DropRight
import OSForReal.Framework.Res
import OSForReal.TagFS.Utils

/-!
# `tfsfmt`: formatting an image and writing files to it (`tagfs/tfsfmt/src/tfsfmt.c`)

`format_image`, `write_files` and `write_tag`, on the bytes of the mapped image. The files
of the host are a function from paths to contents (`fopen`, where no contents
is a file that is not found). `fread` returns what is left of a file, up to
the number of bytes asked for. Indices of type `uint16_t` do not wrap: images
have fewer than 65536 file and tag metadata entries. A command reads the header
once: the sections of its image begin behind it, and no store changes it.
`TagFS.Indices` has `write_files` without these two assumptions. A command line
has at most 32 `-file` and 32 `-tag` arguments; the lists here may be longer.
-/

namespace OSForReal.TagFS

open Framework
open Framework.Bytes

/-! ## `format_image` -/

/-- `Format_Options`, with the defaults of `parse_format_options`. -/
structure FormatOptions where
  sectorCount : Nat := 1000
  sectorSize : Nat := 512
  fileMetaSectorCount : Nat := 10
  tagMetaSectorCount : Nat := 10
  tagFileSectorCount : Nat := 10
  fatSectorCount : Nat := 2
deriving DecidableEq, Repr

/-- The `sector_count * sector_size` bytes that `format_image` maps, if it is
positive as an `int`; otherwise the program fails. -/
def mappedSize (options : FormatOptions) : Nat := options.sectorCount * options.sectorSize % 2 ^ 32

/-- `format_image` -/
def formatImage (options : FormatOptions) (img : Bytes) : Bytes :=
  let img := copy img 0 (mappedSize options) fun _ => 0
  let img := setU32 img 4 1
  let img := setU32 img 8 options.sectorCount
  let img := setU32 img 12 options.sectorSize
  let img := setU32 img 16 options.fileMetaSectorCount
  let img := setU32 img 20 options.tagMetaSectorCount
  let img := setU32 img 24 options.tagFileSectorCount
  setU32 img 28 options.fatSectorCount

/-! ## Tags -/

/-- `filter_valid_tag_names` -/
def filterValidTagNames (tagNames : List CStr) : List CStr := tagNames.filter fun name => name.strlen < 28

/-- `find_or_create_tag` -/
def findOrCreateTag (fs : FSMetadata) (img : Bytes) (name : CStr) : Nat × Bytes :=
  let index := scan (fun i => strcmpEq img (tagMetaAt fs i) name) (tagMetaEntryCount fs) 0
  if index < tagMetaEntryCount fs then (index + 1, img)
  else
    let index := scan (fun i => tagMetadataEntryIsFree img (tagMetaAt fs i)) (tagMetaEntryCount fs) 0
    if index < tagMetaEntryCount fs then (index + 1, strcpy img (tagMetaAt fs index) name) else (0, img)

/-- `link_tag_to_file`; a full map leaves the image as it is. -/
def linkTagToFile (fs : FSMetadata) (img : Bytes) (tagId fileId : Nat) : Bytes :=
  let linked := scan (fun i => u16 img (tagFileAt fs i) == tagId && u16 img (tagFileAt fs i + 2) == fileId)
    (tagFileEntryCount fs) 0
  if linked < tagFileEntryCount fs then img
  else
    let i := scan (fun i => u16 img (tagFileAt fs i) == 0) (tagFileEntryCount fs) 0
    if i < tagFileEntryCount fs then setU16 (setU16 img (tagFileAt fs i) tagId) (tagFileAt fs i + 2) fileId
    else img

/-- `link_tag_to_file` returns false: the tag and the file are not linked, and the map is full. -/
def linkFails (fs : FSMetadata) (img : Bytes) (tagId fileId : Nat) : Bool :=
  scan (fun i => u16 img (tagFileAt fs i) == tagId && u16 img (tagFileAt fs i + 2) == fileId)
      (tagFileEntryCount fs) 0 == tagFileEntryCount fs &&
    scan (fun i => u16 img (tagFileAt fs i) == 0) (tagFileEntryCount fs) 0 == tagFileEntryCount fs

/-- The loop that links the tags to a file. -/
def linkTags (fs : FSMetadata) (fileId : Nat) (tags : List CStr) (img : Bytes) : Bytes :=
  tags.foldl (fun img tag =>
    let (tagId, img) := findOrCreateTag fs img tag
    if tagId > 0 then linkTagToFile fs img tagId fileId else img) img

/-- The loop that links the tags to a file warns that it could not link one of them. -/
def linkWarns (fs : FSMetadata) (fileId : Nat) : List CStr → Bytes → Bool
  | [], _ => false
  | tag :: tags, img =>
    let (tagId, img) := findOrCreateTag fs img tag
    if tagId > 0 then
      linkFails fs img tagId fileId || linkWarns fs fileId tags (linkTagToFile fs img tagId fileId)
    else true

/-! ## `write_files` -/

/-- `strtok(spec, ":")` and `strtok(NULL, "\0")`: the source path, and the
destination name unless the string ends with the path. Without a source path,
the program fails. -/
def splitFileSpec (spec : CStr) : Option (CStr × Option CStr) :=
  let chars := spec.chars.dropWhile (· == 0x3a)
  let path := chars.takeWhile (· != 0x3a)
  let rest := (chars.dropWhile (· != 0x3a)).tail
  have hchars : chars.Sublist spec.chars := List.dropWhile_sublist _
  have hpath : 0 ∉ path := fun h => spec.noNul (hchars.subset ((List.takeWhile_sublist _).subset h))
  have hrest : 0 ∉ rest := fun h =>
    spec.noNul (hchars.subset ((List.dropWhile_sublist _).subset (List.mem_of_mem_tail h)))
  if path = [] then none
  else some (⟨path, hpath⟩, if rest = [] then none else some ⟨rest, hrest⟩)

/-- What follows the last `/` of a path. -/
def afterLastSlash (path : CStr) : CStr where
  chars := path.chars.rtakeWhile (· != 0x2f)
  noNul h := path.noNul ((List.rtakeWhile_suffix _ _).subset h)

/-- The source path and the destination name of a file spec. -/
def parseFileSpec (spec : CStr) : Option (CStr × CStr) :=
  (splitFileSpec spec).map fun (src, dst) => (src, dst.getD (afterLastSlash src))

/-- `is_tagfs_file` -/
def isTagfsFile (dstFileName : CStr) (fileSize : Nat) : Bool :=
  if fileSize > 0xffffffff then false
  else if dstFileName.strlen ≥ 24 then false
  else true

/-- The `for (;;)` that copies a file from the FAT entry `fatIndex` on, when
`bytesCopied` bytes are written: the image, and the number of bytes written.
Each pass takes a later entry, so that `fat_count` passes are enough
(`copyLoop_spec`). -/
def copyLoop (fs : FSMetadata) (src : List UInt8) : Nat → Bytes → Nat → Nat → Res (Bytes × Nat)
  | 0, _, _, _ => .timeout
  | fuel + 1, img, fatIndex, bytesCopied =>
    let n := min fs.sectorSize (src.length - bytesCopied)
    let img := copy img (sectorAt fs fatIndex) n fun k => src.getD (bytesCopied + k) 0
    let bytesCopied := bytesCopied + n
    if bytesCopied = src.length then .ok (setFat fs img fatIndex 0xffff, bytesCopied)
    else
      let oldFatIndex := fatIndex
      let fatIndex := nextFreeFat fs img (fatIndex + 1)
      if fatIndex = fatCount fs then .ok (setFat fs img oldFatIndex 0xffff, bytesCopied)
      else copyLoop fs src fuel (setFat fs img oldFatIndex fatIndex) fatIndex bytesCopied

/-- The body of the loop over the file specs, once the source file is open. -/
def writeFile (fs : FSMetadata) (tags : List CStr) (src : List UInt8) (dstFileName : CStr) (img : Bytes) :
    Res Bytes :=
  if !isTagfsFile dstFileName src.length then .ok img
  else
    let fileId := findFreeFileMeta fs img
    if fileId = countFileMetaEntries fs then .ok img
    else
      let fatIndex := nextFreeFat fs img 0
      if fatIndex = fatCount fs then .ok img
      else do
        let img := setFirstDataSector img (fileMetaAt fs fileId) fatIndex
        let (img, bytesCopied) ← copyLoop fs src (fatCount fs) img fatIndex 0
        let img := setFileSize img (fileMetaAt fs fileId) bytesCopied
        let img := setName img (fileMetaAt fs fileId) dstFileName
        .ok (linkTags fs (fileId + 1) tags img)

/-- The body of the loop over the file specs. -/
def writeFileSpec (fs : FSMetadata) (files : CStr → Option (List UInt8)) (tags : List CStr) (img : Bytes)
    (spec : CStr) : Res Bytes :=
  match parseFileSpec spec with
  | none => .halt
  | some (srcFilePath, dstFileName) =>
    match files srcFilePath with
    | none => .ok img
    | some src => writeFile fs tags src dstFileName img

/-- `Write_Files_Options`, and the files of the host. -/
structure WriteFilesOptions where
  files : CStr → Option (List UInt8)
  fileSpecs : List CStr
  tags : List CStr

/-- `write_files` -/
def writeFiles (options : WriteFilesOptions) (img : Bytes) : Res Bytes :=
  options.fileSpecs.foldlM (writeFileSpec (fsMeta img) options.files (filterValidTagNames options.tags)) img

/-! ## `write_tag` -/

/-- The bytes of the image that are mapped. -/
def imageSize (fs : FSMetadata) : Nat := fs.sectorCount * fs.sectorSize % 2 ^ 32

/-- The mapping: zeroes follow the image in its last page. -/
def mappedImg (fs : FSMetadata) (img : Bytes) : Bytes := fun a => if a < imageSize fs then img a else 0

/-- One step of the search `while (tag_metadata_entry_is_free(tag_meta)) tag_meta++;`,
in a mapping of `pages` bytes. What lies behind it stops the program. -/
def tagMetaStep (pages : Nat) (img : Bytes) (tagMeta : Nat) : Res (Nat ⊕ Nat) := do
  Res.assert (tagMeta < pages)
  if tagMetadataEntryIsFree img tagMeta then .ok (.inl (tagMeta + sizeofTagMetadata)) else .ok (.inr tagMeta)

/-- `write_tag`, where the image is mapped by pages of `pages` bytes in all. -/
def writeTag (pages : Nat) (tagName : CStr) (img : Bytes) : Res Bytes := do
  let fs := fsMeta img
  let img := mappedImg fs img
  let tagMeta ← Res.loop (tagMetaStep pages img) (pages + 1) (getTagMetadata fs)
  Res.assert (tagName.strlen < 28)
  Res.assert (tagMeta + tagName.strlen < pages)
  .ok (strcpy img tagMeta tagName)

end OSForReal.TagFS
