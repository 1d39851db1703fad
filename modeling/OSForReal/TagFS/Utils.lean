import OSForReal.Framework.Bytes
import OSForReal.Framework.Search

/-!
# Images of the tagged file system (`tagfs/utils.c`)

What `tfsfmt` and the FUSE driver share: where the sections of a mapped image
begin, and the searches over its entries. Addresses are offsets from
`mapped_img`. A `File_Metadata` at `e` is the word `first_data_sector` at `e`,
the word `size` at `e + 4` and the 24 bytes of `name` at `e + 8`.

`fs_meta` points into the image. Each command and each callback reads it once
here: no write of theirs reaches it, in an image whose sections lie apart.
-/

namespace OSForReal.TagFS

open Framework
open Framework.Bytes

/-- `FS_Metadata`, the fields that are read. -/
structure FSMetadata where
  sectorCount : Nat
  sectorSize : Nat
  fileMetaSectorCount : Nat
  tagMetaSectorCount : Nat
  tagFileSectorCount : Nat
  fatSectorCount : Nat
deriving DecidableEq, Repr

/-- The `FS_Metadata` at the start of an image. -/
def fsMeta (img : Bytes) : FSMetadata where
  sectorCount := u32 img 8
  sectorSize := u32 img 12
  fileMetaSectorCount := u32 img 16
  tagMetaSectorCount := u32 img 20
  tagFileSectorCount := u32 img 24
  fatSectorCount := u32 img 28

/-- `sizeof(File_Metadata)` -/
abbrev sizeofFileMetadata : Nat := 32

/-- `sizeof(Tag_Metadata)` -/
abbrev sizeofTagMetadata : Nat := 32

/-- `sizeof(Tag_File_Entry)` -/
abbrev sizeofTagFileEntry : Nat := 4

/-! ## Sections -/

section

variable (fs : FSMetadata)

/-- `get_file_metadata` -/
def getFileMetadata : Nat := fs.sectorSize

/-- `get_tag_metadata` -/
def getTagMetadata : Nat := (1 + fs.fileMetaSectorCount) * fs.sectorSize % 2 ^ 32

/-- `get_tag_file_array` -/
def getTagFileArray : Nat := (1 + fs.fileMetaSectorCount + fs.tagMetaSectorCount) * fs.sectorSize % 2 ^ 32

/-- `get_fat` -/
def getFat : Nat :=
  (1 + fs.fileMetaSectorCount + fs.tagMetaSectorCount + fs.tagFileSectorCount) * fs.sectorSize % 2 ^ 32

/-- `get_data` -/
def getData : Nat :=
  (1 + fs.fileMetaSectorCount + fs.tagMetaSectorCount + fs.tagFileSectorCount + fs.fatSectorCount) * fs.sectorSize %
    2 ^ 32

/-- `count_file_meta_entries` -/
def countFileMetaEntries : Nat := fs.fileMetaSectorCount * fs.sectorSize % 2 ^ 32 / sizeofFileMetadata

/-- `tag_meta_entry_count` -/
def tagMetaEntryCount : Nat := fs.tagMetaSectorCount * fs.sectorSize % 2 ^ 32 / sizeofTagMetadata

/-- `tag_file_entry_count` -/
def tagFileEntryCount : Nat := fs.tagFileSectorCount * fs.sectorSize % 2 ^ 32 / sizeofTagFileEntry

/-- `fat_count` -/
def fatCount : Nat := fs.fatSectorCount * fs.sectorSize % 2 ^ 32 / 2

/-- `&file_meta[i]` -/
def fileMetaAt (i : Nat) : Nat := getFileMetadata fs + sizeofFileMetadata * i

/-- `&tag_meta[i]` -/
def tagMetaAt (i : Nat) : Nat := getTagMetadata fs + sizeofTagMetadata * i

/-- `&tag_file[i]` -/
def tagFileAt (i : Nat) : Nat := getTagFileArray fs + sizeofTagFileEntry * i

/-- `&fat[i]` -/
def fatAt (i : Nat) : Nat := getFat fs + 2 * i

/-- `data + fs_meta->sector_size * i` -/
def sectorAt (i : Nat) : Nat := getData fs + fs.sectorSize * i % 2 ^ 32

end

/-! ## Entries -/

/-- `e->first_data_sector` -/
def firstDataSector (img : Bytes) (e : Nat) : Nat := u32 img e

/-- `e->size` -/
def fileSize (img : Bytes) (e : Nat) : Nat := u32 img (e + 4)

/-- `e->name` -/
def nameAt (e : Nat) : Nat := e + 8

/-- `fat[i]` -/
def fat (fs : FSMetadata) (img : Bytes) (i : Nat) : Nat := u16 img (fatAt fs i)

/-- `e->first_data_sector = v` -/
def setFirstDataSector (img : Bytes) (e v : Nat) : Bytes := setU32 img e v

/-- `e->size = v` -/
def setFileSize (img : Bytes) (e v : Nat) : Bytes := setU32 img (e + 4) v

/-- `strcpy(e->name, s)` -/
def setName (img : Bytes) (e : Nat) (s : CStr) : Bytes := strcpy img (nameAt e) s

/-- `fat[i] = v` -/
def setFat (fs : FSMetadata) (img : Bytes) (i v : Nat) : Bytes := setU16 img (fatAt fs i) v

/-- `file_metadata_entry_is_free` -/
def fileMetadataEntryIsFree (img : Bytes) (e : Nat) : Bool := img (nameAt e) == 0

/-- `tag_metadata_entry_is_free` -/
def tagMetadataEntryIsFree (img : Bytes) (e : Nat) : Bool := img e == 0

/-- The search for a free file metadata entry. -/
def findFreeFileMeta (fs : FSMetadata) (img : Bytes) : Nat :=
  scan (fun i => fileMetadataEntryIsFree img (fileMetaAt fs i)) (countFileMetaEntries fs) 0

/-- The search for a free FAT entry from `i` on. -/
def nextFreeFat (fs : FSMetadata) (img : Bytes) (i : Nat) : Nat :=
  scan (fun i => fat fs img i == 0) (fatCount fs) i

/-- `get_file_id_from_name` -/
def getFileIdFromName (fs : FSMetadata) (img : Bytes) (name : CStr) : Nat :=
  let i := scan (fun i => strcmpEq img (nameAt (fileMetaAt fs i)) name) (countFileMetaEntries fs) 0
  if i < countFileMetaEntries fs then (i + 1) % 2 ^ 16 else 0

/-- `find_free_fat`, where no index is −1. -/
def findFreeFat (fs : FSMetadata) (img : Bytes) : Option Nat :=
  let i := nextFreeFat fs img 0
  if i < fatCount fs then some i else none

end OSForReal.TagFS
