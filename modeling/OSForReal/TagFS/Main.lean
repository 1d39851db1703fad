import OSForReal.TagFS.Flags
import OSForReal.TagFS.Tfsfmt

/-!
# The programs and the files of the host (`tagfs/tfsfmt/src/tfsfmt.c`, `tagfs/FUSE_driver/src/tagfs.c`)

`main` of `tfsfmt` reads a command line, and changes an image through a shared
mapping of its file; `main` of the driver maps `driver.img`, and the driver serves
calls on the mapping. A path that is not that of a file cannot be opened, and
files of different paths are different. An image that is shorter than what is
mapped of it, or than its `FS_Metadata`, and the subcommand `write-tag` are left out.
-/

namespace OSForReal.TagFS

open Framework
open Framework.Bytes

/-- The files of the host, by their paths. -/
abbrev Files := CStr → Option (List UInt8)

/-! ## Exits -/

/-- `FAIL_PARSE_ARGS`, which is also the status of success. -/
def failParseArgs : Nat := 0

/-- `FAIL_IMG_NOT_FOUND` -/
def failImgNotFound : Nat := 1

/-- `FAIL_GENERIC` -/
def failGeneric : Nat := 3

/-! ## Mappings -/

/-- `sizeof(FS_Metadata)` -/
def sizeofFSMetadata : Nat := 36

/-- The bytes of the pages that hold `n` bytes. -/
def pageBytes (n : Nat) : Nat := (n + 4095) / 4096 * 4096

/-- A file, mapped: zeroes follow it in its last page. -/
def mmap (file : List UInt8) : Bytes := fun a => file.getD a 0

/-- The file after its mapped bytes are changed. -/
def msync (file : List UInt8) (img : Bytes) : List UInt8 := (List.range file.length).map img

/-! ## Options -/

/-- The `int` of the `j`th flag. -/
def Flags.int (st : Flags) (j : Nat) : Int :=
  match (st.flags[j]?).map Flag.target with
  | some (.int n) => n
  | _ => 0

/-- The strings of the `j`th flag, an array. -/
def Flags.array (st : Flags) (j : Nat) : List (Option CStr) :=
  match (st.flags[j]?).map Flag.target with
  | some (.cstrArray value index _) => (List.range index).map value
  | _ => []

/-- `options->image_name` -/
def Flags.imageName (st : Flags) : Option CStr :=
  match (st.positionals[0]?).map Flag.target with
  | some (.cstr value) => value
  | _ => none

/-- An `int` that is stored as a `uint32_t`. -/
def toU32 (n : Int) : Nat := (n % 2 ^ 32).toNat

/-- The `FS_Metadata` fields that `format_image` stores for the values of the flags. -/
def formatOptions (number : Nat → Int) : FormatOptions where
  sectorCount := toU32 (number 0)
  sectorSize := toU32 (number 1)
  fileMetaSectorCount := toU32 (number 2)
  tagMetaSectorCount := toU32 (number 3)
  tagFileSectorCount := toU32 (number 4)
  fatSectorCount := toU32 (number 5)

/-- `parse_format_options` and `parse_write_files_options`: the flags, unless the program exits with
`FAIL_PARSE_ARGS`. The arguments are those after the subcommand. -/
def parseOptions (register : Res Flags) (args : List CStr) : Res (Option Flags) := do
  let st ← register
  let (error, p) ← flagsParseFlags st 0 args.length (args.map some ++ [none])
  .ok (if error.isSome then none else some p.statics)

/-- Strings that are read: a NULL stops the program. -/
def readStrings (l : List (Option CStr)) : Res (List CStr) :=
  l.mapM fun s => match s with
    | none => .halt
    | some s => .ok s

/-! ## `tfsfmt` -/

/-- Opens the image, and runs what leaves a status and the file. -/
def withImage (files : Files) (image : Option CStr) (run : List UInt8 → Res (Nat × List UInt8)) : Res (Nat × Files) :=
  match image with
  | none => .ok (failImgNotFound, files)
  | some image =>
    match files image with
    | none => .ok (failImgNotFound, files)
    | some file => do
      let (status, file) ← run file
      .ok (status, Function.update files image (some file))

/-- `format_image`, once the image is open. A product that is not an `int` is not defined, and
`mmap` fails unless it is positive. -/
def formatFile (number : Nat → Int) (file : List UInt8) : Res (Nat × List UInt8) := do
  let size := number 0 * number 1
  Res.assert (-2 ^ 31 ≤ size ∧ size < 2 ^ 31)
  if size ≤ 0 then .ok (failGeneric, file)
  else do
    Res.assert (pageBytes size.toNat ≤ pageBytes file.length)
    .ok (0, msync file (formatImage (formatOptions number) (mmap file)))

/-- `format_image`, with its command line. -/
def formatCommand (files : Files) (args : List CStr) : Res (Nat × Files) := do
  match ← parseOptions formatFlags args with
  | none => .ok (failParseArgs, files)
  | some st => withImage files st.imageName (formatFile st.int)

/-- The mapping of an image can be made, and is not longer than the file. -/
def Mappable (file : List UInt8) : Prop :=
  sizeofFSMetadata ≤ file.length ∧ pageBytes (imageSize (fsMeta (mmap file))) ≤ pageBytes file.length

instance (file : List UInt8) : Decidable (Mappable file) := inferInstanceAs (Decidable (_ ∧ _))

/-- `write_files`, once the image is open. A source that is the image itself is left out. -/
def writeFilesFile (files : Files) (image : Option CStr) (fileSpecs : List (Option CStr)) (tags : List CStr)
    (file : List UInt8) : Res (Nat × List UInt8) := do
  Res.assert (Mappable file)
  if imageSize (fsMeta (mmap file)) = 0 then .ok (failGeneric, file)
  else do
    let fileSpecs ← readStrings fileSpecs
    Res.assert (∀ spec ∈ fileSpecs, ∀ p ∈ parseFileSpec spec, some p.1 ≠ image)
    let img ← writeFiles { files, fileSpecs, tags } (mmap file)
    .ok (0, msync file img)

/-- `write_files`, with its command line. -/
def writeFilesCommand (files : Files) (args : List CStr) : Res (Nat × Files) := do
  match ← parseOptions writeFilesFlags args with
  | none => .ok (failParseArgs, files)
  | some st => do
    let tags ← readStrings (st.array 1)
    withImage files st.imageName (writeFilesFile files st.imageName (st.array 0) tags)

/-- `main` of `tfsfmt`: its status, and the files. The arguments are those after the name of the program. -/
def tfsfmtMain (files : Files) : List CStr → Res (Nat × Files)
  | [] => .ok (failParseArgs, files)
  | subcommand :: args =>
    if subcommand = CStr.ofString "format" then formatCommand files args
    else if subcommand = CStr.ofString "write-files" then writeFilesCommand files args
    else if subcommand = CStr.ofString "write-tag" then .halt
    else .ok (failParseArgs, files)

/-! ## The driver -/

/-- `image_name` -/
def driverImage : CStr := CStr.ofString "driver.img"

/-- `main` of the driver up to `fuse_main`: the size of its mapping, unless the image cannot be
opened. That `mmap` may fail is not looked at. -/
def driverMain (files : Files) : Res (Option Nat) :=
  match files driverImage with
  | none => .ok none
  | some file => do
    Res.assert (Mappable file)
    let size := imageSize (fsMeta (mmap file))
    Res.assert (size ≠ 0)
    .ok (some size)

end OSForReal.TagFS
