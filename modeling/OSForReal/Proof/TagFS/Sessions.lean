import Mathlib.Data.List.ReduceOption
import OSForReal.Proof.TagFS.CommandLines
import OSForReal.Proof.TagFS.DirectoryFiles

/-!
# Sessions on a host

What `tfsfmt` and the driver are for, from their command lines on: a `Session`
has the files of a host, some of which are images, and an image shows a directory.
Command lines of `tfsfmt`, the start of the driver and the calls that it serves
leave, in any order that keeps the contract, what `Session.run` says, and
nothing else (`host_refines_session`). A command line that is not in
the grammar changes nothing.
-/

namespace OSForReal.Proof.TagFS

open Framework
open Framework.Bytes
open Framework.CommandLine
open OSForReal.TagFS

/-! ## Command lines -/

/-- The flags of `format`. -/
def formatOptionFlags : Flags where
  flags :=
    [⟨CStr.ofString "-sector-count", false, false, .int 1000⟩, ⟨CStr.ofString "-sector-size", false, false, .int 512⟩,
      ⟨CStr.ofString "-fm-sectors", false, false, .int 10⟩, ⟨CStr.ofString "-tm-sectors", false, false, .int 10⟩,
      ⟨CStr.ofString "-tf-sectors", false, false, .int 10⟩, ⟨CStr.ofString "-fat-sectors", false, false, .int 2⟩]
  positionals := [⟨CStr.ofString "image_name", false, true, .cstr none⟩]

/-- What a command line asks for. -/
inductive Command where
  | format (image : CStr) (number : Nat → Int)
  | writeFiles (image : CStr) (fileSpecs tags : List CStr)

/-- The numbers of a `format` command line, and the defaults. -/
def numbersOf (its : List (Item CStr)) (j : Nat) : Int := numberOf ([1000, 512, 10, 10, 10, 2].getD j 0) (valuesOf j its)

/-- What a command line of `format` asks for, if it is in the grammar. -/
def formatLine (args : List CStr) : Option Command := do
  let its ← grammar formatOptionFlags args
  let image ← (operands its).head?
  return .format image (numbersOf its)

/-- What a command line of `write-files` asks for, if it is in the grammar. -/
def writeFilesLine (args : List CStr) : Option Command := do
  let its ← grammar writeFilesOptions args
  let image ← (operands its).head?
  return .writeFiles image (valuesOf 0 its).reduceOption (valuesOf 1 its).reduceOption

/-- What a command line asks for, if anything. -/
def commandOf : List CStr → Option Command
  | [] => none
  | subcommand :: args =>
    if subcommand = CStr.ofString "format" then formatLine args
    else if subcommand = CStr.ofString "write-files" then writeFilesLine args
    else none

/-- The command lines on which the parser does what the grammar says, but for those of `write-tag`. -/
def PlainArgs : List CStr → Prop
  | [] => True
  | subcommand :: args =>
    if subcommand = CStr.ofString "format" then PlainLine formatOptionFlags args
    else if subcommand = CStr.ofString "write-files" then PlainLine writeFilesOptions args
    else subcommand ≠ CStr.ofString "write-tag"

instance : ∀ args, Decidable (PlainArgs args)
  | [] => inferInstanceAs (Decidable True)
  | subcommand :: args => inferInstanceAs (Decidable (if subcommand = CStr.ofString "format" then _ else
    if subcommand = CStr.ofString "write-files" then PlainLine writeFilesOptions args else _))

/-! ## The host -/

/-- A command line of `tfsfmt`, the start of the driver, or a call on what is mounted. -/
inductive SessionCall where
  | tfsfmt (args : List CStr)
  | driver
  | fuse (call : FuseCall)

inductive SessionResult where
  | status (status : Nat)
  | mounted (success : Bool)
  | fuse (result : FuseResult)
deriving DecidableEq

/-- The files of the host, and how much of its image the driver maps. -/
structure Host where
  files : Files
  mapping : Option Nat

/-- A call on the host. What lies behind the mapping of the driver is left out. -/
def hostCall (fuel : Nat) (s : Host) : SessionCall → Res (SessionResult × Host)
  | .tfsfmt args => do
    let (status, files) ← tfsfmtMain s.files args
    .ok (.status status, { s with files })
  | .driver => do
    match ← driverMain s.files with
    | none => .ok (.mounted false, s)
    | some size => .ok (.mounted true, { s with mapping := some size })
  | .fuse call =>
    match s.mapping, s.files driverImage with
    | some size, some file => do
      Res.assert (imageSize (fsMeta (mmap file)) ≤ size)
      let (result, img) ← fuseCall fuel (mmap file) call
      .ok (.fuse result, { s with files := Function.update s.files driverImage (some (msync file img)) })
    | _, _ => .halt

/-- The host. -/
def host : Object Host SessionCall SessionResult where
  call s c r s' := ∃ fuel, hostCall fuel s c = .ok (r, s')

/-! ## Sessions -/

/-- A file of the host: an image, once it is formatted. -/
inductive HostFile where
  | raw (bytes : List UInt8)
  | image (length : Nat) (options : FormatOptions) (directory : Directory)

def HostFile.length : HostFile → Nat
  | .raw bytes => bytes.length
  | .image length _ _ => length

/-- The room in an image. -/
abbrev roomOf (options : FormatOptions) : Volume := volumeOf (headerOf options)

/-- The files of the host, and whether the driver has been started. -/
structure Session where
  files : CStr → Option HostFile
  mounted : Bool

namespace Session

variable (t : Session)

/-- What is read from a path: images are not read. -/
def source (path : CStr) : Option (List UInt8) :=
  match t.files path with
  | some (.raw bytes) => some bytes
  | _ => none

def isImage (path : CStr) : Bool :=
  match t.files path with
  | some (.image _ _ _) => true
  | _ => false

def put (path : CStr) (file : HostFile) : Session := { t with files := Function.update t.files path (some file) }

/-- What a command returns and leaves. -/
def command : Command → Nat × Session
  | .format image number =>
    match t.files image with
    | none => (1, t)
    | some file => (0, t.put image (.image file.length (formatOptions number) Directory.empty))
  | .writeFiles image fileSpecs _ =>
    match t.files image with
    | none => (1, t)
    | some (.raw _) => (0, t)
    | some (.image length options d) =>
      (0, t.put image (.image length options (fileSpecs.foldl (Directory.storeSpec (roomOf options) t.source) d)))

/-- What a command line returns and leaves: nothing changes if it asks for nothing. -/
def line : Option Command → Nat × Session
  | none => (0, t)
  | some c => t.command c

/-- What a call returns and leaves. -/
def run : SessionCall → SessionResult × Session
  | .tfsfmt args => (.status (t.line (commandOf args)).1, (t.line (commandOf args)).2)
  | .driver =>
    match t.files driverImage with
    | none => (.mounted false, t)
    | some _ => (.mounted true, { t with mounted := true })
  | .fuse call =>
    match t.files driverImage with
    | some (.image length options d) =>
      (.fuse (Directory.call (roomOf options) d call).1,
        t.put driverImage (.image length options (Directory.call (roomOf options) d call).2))
    | _ => (.status 0, t)

/-- The contract of a file that becomes an image: it is long enough for a geometry without overlaps, and
not what the driver has mapped. -/
def FormatOk (image : CStr) (options : FormatOptions) (file : HostFile) : Prop :=
  Geometry (headerOf options) ∧ mappedSize options ≤ file.length ∧ (t.mounted = true → image ≠ driverImage)

/-- The contract of an image that is written to: the sources are no images, and each fits a sector. -/
def WriteOk (fileSpecs : List CStr) : HostFile → Prop
  | .raw _ => False
  | .image _ options _ => ∀ spec ∈ fileSpecs, Directory.SmallSpec (roomOf options) t.source spec = true ∧
    ∀ p ∈ parseFileSpec spec, t.isImage p.1 = false

/-- The contract of a command. -/
def CommandOk : Command → Prop
  | .format image number => ∀ file ∈ t.files image, t.FormatOk image (formatOptions number) file
  | .writeFiles image fileSpecs _ => ∀ file ∈ t.files image, t.WriteOk fileSpecs file

/-- The contract of a call on a file. -/
def CallOk (call : FuseCall) : HostFile → Prop
  | .raw _ => False
  | .image _ options d => Directory.Ok (roomOf options) d call

/-- The contract. -/
def Ok : SessionCall → Prop
  | .tfsfmt args => PlainArgs args ∧ ∀ c ∈ commandOf args, t.CommandOk c
  | .driver => (t.files driverImage).isSome = true → t.isImage driverImage = true
  | .fuse call => t.mounted = true ∧ ∃ file ∈ t.files driverImage, CallOk call file

instance (fs : FSMetadata) : Decidable (Geometry fs) := decidable_of_iff
  (36 ≤ fs.sectorSize ∧ fs.sectorCount * fs.sectorSize < 2 ^ 31 ∧ countFileMetaEntries fs < 65536 ∧
    tagMetaEntryCount fs < 65536 ∧ fatCount fs ≤ 0xffff ∧ 1 + fs.fileMetaSectorCount + fs.tagMetaSectorCount +
      fs.tagFileSectorCount + fs.fatSectorCount + fatCount fs ≤ fs.sectorCount)
  ⟨fun h => ⟨h.1, h.2.1, h.2.2.1, h.2.2.2.1, h.2.2.2.2.1, h.2.2.2.2.2⟩,
    fun h => ⟨h.sectorSize, h.total, h.fileMetas, h.tagMetas, h.fats, h.data⟩⟩

instance (image : CStr) (options : FormatOptions) (file : HostFile) : Decidable (t.FormatOk image options file) :=
  inferInstanceAs (Decidable (_ ∧ _))

instance (fileSpecs : List CStr) : ∀ file, Decidable (t.WriteOk fileSpecs file)
  | .raw _ => inferInstanceAs (Decidable False)
  | .image _ _ _ => inferInstanceAs (Decidable (∀ spec ∈ fileSpecs, _ ∧ _))

instance : ∀ c, Decidable (t.CommandOk c)
  | .format image _ => inferInstanceAs (Decidable (∀ file ∈ t.files image, _))
  | .writeFiles image fileSpecs _ => inferInstanceAs (Decidable (∀ file ∈ t.files image, t.WriteOk fileSpecs file))

instance (call : FuseCall) : ∀ file, Decidable (CallOk call file)
  | .raw _ => inferInstanceAs (Decidable False)
  | .image _ options d => inferInstanceAs (Decidable (Directory.Ok (roomOf options) d call))

instance : ∀ c, Decidable (t.Ok c)
  | .tfsfmt _ => inferInstanceAs (Decidable (_ ∧ ∀ c ∈ commandOf _, t.CommandOk c))
  | .driver => inferInstanceAs (Decidable (_ → _))
  | .fuse call => inferInstanceAs (Decidable (_ ∧ ∃ file ∈ t.files driverImage, CallOk call file))

end Session

/-! ## Images in files -/

variable {fs : FSMetadata} {img img' : Bytes} {d : Directory} {file : List UInt8} {s : Host} {t : Session}
  {args : List CStr} {path image : CStr} {its : List (Item CStr)} {number : Nat → Int} {f : HostFile} {a j : Nat}

theorem mmap_msync (file : List UInt8) (img : Bytes) (h : a < file.length) : mmap (msync file img) a = img a := by
  rw [mmap, msync, List.getD_eq_getElem?_getD, List.getElem?_map, List.getElem?_range h]
  rfl

theorem length_msync (file : List UInt8) (img : Bytes) : (msync file img).length = file.length := by simp [msync]

theorem Geometry.imageSize_eq (G : Geometry fs) : imageSize fs = fs.sectorCount * fs.sectorSize := by
  have htotal := G.total
  exact Nat.mod_eq_of_lt (by omega)

/-- The sections of an image lie in what is mapped of it. -/
theorem Geometry.sections_le (G : Geometry fs) : getData fs + fs.sectorSize * fatCount fs ≤ imageSize fs := by
  have hall := Nat.mul_le_mul_right fs.sectorSize G.data
  have htotal := G.total
  have hcomm : fs.sectorSize * fatCount fs = fatCount fs * fs.sectorSize := Nat.mul_comm _ _
  rw [G.imageSize_eq, getData, hcomm]
  rw [Nat.add_mul] at hall
  rw [Nat.mod_eq_of_lt (by omega)]
  exact hall

/-- An image shows its directory in the bytes that are mapped. -/
theorem IsDirectory.congr (h : IsDirectory fs img d) (G : Geometry fs) (heq : ∀ a < imageSize fs, img' a = img a) :
    IsDirectory fs img' d := by
  have L := G.layout
  have hfiles := L.files; have htags := L.tags; have hlinks := L.links; have hfats := L.fats
  have hend := G.sections_le
  have hsize := L.sectorSize
  have hfat : ∀ x < fatCount fs, fat fs img' x = fat fs img x := fun x hx => u16_congr fun b h₁ h₂ => heq b (by
    rw [Layout.fatAt_eq] at h₂
    omega)
  have hentry : ∀ i < countFileMetaEntries fs, ∀ b, fileMetaAt fs i ≤ b → b < fileMetaAt fs i + 32 → img' b = img b :=
    fun i hi b _ h₂ => heq b (by
      rw [Layout.fileMetaAt_eq] at h₂
      omega)
  have hused : ∀ i, Used fs img' i ↔ Used fs img i := fun i => and_congr_right fun hi => by
    rw [fileMetadataEntryIsFree, fileMetadataEntryIsFree, nameAt, hentry i hi _ (by omega) (by omega)]
  have hfirst : ∀ i < countFileMetaEntries fs,
      firstDataSector img' (fileMetaAt fs i) = firstDataSector img (fileMetaAt fs i) :=
    fun i hi => u32_congr fun b h₁ h₂ => hentry i hi b (by omega) (by omega)
  have hbytes : ∀ i < countFileMetaEntries fs, fileSize img' (fileMetaAt fs i) = fileSize img (fileMetaAt fs i) :=
    fun i hi => u32_congr fun b h₁ h₂ => hentry i hi b (by omega) (by omega)
  obtain ⟨chain, hO⟩ := h.oneSector
  refine ⟨⟨chain, ?_, ?_, fun i hi => hO.length_le i ((hused i).mp hi), fun x hx => hO.low x ⟨hx.1, hfat x hx.1 ▸ hx.2⟩,
    fun i hi => ?_⟩, fun i => ?_⟩
  · exact (fsMeta_congr fun b _ => heq b (by omega)).trans hO.header
  · exact hO.owned.congr (fun x hx => hfat x hx.1) (fun x => and_congr_right fun hx => by rw [hfat x hx]) hused
      fun i hi => hfirst i hi.1
  · have hi := (hused i).mp hi
    rw [hbytes i hi.1]
    exact hO.size_le i hi
  · have hslot := h.slots i
    cases hd : d i with
    | none =>
      rw [hd] at hslot
      exact fun hu => hslot ((hused i).mp hu)
    | some f =>
      rw [hd] at hslot
      have hf : FileAt fs img i f := hslot
      have hi := hf.used.1
      refine (⟨(hused i).mpr hf.used, ?_, hf.strlen, ?_, fun k hk => ?_, ?_⟩ : FileAt fs img' i f)
      · rw [← hf.named, nameAt]
        have hlen := hf.strlen
        exact strcmpEq_congr fun b h₁ h₂ => hentry i hi b (by omega) (by omega)
      · rw [hbytes i hi, hf.size]
      · rw [hfirst i hi, ← hf.bytes k hk]
        rcases hf.cases hO L with ⟨-, -, -, hnil⟩ | ⟨-, -, hx, hle⟩
        · rw [hnil] at hk
          cases hk
        · have hsector := L.sectorAt_eq hx
          have hroom : fs.sectorSize * (firstDataSector img (fileMetaAt fs i) + 1) ≤ fs.sectorSize * fatCount fs :=
            Nat.mul_le_mul_left _ hx
          rw [Nat.mul_add, Nat.mul_one] at hroom
          exact heq _ (by omega)
      · rw [hfirst i hi]
        exact hf.placed

/-- A file is what the session says: an image shows its directory. -/
def Shows : Option (List UInt8) → Option HostFile → Prop
  | none, none => True
  | some file, some (.raw bytes) => file = bytes
  | some file, some (.image length options d) => file.length = length ∧ Geometry (headerOf options) ∧
    imageSize (headerOf options) ≤ length ∧ IsDirectory (headerOf options) (mmap file) d
  | _, _ => False

/-- The host is in the state of the session, with a mapping of the image that is mounted. -/
structure InSession (s : Host) (t : Session) : Prop where
  files : ∀ path, Shows (s.files path) (t.files path)
  mapping : t.mounted = true → ∃ length options d, t.files driverImage = some (.image length options d) ∧
    s.mapping = some (imageSize (headerOf options))

theorem Shows.raw {o : Option (List UInt8)} {bytes : List UInt8} (h : Shows o (some (.raw bytes))) : o = some bytes := by
  cases o with
  | none => exact h.elim
  | some file =>
    obtain rfl : file = bytes := h
    rfl

theorem Shows.shown {o : Option (List UInt8)} {length : Nat} {options : FormatOptions}
    (h : Shows o (some (.image length options d))) : ∃ file, o = some file ∧ file.length = length ∧
      Geometry (headerOf options) ∧ imageSize (headerOf options) ≤ length ∧
      IsDirectory (headerOf options) (mmap file) d := by
  cases o with
  | none => exact h.elim
  | some file => exact ⟨file, rfl, h⟩

theorem Shows.none {o : Option (List UInt8)} (h : Shows o none) : o = none := by
  cases o with
  | none => rfl
  | some file => exact h.elim

/-- A file has the length that the session says. -/
theorem Shows.length {o : Option (List UInt8)} (h : Shows o (some f)) : ∃ file, o = some file ∧ file.length = f.length := by
  cases f with
  | raw bytes => exact ⟨bytes, h.raw, rfl⟩
  | image length options d =>
    obtain ⟨file, hfile, hlen, -⟩ := h.shown
    exact ⟨file, hfile, hlen⟩

/-- A file that a program leaves, where the mounted image keeps its options. -/
theorem InSession.put (h : InSession s t) (hshows : Shows (some file) (some f))
    (hdriver : t.mounted = true → path = driverImage → ∀ length options d,
      t.files driverImage = some (.image length options d) → ∃ length' d', f = .image length' options d') :
    InSession { s with files := Function.update s.files path (some file) } (t.put path f) := by
  refine ⟨fun q => ?_, fun hmounted => ?_⟩
  · show Shows (Function.update s.files path (some file) q) (Function.update t.files path (some f) q)
    by_cases hq : q = path
    · rw [hq, Function.update_self, Function.update_self]
      exact hshows
    · rw [Function.update_of_ne hq, Function.update_of_ne hq]
      exact h.files q
  · obtain ⟨length, options, d, hfile, hmapping⟩ := h.mapping hmounted
    by_cases hpath : path = driverImage
    · obtain ⟨length', d', rfl⟩ := hdriver hmounted hpath length options d hfile
      refine ⟨length', options, d', ?_, hmapping⟩
      show Function.update t.files path _ driverImage = _
      rw [← hpath, Function.update_self]
    · refine ⟨length, options, d, ?_, hmapping⟩
      show Function.update t.files path _ driverImage = _
      rw [Function.update_of_ne (Ne.symm hpath), hfile]

/-- An image with what a program leaves in its mapping. -/
theorem shows_msync {length : Nat} {options : FormatOptions} (hlen : file.length = length) (G : Geometry (headerOf options))
    (hsize : imageSize (headerOf options) ≤ length) (h : IsDirectory (headerOf options) img d) :
    Shows (some (msync file img)) (some (.image length options d)) :=
  ⟨(length_msync file img).trans hlen, G, hsize,
    h.congr G fun _ ha => mmap_msync file img (Nat.lt_of_lt_of_le ha (hlen ▸ hsize))⟩

theorem pageBytes_mono {m n : Nat} (h : m ≤ n) : pageBytes m ≤ pageBytes n :=
  Nat.mul_le_mul_right _ (Nat.div_le_div_right (Nat.add_le_add_right h _))

/-- An image that shows a directory can be mapped. -/
theorem mappable (G : Geometry fs) (hsize : imageSize fs ≤ file.length) (h : IsDirectory fs (mmap file) d) :
    Mappable file ∧ imageSize (fsMeta (mmap file)) = imageSize fs ∧ imageSize fs ≠ 0 := by
  have hsector := G.sectorSize
  have hcount : 1 ≤ fs.sectorCount := by
    have hdata := G.data
    omega
  have hmul : 1 * fs.sectorSize ≤ fs.sectorCount * fs.sectorSize := Nat.mul_le_mul_right _ hcount
  have himage := G.imageSize_eq
  have hheader : fsMeta (mmap file) = fs := h.header
  refine ⟨⟨?_, ?_⟩, by rw [hheader], by omega⟩
  · rw [sizeofFSMetadata]
    omega
  · rw [hheader]
    exact pageBytes_mono hsize

/-! ## `format` -/

theorem registration_formatOptionFlags : Registration formatOptionFlags := registration_format rfl

theorem fits_numbersOf (its : List (Item CStr)) (hj : j < 6) : Fits32 (numbersOf its j) := by
  have hdefault : ∀ j < 6, Fits32 ([1000, 512, 10, 10, 10, 2].getD j 0) := by decide
  rw [numbersOf, numberOf]
  cases hv : (valuesOf j its).getLast?.join.bind fun s => intOf s.chars with
  | none => exact hdefault j hj
  | some n =>
    obtain ⟨s, -, hs⟩ := Option.bind_eq_some_iff.mp hv
    exact (intOf_eq_some_iff.mp hs).2

theorem formatFile_congr {number' : Nat → Int} (h : ∀ j < 6, number j = number' j) (file : List UInt8) :
    formatFile number file = formatFile number' file := by
  have hoptions : formatOptions number = formatOptions number' := by
    simp only [formatOptions, h 0 (by decide), h 1 (by decide), h 2 (by decide), h 3 (by decide), h 4 (by decide),
      h 5 (by decide)]
  rw [formatFile, formatFile, h 0 (by decide), h 1 (by decide), hoptions]

/-- A `format` command line of the grammar. -/
theorem formatCommand_taken (hplain : PlainLine formatOptionFlags args) (h : grammar formatOptionFlags args = some its)
    (files : Files) : ∃ image, operands its = [image] ∧
      formatCommand files args = withImage files (some image) (formatFile (numbersOf its)) := by
  obtain ⟨st, hparse, hholds⟩ := @parseOptions_taken _ _ _ formatFlags rfl registration_formatOptionFlags hplain h
  have hgrammar := (grammar_eq_some_iff registration_formatOptionFlags).mp h
  obtain ⟨image, himage⟩ := List.length_eq_one_iff.mp hgrammar.complete.positionals
  have hfirst : (operands its)[0]? = some image := by rw [himage]; rfl
  have hname := hholds.imageName_eq hfirst
  have hnumbers : ∀ j < 6, st.int j = numbersOf its j := fun j hj => by
    rcases j with _ | _ | _ | _ | _ | _ | j
    all_goals first | exact hholds.int_eq hgrammar rfl rfl | omega
  refine ⟨image, himage, ?_⟩
  rw [formatCommand, hparse, Res.ok_bind]
  show withImage files st.imageName (formatFile st.int) = _
  rw [hname, funext (formatFile_congr hnumbers)]

theorem formatCommand_refused (hplain : PlainLine formatOptionFlags args) (h : grammar formatOptionFlags args = none)
    (files : Files) : formatCommand files args = .ok (failParseArgs, files) := by
  rw [formatCommand, @parseOptions_refused _ _ formatFlags rfl registration_formatOptionFlags hplain h]
  rfl

/-- A file that is long enough is formatted. -/
theorem formatFile_eq (G : Geometry (headerOf (formatOptions number))) (h₀ : Fits32 (number 0)) (h₁ : Fits32 (number 1))
    (hlen : mappedSize (formatOptions number) ≤ file.length) :
    formatFile number file = .ok (0, msync file (formatImage (formatOptions number) (mmap file))) := by
  have hsector : 36 ≤ toU32 (number 1) := G.sectorSize
  have htotal : toU32 (number 0) * toU32 (number 1) < 2 ^ 31 := G.total
  have hdata := G.data
  have hcount : 1 ≤ toU32 (number 0) := by
    have hfs : (headerOf (formatOptions number)).sectorCount = toU32 (number 0) := rfl
    omega
  have hle₀ := Nat.le_mul_of_pos_right (toU32 (number 0)) (Nat.lt_of_lt_of_le (by decide) hsector)
  have hle₁ := Nat.le_mul_of_pos_left (toU32 (number 1)) hcount
  unfold Fits32 at h₀ h₁
  have heq₀ : number 0 = toU32 (number 0) := by
    unfold toU32 at *
    omega
  have heq₁ : number 1 = toU32 (number 1) := by
    unfold toU32 at *
    omega
  have hsize : number 0 * number 1 = ((toU32 (number 0) * toU32 (number 1) : Nat) : Int) := by
    rw [Int.natCast_mul, ← heq₀, ← heq₁]
  have hpos : 0 < toU32 (number 0) * toU32 (number 1) := by omega
  have hmapped : mappedSize (formatOptions number) = toU32 (number 0) * toU32 (number 1) :=
    Nat.mod_eq_of_lt (show toU32 (number 0) * toU32 (number 1) < 2 ^ 32 by omega)
  rw [hmapped] at hlen
  rw [formatFile, hsize, Int.toNat_natCast]
  show (Res.assert _ >>= fun _ => _) = _
  rw [Res.assert_bind (by omega), if_neg (by omega), Res.assert_bind (pageBytes_mono hlen)]

/-! ## `write-files` -/

theorem readStrings_eq {l : List (Option CStr)} (h : none ∉ l) : readStrings l = .ok l.reduceOption := by
  unfold readStrings
  induction l with
  | nil => rfl
  | cons o l ih =>
    have hrest := ih fun hmem => h (List.mem_cons_of_mem o hmem)
    cases o with
    | none => exact absurd List.mem_cons_self h
    | some v =>
      rw [List.mapM_cons, hrest, List.reduceOption_cons_of_some]
      rfl

/-- A `write-files` command line of the grammar. -/
theorem writeFilesCommand_taken (hplain : PlainLine writeFilesOptions args) (h : grammar writeFilesOptions args = some its)
    (files : Files) : ∃ image, operands its = [image] ∧ writeFilesCommand files args = withImage files (some image)
      (writeFilesFile files (some image) (valuesOf 0 its) (valuesOf 1 its).reduceOption) := by
  obtain ⟨st, hparse, hholds⟩ :=
    @parseOptions_taken _ _ _ writeFilesFlags rfl registration_writeFilesOptions hplain h
  have hgrammar := (grammar_eq_some_iff registration_writeFilesOptions).mp h
  obtain ⟨image, himage⟩ := List.length_eq_one_iff.mp hgrammar.complete.positionals
  have hfirst : (operands its)[0]? = some image := by rw [himage]; rfl
  have hname := hholds.imageName_eq hfirst
  have htags : none ∉ valuesOf 1 its := fun hmem => hgrammar.given 1 (mem_valuesOf.mp hmem)
  refine ⟨image, himage, ?_⟩
  rw [writeFilesCommand, hparse, Res.ok_bind]
  show (readStrings (st.array 1) >>= fun tags => withImage files st.imageName
    (writeFilesFile files st.imageName (st.array 0) tags)) = _
  rw [hholds.array_eq (j := 1) rfl rfl, hholds.array_eq (j := 0) rfl rfl, readStrings_eq htags, hname]
  rfl

theorem writeFilesCommand_refused (hplain : PlainLine writeFilesOptions args)
    (h : grammar writeFilesOptions args = none) (files : Files) :
    writeFilesCommand files args = .ok (failParseArgs, files) := by
  rw [writeFilesCommand, @parseOptions_refused _ _ writeFilesFlags rfl registration_writeFilesOptions hplain h]
  rfl

/-- A path that is not that of an image is read as the session says. -/
theorem InSession.source_eq (h : InSession s t) (himage : t.isImage path = false) : s.files path = t.source path := by
  have hshows := h.files path
  rw [Session.isImage] at himage
  rw [Session.source]
  cases hf : t.files path with
  | none =>
    rw [hf] at hshows
    exact hshows.none
  | some f =>
    cases f with
    | raw bytes =>
      rw [hf] at hshows
      exact hshows.raw
    | image length options d =>
      rw [hf] at himage
      cases himage

theorem storeSpec_congr {V : Volume} {files files' : CStr → Option (List UInt8)} {spec : CStr}
    (h : ∀ p ∈ parseFileSpec spec, files p.1 = files' p.1) :
    Directory.SmallSpec V files spec = Directory.SmallSpec V files' spec ∧
      ∀ d, Directory.storeSpec V files d spec = Directory.storeSpec V files' d spec := by
  unfold Directory.SmallSpec Directory.storeSpec
  cases hparse : parseFileSpec spec with
  | none => exact ⟨rfl, fun _ => rfl⟩
  | some p => simp only [h p hparse, implies_true, and_self]

/-- An image is written to. -/
theorem writeFilesFile_eq (h : InSession s t) {length : Nat} {options : FormatOptions} {fileSpecs : List (Option CStr)}
    (hgiven : none ∉ fileSpecs) (tags : List CStr) (hlen : file.length = length) (G : Geometry (headerOf options))
    (hsize : imageSize (headerOf options) ≤ length) (hd : IsDirectory (headerOf options) (mmap file) d)
    (himage : t.files image = some (.image length options d))
    (hok : t.WriteOk fileSpecs.reduceOption (.image length options d)) :
    ∃ img, writeFilesFile s.files (some image) fileSpecs tags file = .ok (0, msync file img) ∧
      IsDirectory (headerOf options) img
        (fileSpecs.reduceOption.foldl (Directory.storeSpec (roomOf options) t.source) d) := by
  obtain ⟨hmap, hheader, hne⟩ := mappable G (hlen ▸ hsize) hd
  have hsource : ∀ spec ∈ fileSpecs.reduceOption, ∀ p ∈ parseFileSpec spec, s.files p.1 = t.source p.1 :=
    fun spec hspec p hp => h.source_eq ((hok spec hspec).2 p hp)
  have hspecs : Directory.ToolOk (roomOf options) d (.writeFiles ⟨s.files, fileSpecs.reduceOption, tags⟩) :=
    fun spec hspec => (storeSpec_congr (hsource spec hspec)).1.trans (hok spec hspec).1
  obtain ⟨img, hwrite, hd'⟩ := hd.writeFiles G.layout _ hspecs
  refine ⟨img, ?_, ?_⟩
  · have hother : ∀ spec ∈ fileSpecs.reduceOption, ∀ p ∈ parseFileSpec spec, some p.1 ≠ some image := by
      intro spec hspec p hp heq
      have hno := (hok spec hspec).2 p hp
      rw [Option.some.inj heq, Session.isImage, himage] at hno
      cases hno
    rw [writeFilesFile, Res.assert_bind hmap, hheader, if_neg hne, readStrings_eq hgiven, Res.ok_bind,
      Res.assert_bind hother, hwrite]
    rfl
  · have hfold : fileSpecs.reduceOption.foldl (Directory.storeSpec (roomOf options) s.files) d =
        fileSpecs.reduceOption.foldl (Directory.storeSpec (roomOf options) t.source) d :=
      List.foldl_ext _ _ _ fun d spec hspec => (storeSpec_congr (hsource spec hspec)).2 d
    rw [← hfold]
    exact hd'

/-! ## Runs -/

theorem withImage_none (h : s.files path = none) (run : List UInt8 → Res (Nat × List UInt8)) :
    withImage s.files (some path) run = .ok (failImgNotFound, s.files) := by
  rw [withImage, h]

theorem withImage_some {run : List UInt8 → Res (Nat × List UInt8)} {file' : List UInt8} {status : Nat}
    (h : s.files path = some file) (hrun : run file = .ok (status, file')) :
    withImage s.files (some path) run = .ok (status, Function.update s.files path (some file')) := by
  rw [withImage, h]
  show (run file >>= _) = _
  rw [hrun]
  rfl

/-- What a command does. -/
theorem InSession.format (h : InSession s t) (hfits : ∀ j < 6, Fits32 (number j))
    (hok : t.CommandOk (.format image number)) :
    ∃ files, withImage s.files (some image) (formatFile number) = .ok ((t.command (.format image number)).1, files) ∧
      InSession { s with files } (t.command (.format image number)).2 := by
  have hshows := h.files image
  rw [Session.command]
  cases hf : t.files image with
  | none =>
    rw [hf] at hshows
    exact ⟨s.files, withImage_none hshows.none _, h⟩
  | some f =>
    rw [hf] at hshows
    obtain ⟨G, hlen, hdriver⟩ := hok f hf
    obtain ⟨file, hfile, hlength⟩ := hshows.length
    have hrun := formatFile_eq G (hfits 0 (by decide)) (hfits 1 (by decide)) (hlength ▸ hlen)
    refine ⟨_, withImage_some hfile hrun, h.put (shows_msync hlength G hlen (isDirectory_formatImage G _)) ?_⟩
    exact fun hmounted himage => absurd himage (hdriver hmounted)

theorem InSession.writeFiles (h : InSession s t) {fileSpecs : List (Option CStr)} (hgiven : none ∉ fileSpecs) (tags : List CStr)
    (hok : t.CommandOk (.writeFiles image fileSpecs.reduceOption tags)) :
    ∃ files, withImage s.files (some image) (writeFilesFile s.files (some image) fileSpecs tags) =
        .ok ((t.command (.writeFiles image fileSpecs.reduceOption tags)).1, files) ∧
      InSession { s with files } (t.command (.writeFiles image fileSpecs.reduceOption tags)).2 := by
  have hshows := h.files image
  rw [Session.command]
  cases hf : t.files image with
  | none =>
    rw [hf] at hshows
    exact ⟨s.files, withImage_none hshows.none _, h⟩
  | some f =>
    rw [hf] at hshows
    have hwrite := hok f hf
    cases f with
    | raw bytes => exact hwrite.elim
    | image length options d =>
      obtain ⟨file, hfile, hlen, G, hsize, hd⟩ := hshows.shown
      obtain ⟨img, hrun, hd'⟩ := writeFilesFile_eq h hgiven tags hlen G hsize hd hf hwrite
      refine ⟨_, withImage_some hfile hrun, h.put (shows_msync hlen G hsize hd') ?_⟩
      rintro - rfl length' options' d' hdriver
      rw [hf] at hdriver
      obtain ⟨rfl, rfl, -⟩ := HostFile.image.inj (Option.some.inj hdriver)
      exact ⟨_, _, rfl⟩

/-- What a command line of `format` does. -/
theorem InSession.formatLine (h : InSession s t) (hplain : PlainLine formatOptionFlags args)
    (hok : ∀ c ∈ formatLine args, t.CommandOk c) :
    ∃ files, formatCommand s.files args = .ok ((t.line (formatLine args)).1, files) ∧
      InSession { s with files } (t.line (formatLine args)).2 := by
  cases hg : grammar formatOptionFlags args with
  | none =>
    have hline : TagFS.formatLine args = none := by rw [TagFS.formatLine, hg]; rfl
    rw [hline]
    exact ⟨s.files, formatCommand_refused hplain hg s.files, h⟩
  | some its =>
    obtain ⟨image, himage, hrun⟩ := formatCommand_taken hplain hg s.files
    have hline : TagFS.formatLine args = some (.format image (numbersOf its)) := by
      rw [TagFS.formatLine, hg]
      show ((operands its).head? >>= _) = _
      rw [himage]
      rfl
    obtain ⟨files, hfiles, h'⟩ := h.format (fun _ hj => fits_numbersOf its hj) (hok _ hline)
    rw [hline, hrun]
    exact ⟨files, hfiles, h'⟩

/-- What a command line of `write-files` does. -/
theorem InSession.writeFilesLine (h : InSession s t) (hplain : PlainLine writeFilesOptions args)
    (hok : ∀ c ∈ writeFilesLine args, t.CommandOk c) :
    ∃ files, writeFilesCommand s.files args = .ok ((t.line (writeFilesLine args)).1, files) ∧
      InSession { s with files } (t.line (writeFilesLine args)).2 := by
  cases hg : grammar writeFilesOptions args with
  | none =>
    have hline : TagFS.writeFilesLine args = none := by rw [TagFS.writeFilesLine, hg]; rfl
    rw [hline]
    exact ⟨s.files, writeFilesCommand_refused hplain hg s.files, h⟩
  | some its =>
    obtain ⟨image, himage, hrun⟩ := writeFilesCommand_taken hplain hg s.files
    have hline : TagFS.writeFilesLine args =
        some (.writeFiles image (valuesOf 0 its).reduceOption (valuesOf 1 its).reduceOption) := by
      rw [TagFS.writeFilesLine, hg]
      show ((operands its).head? >>= _) = _
      rw [himage]
      rfl
    have hgrammar := (grammar_eq_some_iff registration_writeFilesOptions).mp hg
    have hgiven : none ∉ valuesOf 0 its := fun hmem => hgrammar.given 0 (mem_valuesOf.mp hmem)
    obtain ⟨files, hfiles, h'⟩ := h.writeFiles hgiven _ (hok _ hline)
    rw [hline, hrun]
    exact ⟨files, hfiles, h'⟩

/-- What a command line does. -/
theorem InSession.tfsfmt (h : InSession s t) (hok : t.Ok (.tfsfmt args)) :
    ∃ files, tfsfmtMain s.files args = .ok ((t.line (commandOf args)).1, files) ∧
      InSession { s with files } (t.line (commandOf args)).2 := by
  obtain ⟨hplain, hcommand⟩ := hok
  cases args with
  | nil => exact ⟨s.files, rfl, h⟩
  | cons subcommand args =>
    rw [PlainArgs] at hplain
    rw [commandOf] at hcommand ⊢
    rw [tfsfmtMain]
    by_cases hformat : subcommand = CStr.ofString "format"
    · rw [if_pos hformat] at hplain hcommand ⊢
      rw [if_pos hformat]
      exact h.formatLine hplain hcommand
    · rw [if_neg hformat] at hplain hcommand ⊢
      rw [if_neg hformat]
      by_cases hwrite : subcommand = CStr.ofString "write-files"
      · rw [if_pos hwrite] at hplain hcommand ⊢
        rw [if_pos hwrite]
        exact h.writeFilesLine hplain hcommand
      · rw [if_neg hwrite] at hplain ⊢
        rw [if_neg hwrite, if_neg hplain]
        exact ⟨s.files, rfl, h⟩

/-- What the start of the driver does. -/
theorem InSession.driver (h : InSession s t) (hok : t.Ok .driver) :
    ∃ s', (∀ fuel, hostCall fuel s .driver = .ok ((t.run .driver).1, s')) ∧ InSession s' (t.run .driver).2 := by
  have hshows := h.files driverImage
  rw [Session.run]
  cases hf : t.files driverImage with
  | none =>
    rw [hf] at hshows
    refine ⟨s, fun fuel => ?_, h⟩
    rw [hostCall, driverMain, hshows.none]
    rfl
  | some f =>
    have himage := hok (by rw [hf]; rfl)
    rw [Session.isImage, hf] at himage
    cases f with
    | raw bytes => cases himage
    | image length options d =>
      rw [hf] at hshows
      obtain ⟨file, hfile, hlen, G, hsize, hd⟩ := hshows.shown
      obtain ⟨hmap, hheader, hne⟩ := mappable G (hlen ▸ hsize) hd
      refine ⟨{ s with mapping := some (imageSize (headerOf options)) }, fun fuel => ?_, h.files,
        fun _ => ⟨length, options, d, hf, rfl⟩⟩
      have hmain : driverMain s.files = .ok (some (imageSize (headerOf options))) := by
        rw [driverMain, hfile]
        show (Res.assert (Mappable file) >>= fun _ => _) = _
        rw [Res.assert_bind hmap, hheader, Res.assert_bind hne]
      rw [hostCall, hmain]
      rfl

/-- A call that the driver serves. -/
theorem InSession.fuse (h : InSession s t) {call : FuseCall} (hok : t.Ok (.fuse call)) :
    (∃ r s', host.call s (.fuse call) r s') ∧ ∀ r s', host.call s (.fuse call) r s' →
      r = (t.run (.fuse call)).1 ∧ InSession s' (t.run (.fuse call)).2 := by
  obtain ⟨hmounted, f, hmem, hcall⟩ := hok
  obtain ⟨length, options, d, hf, hmapping⟩ := h.mapping hmounted
  obtain rfl : f = .image length options d := Option.some.inj (hmem.symm.trans hf)
  have hshows := h.files driverImage
  rw [hf] at hshows
  obtain ⟨file, hfile, hlen, G, hsize, hd⟩ := hshows.shown
  obtain ⟨-, hheader, -⟩ := mappable G (hlen ▸ hsize) hd
  have hcalls : ∀ fuel, hostCall fuel s (.fuse call) = (do
      let (result, img) ← fuseCall fuel (mmap file) call
      .ok (.fuse result, { s with files := Function.update s.files driverImage (some (msync file img)) })) := fun fuel => by
    rw [hostCall, hmapping, hfile]
    show (Res.assert _ >>= fun _ => _) = _
    rw [Res.assert_bind (Nat.le_of_eq hheader)]
  have hsim := fuseDriver_simulates G.layout
  rw [Session.run, hf]
  constructor
  · obtain ⟨result, img, fuel, hrun⟩ := hsim.returns (mmap file) d call hd hcall
    exact ⟨.fuse result, _, fuel, (hcalls fuel).trans (Res.bind_eq_ok.mpr ⟨(result, img), hrun, rfl⟩)⟩
  · rintro r s' ⟨fuel, hrun⟩
    obtain ⟨⟨result, img⟩, hfuse, hr⟩ := Res.bind_eq_ok.mp ((hcalls fuel).symm.trans hrun)
    obtain ⟨rfl, hd'⟩ := hsim.agrees (mmap file) d call result img hd hcall ⟨fuel, hfuse⟩
    obtain ⟨rfl, rfl⟩ := Prod.mk.inj (Res.ok.inj hr)
    refine ⟨rfl, h.put (shows_msync hlen G hsize hd') ?_⟩
    rintro - - length' options' d' hdriver
    rw [hf] at hdriver
    obtain ⟨rfl, rfl, -⟩ := HostFile.image.inj (Option.some.inj hdriver)
    exact ⟨_, _, rfl⟩

/-- The host is a session, as long as the contract is kept. -/
theorem host_simulates : Simulation host Session.run Session.Ok InSession where
  returns s t c h hok := by
    cases c with
    | tfsfmt args =>
      obtain ⟨files, hrun, -⟩ := h.tfsfmt hok
      refine ⟨.status (t.line (commandOf args)).1, { s with files }, 0, ?_⟩
      rw [hostCall, hrun]
      rfl
    | driver =>
      obtain ⟨s', hrun, -⟩ := h.driver hok
      exact ⟨_, s', 0, hrun 0⟩
    | fuse call => exact (h.fuse hok).1
  agrees s t c r s' h hok hr := by
    cases c with
    | tfsfmt args =>
      obtain ⟨files, hrun, h'⟩ := h.tfsfmt hok
      obtain ⟨fuel, hr⟩ := hr
      rw [hostCall, hrun] at hr
      obtain ⟨rfl, rfl⟩ := Prod.mk.inj (Res.ok.inj hr)
      exact ⟨rfl, h'⟩
    | driver =>
      obtain ⟨s₁, hrun, h'⟩ := h.driver hok
      obtain ⟨fuel, hr⟩ := hr
      rw [hrun] at hr
      obtain ⟨rfl, rfl⟩ := Prod.mk.inj (Res.ok.inj hr)
      exact ⟨rfl, h'⟩
    | fuse call => exact (h.fuse hok).2 r s' hr

/-- A session begins with files that are not images yet. -/
def Session.start (files : Files) : Session where
  files path := (files path).map .raw
  mounted := false

theorem inSession_start (files : Files) : InSession ⟨files, none⟩ (Session.start files) := by
  refine ⟨fun path => ?_, nofun⟩
  show Shows (files path) ((files path).map .raw)
  cases files path with
  | none => trivial
  | some file => exact rfl

/-- Command lines of `tfsfmt`, starts of the driver and the calls that it serves, in any order on any files of the
host, return, and what they return is what the session says that has a directory for each image. -/
theorem host_refines_session (files : Files) (l : List SessionCall)
    (hl : Keeps Session.Ok Session.run (Session.start files) l) (rs : List SessionResult) :
    (∃ s', host.Run ⟨files, none⟩ l rs s') ↔ rs = outputs Session.run (Session.start files) l :=
  host_simulates.run_iff (inSession_start files) hl

/-- A host with room for a small image, and a file. -/
def smallHost (path : CStr) : Option (List UInt8) :=
  if path = driverImage then some (List.replicate 2560 7)
  else if path = CStr.ofString "notes" then some [1, 2, 3]
  else none

/-- A command line of `tfsfmt`. -/
def lineOf (args : List String) : SessionCall := .tfsfmt (args.map CStr.ofString)

/-- An image that does not exist, one that is formatted by options in any order, command lines that are refused, and a
file that `write-files` stores for the driver, which serves calls while another one is stored. -/
theorem host_refines_session_first : ∃ s', host.Run ⟨smallHost, none⟩
    [lineOf ["write-files", "other.img", "-file", "notes"],
      lineOf ["format", "-sector-size", "64", "driver.img", "-fat-sectors", "1", "-tm-sectors", "1", "-fm-sectors", "1",
        "-tf-sectors", "1", "-sector-count", "40"],
      lineOf ["format", "-sector-size", "64"], lineOf ["format", "driver.img", "-sector-size", "64x"],
      lineOf ["write-files", "driver.img", "-tag", "t", "-file", "notes:b"], .driver,
      .fuse (.readdir rootName), .fuse (.write storedName [9] 1), lineOf ["write-files", "-file", "notes", "driver.img"],
      .fuse (.read (CStr.ofString "notes") 3 0), .fuse (.read storedName 3 0)]
    [.status 1, .status 0, .status 0, .status 0, .status 0, .mounted true,
      .fuse (.listing [(some storedName, { ino := 1, size := 3, mode := fileMode })]), .fuse (.status 1), .status 0,
      .fuse (.bytes 3 [1, 2, 3]), .fuse (.bytes 3 [1, 9, 3])] s' :=
  (host_refines_session smallHost _ (by decide +kernel) _).mpr (by decide +kernel)

end OSForReal.Proof.TagFS
