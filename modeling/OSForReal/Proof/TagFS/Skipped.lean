import OSForReal.Proof.TagFS.Indices

/-!
# The files that `write_files` skips

Why a file spec is skipped (`Skipped`), and the specs of a command without
those that are, each judged on the image that the ones before it leave
(`keptSpecs`). Where the sections of an image begin behind its header, the
command ends, and a skipped spec leaves the image, so that the command does the
same without it (`writeFiles_skipsCleanly`). Where a file entry lies on the
header, storing a file may enlarge the table, and the search for an entry for
the next file does not end (`writeFiles_skipsCleanly_fails`).
-/

namespace OSForReal.Proof.TagFS

open Framework
open Framework.Bytes
open OSForReal.TagFS

variable {fs : FSMetadata} {img : Bytes} {src : List UInt8} {dst spec : CStr} {tags specs : List CStr}
  {files : CStr → Option (List UInt8)} {fuel : Nat}

/-- Why the contents `src` of the source file, if it is found, are not stored under the name `dst`. The tables
are at the pointers of the header `fs`, and as long as the header says that the image has now. -/
inductive SkipReason (fs : FSMetadata) (img : Bytes) (src : Option (List UInt8)) (dst : CStr) : Prop
  | notFound (h : src = none)
  | tooLarge {bytes : List UInt8} (hsrc : src = some bytes) (h : 0xffffffff < bytes.length)
  | nameTooLong (h : 24 ≤ dst.strlen)
  | noFileEntry (h : ∀ i < countFileMetaEntries (fsMeta img), fileMetadataEntryIsFree img (fileMetaAt fs i) = false)
  | noFatEntry (h : ∀ x < fatCount (fsMeta img), fat fs img x ≠ 0)

/-- The file spec is skipped. -/
def Skipped (fs : FSMetadata) (files : CStr → Option (List UInt8)) (img : Bytes) (spec : CStr) : Prop :=
  ∃ path dst, parseFileSpec spec = some (path, dst) ∧ SkipReason fs img (files path) dst

/-- What the loop over the file specs finds when it stores a file. -/
def Accepted16 (fs : FSMetadata) (img : Bytes) (src : List UInt8) (dst : CStr) : Prop :=
  isTagfsFile dst src.length = true ∧ freeFileSearch fs img < countFileMetaEntries (fsMeta img) ∧
    freeFatFrom fs (fatCount (fsMeta img)) img 0 < fatCount (fsMeta img)

instance : Decidable (Accepted16 fs img src dst) := inferInstanceAs (Decidable (_ ∧ _))

/-- `Skipped`, as the loop over the file specs finds out. -/
def isSkipped (fs : FSMetadata) (files : CStr → Option (List UInt8)) (img : Bytes) (spec : CStr) : Bool :=
  match parseFileSpec spec with
  | none => false
  | some (path, dst) =>
    match files path with
    | none => true
    | some src => !decide (Accepted16 fs img src dst)

/-- A file that is found is skipped when it is not accepted. -/
theorem not_accepted16_iff : ¬ Accepted16 fs img src dst ↔ SkipReason fs img (some src) dst := by
  rw [Accepted16, isTagfsFile_iff, freeFileSearch, freeFatFrom, scan_lt_iff, scan_lt_iff]
  constructor
  · intro h
    by_cases hsize : 0xffffffff < src.length
    · exact .tooLarge rfl hsize
    by_cases hname : 24 ≤ dst.strlen
    · exact .nameTooLong hname
    by_cases hentry : ∃ i < countFileMetaEntries (fsMeta img), fileMetadataEntryIsFree img (fileMetaAt fs i) = true
    · refine .noFatEntry fun x hx h0 => h ⟨⟨by omega, by omega⟩, hentry, x, hx, by simp [h0]⟩
    · refine .noFileEntry fun i hi => ?_
      by_contra hfree
      exact hentry ⟨i, hi, by simpa using hfree⟩
  · rintro hskip ⟨⟨hsize, hname⟩, ⟨i, hi, hfree⟩, x, hx, h0⟩
    cases hskip with
    | notFound h => cases h
    | tooLarge hsrc h =>
      obtain rfl := Option.some.inj hsrc
      omega
    | nameTooLong h => omega
    | noFileEntry h =>
      rw [h i hi] at hfree
      cases hfree
    | noFatEntry h => exact h x hx (by simpa using h0)

/-- With the header `fs`, that is the condition of the loop that reads the header once. -/
theorem accepted16_iff (h : fsMeta img = fs) : Accepted16 fs img src dst ↔ Accepted fs img src dst := by
  rw [Accepted16, freeFileSearch, h]
  exact Iff.rfl

theorem isSkipped_iff : isSkipped fs files img spec = true ↔ Skipped fs files img spec := by
  unfold isSkipped Skipped
  cases parseFileSpec spec with
  | none => simp
  | some parsed =>
    obtain ⟨path, dst⟩ := parsed
    dsimp only
    cases hsrc : files path with
    | none => simpa [hsrc] using .notFound rfl
    | some src => simp [hsrc, not_accepted16_iff]

instance : Decidable (Skipped fs files img spec) := decidable_of_iff _ isSkipped_iff

/-- The file specs that are not skipped. -/
def keptSpecs (fuel : Nat) (fs : FSMetadata) (files : CStr → Option (List UInt8)) (tags : List CStr) :
    List CStr → Bytes → List CStr
  | [], _ => []
  | spec :: specs, img =>
    if Skipped fs files img spec then keptSpecs fuel fs files tags specs img
    else
      match (writeFileSpec16 fuel fs files tags img spec).val with
      | .ok img => spec :: keptSpecs fuel fs files tags specs img
      -- The program has failed.
      | _ => spec :: specs

/-- The command without the file specs that it skips. -/
def withoutSkipped (fuel : Nat) (options : WriteFilesOptions) (img : Bytes) : WriteFilesOptions where
  files := options.files
  fileSpecs :=
    keptSpecs fuel (fsMeta img) options.files (filterValidTagNames options.tags) options.fileSpecs img
  tags := options.tags

/-- The command ends, skipping a file spec leaves an image of its header as it is,
and without the skipped specs the command does the same. -/
structure SkipsCleanly (fuel : Nat) (options : WriteFilesOptions) (img : Bytes) : Prop where
  ends : (writeFiles16 fuel options img).val ≠ .timeout
  unchanged : ∀ img' spec, fsMeta img' = fsMeta img → Skipped (fsMeta img) options.files img' spec →
    (writeFileSpec16 fuel (fsMeta img) options.files (filterValidTagNames options.tags) img' spec).val = .ok img'
  same : (writeFiles16 fuel (withoutSkipped fuel options img) img).val = (writeFiles16 fuel options img).val

/-- A skipped file spec leaves the image. -/
theorem writeFileSpec_skipped (tags : List CStr) (hfs : fsMeta img = fs) (h : Skipped fs files img spec) :
    writeFileSpec fs files tags img spec = .ok img := by
  obtain ⟨path, dst, hspec, hreason⟩ := h
  rw [writeFileSpec, hspec]
  dsimp only
  cases hsrc : files path with
  | none => rfl
  | some src =>
    rw [hsrc] at hreason
    exact writeFile_skipped tags fun hacc => not_accepted16_iff.mpr hreason ((accepted16_iff hfs).mpr hacc)

section

variable (H : HeaderApart fs) (hfiles : countFileMetaEntries fs ≤ 65535) (htags : tagMetaEntryCount fs ≤ 65535)
  (hfuel : 2 ^ 16 ≤ fuel)

include H hfiles htags hfuel

theorem writeFileSpec16_skipped (hfs : fsMeta img = fs) (h : Skipped fs files img spec) :
    (writeFileSpec16 fuel fs files tags img spec).val = .ok img := by
  rw [(writeFileSpec16_follows H htags hfiles hfuel hfs).val]
  exact writeFileSpec_skipped tags hfs h

/-- Without the file specs that are skipped, the loop does the same. -/
theorem writeFileSpecs16_keptSpecs (hfs : fsMeta img = fs) :
    (writeFileSpecs16 fuel fs files tags (keptSpecs fuel fs files tags specs img) img).val =
      (writeFileSpecs16 fuel fs files tags specs img).val := by
  induction specs generalizing img with
  | nil => rfl
  | cons spec specs ih =>
    rw [keptSpecs]
    split
    · rename_i hspec
      rw [writeFileSpecs16, Traced.val_bind, Traced.val_after, writeFileSpec16_skipped H hfiles htags hfuel hfs hspec,
        Res.ok_bind]
      exact ih hfs
    · have hfollows := @writeFileSpec16_follows fs img spec tags files fuel H htags hfiles hfuel hfs
      split
      · rename_i img' hr
        rw [writeFileSpecs16, writeFileSpecs16, Traced.val_bind, Traced.val_bind, Traced.val_after, Traced.val_after, hr,
          Res.ok_bind, Res.ok_bind]
        exact ih (hfollows.header img' (hfollows.val ▸ hr))
      · rfl

end

/-- The file specs that `write_files` skips leave the image as it is, where its sections do not reach its header. -/
theorem writeFiles_skipsCleanly (options : WriteFilesOptions) (img : Bytes) (hfuel : 2 ^ 16 ≤ fuel)
    (H : HeaderApart (fsMeta img)) (hfiles : countFileMetaEntries (fsMeta img) < 65536)
    (htags : tagMetaEntryCount (fsMeta img) < 65536) : SkipsCleanly fuel options img := by
  have hfiles' : countFileMetaEntries (fsMeta img) ≤ 65535 := by omega
  have htags' : tagMetaEntryCount (fsMeta img) ≤ 65535 := by omega
  exact ⟨writeFiles16_ne_timeout H hfiles' htags' hfuel,
    fun img' spec hfs hspec => writeFileSpec16_skipped H hfiles' htags' hfuel hfs hspec,
    writeFileSpecs16_keptSpecs H hfiles' htags' hfuel rfl⟩

/-- The files `b` of three bytes and `a`, of which the first is not found. -/
def missingB : WriteFilesOptions where
  files path := if path.chars = [0x61] then some [1, 2, 3] else none
  fileSpecs := [nameB, nameA]
  tags := []

/-- It holds of a freshly formatted image, and a command of which one file is not found. -/
theorem writeFiles_skipsCleanly_first :
    HeaderApart (fsMeta (formatImage {} fun _ => 0)) ∧ countFileMetaEntries (fsMeta (formatImage {} fun _ => 0)) < 65536 ∧
      tagMetaEntryCount (fsMeta (formatImage {} fun _ => 0)) < 65536 ∧
      SkipsCleanly (2 ^ 16) missingB (formatImage {} fun _ => 0) := by
  have hheader : fsMeta (formatImage {} fun _ => 0) = headerOf {} := fsMeta_formatImage geometry_default
  have H : HeaderApart (fsMeta (formatImage {} fun _ => 0)) := by
    rw [hheader]
    exact geometry_default.layout.headerApart
  have hfiles : countFileMetaEntries (fsMeta (formatImage {} fun _ => 0)) < 65536 := by
    rw [hheader]
    decide
  have htags : tagMetaEntryCount (fsMeta (formatImage {} fun _ => 0)) < 65536 := by
    rw [hheader]
    decide
  exact ⟨H, hfiles, htags, writeFiles_skipsCleanly missingB _ (Nat.le_refl _) H hfiles htags⟩

/-! ## A file entry on the header -/

/-- The options of an image with 64 file entries, of which the first lies on the bytes 8 to 39. -/
def narrowOptions : FormatOptions where
  sectorCount := 524288
  sectorSize := 8
  fileMetaSectorCount := 256
  tagMetaSectorCount := 4
  tagFileSectorCount := 1
  fatSectorCount := 1

/-- Such an image. One FAT entry is free, and the first file entry: the byte 16 of the header is 0. -/
def narrowImage : Bytes := fun a =>
  if a < 32 then formatImage narrowOptions (fun _ => 0) a else if a = 2096 ∨ a = 2097 then 0 else 0xff

/-- The name `zzzz`. -/
def nameZ : CStr := ⟨[0x7a, 0x7a, 0x7a, 0x7a], by decide⟩

/-- Two files of three bytes, `zzzz` and `c`. -/
def zAndC : WriteFilesOptions where
  files := fun _ => some [1, 2, 3]
  fileSpecs := [⟨[0x61, 0x3a, 0x7a, 0x7a, 0x7a, 0x7a], by decide⟩, ⟨[0x62, 0x3a, 0x63], by decide⟩]
  tags := []

/-- The image with `zzzz`: its entry has changed the sector size to 3, and the sectors of the table to 0x7a7a7a7a. -/
def narrowStored : Bytes :=
  setName (setFileSize (setFat (headerOf narrowOptions) (copy (setFirstDataSector narrowImage 8 0) 2104 3
    fun k => [1, 2, 3].getD k 0) 0 0xffff) 8 3) 8 nameZ

theorem fsMeta_narrowImage : fsMeta narrowImage = headerOf narrowOptions := by decide +kernel

/-- No entry of the image is free, however long the table is. -/
theorem narrowStored_used (i : Nat) :
    fileMetadataEntryIsFree narrowStored (fileMetaAt (headerOf narrowOptions) i) = false := by
  have hname : narrowStored (16 + 32 * i) ≠ 0 := by
    cases i with
    | zero => decide +kernel
    | succ i =>
      have hfat : fatAt (headerOf narrowOptions) 0 = 2096 := by decide
      unfold narrowStored setName strcpy setFileSize setU32 nameAt
      have hlen : nameZ.strlen = 4 := rfl
      rw [copy_out (.inr (show 8 + 8 + (nameZ.strlen + 1) ≤ 16 + 32 * (i + 1) by omega)), copy_out (by omega)]
      unfold setFat setU16 setFirstDataSector setU32
      rw [hfat]
      by_cases h65 : i = 64
      · subst h65
        decide
      · rw [copy_out (by omega), copy_out (by omega), copy_out (by omega), narrowImage, if_neg (by omega), if_neg (by omega)]
        decide
  have hat : nameAt (fileMetaAt (headerOf narrowOptions) i) = 16 + 32 * i := by
    show 8 + 32 * i + 8 = 16 + 32 * i
    omega
  rw [fileMetadataEntryIsFree, hat]
  simpa using hname

/-- The search for an entry for the second file does not end. -/
theorem findFreeFileMeta16_narrowStored (fuel : Nat) :
    findFreeFileMeta16 fuel (headerOf narrowOptions) narrowStored = .timeout := by
  have hcount : 2 ^ 16 ≤ countFileMetaEntries (fsMeta narrowStored) := by decide +kernel
  refine wrapScan_diverges (by decide) (Nat.le_trans hcount (Nat.le_of_not_lt fun hlt => ?_)) fuel
  obtain ⟨i, -, hfree⟩ := scan_lt_iff.mp hlt
  rw [narrowStored_used] at hfree
  cases hfree

/-- The first file is stored. -/
theorem writeFile16_narrowImage (fuel : Nat) :
    (writeFile16 (fuel + 1) (headerOf narrowOptions) [] [1, 2, 3] nameZ narrowImage).val = .ok narrowStored := by
  have hsearch : freeFileSearch (headerOf narrowOptions) narrowImage = 0 := by decide +kernel
  have hfound : findFreeFileMeta16 (fuel + 1) (headerOf narrowOptions) narrowImage = .ok 0 := by
    have hend := Res.loop_leave (wrapStep_end (w := 2 ^ 16)
      (p := fun i => fileMetadataEntryIsFree narrowImage (fileMetaAt (headerOf narrowOptions) i))
      (n := countFileMetaEntries (fsMeta narrowImage))) fuel
    rw [show scan _ _ 0 = 0 from hsearch] at hend
    exact hend
  have hfat : freeFatFrom (headerOf narrowOptions) 4 narrowImage 0 = 0 := by decide +kernel
  have hsize : (fsMeta (setFirstDataSector narrowImage 8 0)).sectorSize = 8 := by decide +kernel
  have hat : dataAt (headerOf narrowOptions) (setFirstDataSector narrowImage 8 0) 0 = 2104 := by decide +kernel
  have hentry : fileMetaAt (headerOf narrowOptions) 1 - sizeofFileMetadata = 8 := by decide
  have hfiles : countFileMetaEntries (headerOf narrowOptions) = 64 := by decide
  have hfats : fatCount (headerOf narrowOptions) = 4 := by decide
  have hcopied : copyLoop16 (headerOf narrowOptions) 4 [1, 2, 3] 4 (setFirstDataSector narrowImage 8 0) 0 0 =
      pure (.ok (setFat (headerOf narrowOptions) (copy (setFirstDataSector narrowImage 8 0) 2104 3
        fun k => [1, 2, 3].getD k 0) 0 0xffff, 3)) := by
    simp [copyLoop16, hsize, hat]
  rw [writeFile16, if_neg (by decide), Traced.val_bind, Traced.val_record, hfound]
  simp [Traced.after, fsMeta_narrowImage, hfiles, hfats, hfat, hentry, hcopied, linkTags16, narrowStored]

/-- Storing the first file makes the search for the second one run on. -/
theorem writeFiles_skipsCleanly_fails : ¬ ∀ options img, countFileMetaEntries (fsMeta img) < 65536 →
    tagMetaEntryCount (fsMeta img) < 65536 → ∃ fuel, SkipsCleanly fuel options img := by
  intro hall
  obtain ⟨fuel, hskips⟩ := hall zAndC narrowImage (by rw [fsMeta_narrowImage]; decide) (by rw [fsMeta_narrowImage]; decide)
  refine hskips.ends ?_
  have hfirst : parseFileSpec ⟨[0x61, 0x3a, 0x7a, 0x7a, 0x7a, 0x7a], by decide⟩ = some (⟨[0x61], by decide⟩, nameZ) := by decide
  have hsecond : parseFileSpec ⟨[0x62, 0x3a, 0x63], by decide⟩ = some (⟨[0x62], by decide⟩, ⟨[0x63], by decide⟩) := by decide
  rw [writeFiles16, fsMeta_narrowImage]
  simp only [zAndC, filterValidTagNames, List.filter_nil, writeFileSpecs16, writeFileSpec16, hfirst, hsecond,
    Traced.val_bind, Traced.val_after]
  cases fuel with
  | zero => rfl
  | succ fuel =>
    rw [writeFile16_narrowImage, Res.ok_bind, writeFile16]
    rw [if_neg (by decide), Traced.val_bind, Traced.val_record, Traced.val_after, findFreeFileMeta16_narrowStored]
    rfl

end OSForReal.Proof.TagFS
