import OSForReal.Proof.TagFS.Format

/-!
# Which options give a usable image

`format_image` takes its options as they are. The image is usable
(`UsableImage`) exactly when the `FS_Metadata` fits in a sector and what it
maps has room for the sections and for one data sector for each FAT entry
(`usableImage_iff`): then nothing wraps, and otherwise a section or a data
sector ends beyond what is mapped.
-/

namespace OSForReal.Proof.TagFS

open Framework
open Framework.Bytes
open OSForReal.TagFS

variable {fs : FSMetadata} {options : FormatOptions} {size n s b : Nat}

/-- In an image of `size` bytes, the sections lie in order without overlap, and
so do all the data sectors that a FAT entry stands for. -/
structure UsableImage (fs : FSMetadata) (size : Nat) : Prop where
  boot : 36 ≤ getFileMetadata fs
  files : getFileMetadata fs + fs.fileMetaSectorCount * fs.sectorSize ≤ getTagMetadata fs
  tags : getTagMetadata fs + fs.tagMetaSectorCount * fs.sectorSize ≤ getTagFileArray fs
  links : getTagFileArray fs + fs.tagFileSectorCount * fs.sectorSize ≤ getFat fs
  fats : getFat fs + fs.fatSectorCount * fs.sectorSize ≤ getData fs
  inside : getData fs ≤ size
  sectors : ∀ i < fatCount fs, sectorAt fs i + fs.sectorSize ≤ size

/-- Options that are positive as `int`s, and whose image is mapped. -/
structure Formats (options : FormatOptions) : Prop where
  sectorCount : 0 < options.sectorCount ∧ options.sectorCount < 2 ^ 31
  sectorSize : 0 < options.sectorSize ∧ options.sectorSize < 2 ^ 31
  files : 0 < options.fileMetaSectorCount ∧ options.fileMetaSectorCount < 2 ^ 31
  tags : 0 < options.tagMetaSectorCount ∧ options.tagMetaSectorCount < 2 ^ 31
  links : 0 < options.tagFileSectorCount ∧ options.tagFileSectorCount < 2 ^ 31
  fats : 0 < options.fatSectorCount ∧ options.fatSectorCount < 2 ^ 31
  mapped : 0 < mappedSize options ∧ mappedSize options < 2 ^ 31

/-- The sectors before the data section. -/
def metaSectors (options : FormatOptions) : Nat :=
  1 + options.fileMetaSectorCount + options.tagMetaSectorCount + options.tagFileSectorCount + options.fatSectorCount

/-- The `FS_Metadata` fits in the first sector, and the sections and a data
sector for each FAT entry fit in what is mapped. -/
structure Fits (options : FormatOptions) : Prop where
  boot : 36 ≤ options.sectorSize
  room : (metaSectors options + options.fatSectorCount * options.sectorSize / 2) * options.sectorSize ≤ mappedSize options

instance : Decidable (Fits options) :=
  decidable_of_iff (36 ≤ options.sectorSize ∧
    (metaSectors options + options.fatSectorCount * options.sectorSize / 2) * options.sectorSize ≤ mappedSize options)
    ⟨fun h => ⟨h.1, h.2⟩, fun h => ⟨h.1, h.2⟩⟩

/-- Sections in order do not wrap: the data section begins where the sectors before it end. -/
theorem UsableImage.getData_eq (h : UsableImage (headerOf options) size) :
    getData (headerOf options) = metaSectors options * options.sectorSize := by
  have hfiles := h.files; have htags := h.tags; have hlinks := h.links; have hfats := h.fats
  simp only [getFileMetadata, getTagMetadata, getTagFileArray, getFat, getData, headerOf, Nat.add_mul, Nat.one_mul]
    at hfiles htags hlinks hfats
  simp only [getData, headerOf, metaSectors, Nat.add_mul, Nat.one_mul]
  omega

/-- Sectors of `s` bytes from `b` on, `n` of them: where each of them, its offset
taken modulo `2 ^ 32`, ends below `2 ^ 31`, no offset wraps. -/
theorem offsets_fit (hs : 0 < s) (hn : 0 < n) (hsize : size < 2 ^ 31)
    (h : ∀ i < n, b + s * i % 2 ^ 32 + s ≤ size) : b + s * n ≤ size := by
  have hlast : s * (n - 1) + s = s * n := by
    rw [← Nat.mul_succ, Nat.succ_eq_add_one, Nat.sub_add_cancel hn]
  rcases Nat.lt_or_ge (s * (n - 1)) (2 ^ 32) with hlt | hge
  · have hend := h (n - 1) (by omega)
    rw [Nat.mod_eq_of_lt hlt] at hend
    omega
  · -- The last offset that does not wrap is within a sector of the end of the address space.
    have hdiv : s * ((2 ^ 32 - 1) / s) ≤ 2 ^ 32 - 1 := Nat.mul_div_le _ _
    have hnext : 2 ^ 32 - 1 < s * ((2 ^ 32 - 1) / s) + s := Nat.lt_mul_div_succ (2 ^ 32 - 1) hs
    have hi : (2 ^ 32 - 1) / s < n := Nat.div_lt_of_lt_mul (by omega)
    have hend := h _ hi
    rw [Nat.mod_eq_of_lt (by omega)] at hend
    omega

theorem fatCount_headerOf (h : options.fatSectorCount * options.sectorSize < 2 ^ 32) :
    fatCount (headerOf options) = options.fatSectorCount * options.sectorSize / 2 := by
  simp only [fatCount, headerOf]
  rw [Nat.mod_eq_of_lt h]

/-- The data section of a usable image, and the sectors in it, are within what is mapped. -/
theorem UsableImage.fits (hU : UsableImage (headerOf options) (mappedSize options)) (h : Formats options) : Fits options := by
  have hmapped := h.mapped.2
  have hs := h.sectorSize.1
  have hfat : options.sectorSize ≤ options.fatSectorCount * options.sectorSize := Nat.le_mul_of_pos_left _ h.fats.1
  have hboot : 36 ≤ options.sectorSize := hU.boot
  have hdata := hU.getData_eq
  have hinside := hU.inside
  have hmeta : options.fatSectorCount * options.sectorSize ≤ metaSectors options * options.sectorSize :=
    Nat.mul_le_mul_right _ (Nat.le_add_left _ _)
  have hcount := @fatCount_headerOf options (by omega)
  refine ⟨hboot, ?_⟩
  have hsectors : ∀ i < options.fatSectorCount * options.sectorSize / 2,
      metaSectors options * options.sectorSize + options.sectorSize * i % 2 ^ 32 + options.sectorSize ≤
        mappedSize options := by
    intro i hi
    rw [← hdata]
    exact hU.sectors i (hcount ▸ hi)
  rw [Nat.add_mul, Nat.mul_comm (options.fatSectorCount * options.sectorSize / 2)]
  exact offsets_fit hs (by omega) hmapped hsectors

/-- Where all of it has room, nothing wraps. -/
theorem Fits.usableImage (hF : Fits options) (h : Formats options) : UsableImage (headerOf options) (mappedSize options) := by
  have hmapped := h.mapped.2
  have hs := h.sectorSize.1
  have hroom := hF.room
  rw [Nat.add_mul] at hroom
  have hmeta : metaSectors options * options.sectorSize = options.sectorSize +
      options.fileMetaSectorCount * options.sectorSize + options.tagMetaSectorCount * options.sectorSize +
      options.tagFileSectorCount * options.sectorSize + options.fatSectorCount * options.sectorSize := by
    simp only [metaSectors, Nat.add_mul, Nat.one_mul]
  have hcount := @fatCount_headerOf options (by omega)
  have hdata : getData (headerOf options) = metaSectors options * options.sectorSize :=
    Nat.mod_eq_of_lt (by show metaSectors options * options.sectorSize < 2 ^ 32; omega)
  refine ⟨hF.boot, ?_, ?_, ?_, ?_, by omega, fun i hi => ?_⟩
  · simp only [getFileMetadata, getTagMetadata, headerOf, Nat.add_mul, Nat.one_mul]
    omega
  · simp only [getTagMetadata, getTagFileArray, headerOf, Nat.add_mul, Nat.one_mul]
    omega
  · simp only [getTagFileArray, getFat, headerOf, Nat.add_mul, Nat.one_mul]
    omega
  · simp only [getFat, getData, headerOf, Nat.add_mul, Nat.one_mul]
    omega
  · have hlast : (i + 1) * options.sectorSize ≤ options.fatSectorCount * options.sectorSize / 2 * options.sectorSize :=
      Nat.mul_le_mul_right _ (hcount ▸ hi)
    have hcomm : options.sectorSize * i = i * options.sectorSize := Nat.mul_comm _ _
    rw [Nat.add_mul, Nat.one_mul] at hlast
    show getData (headerOf options) + options.sectorSize * i % 2 ^ 32 + options.sectorSize ≤ mappedSize options
    rw [hdata]
    omega

/-- The options that give a usable image. -/
theorem usableImage_iff (options : FormatOptions) (img : Bytes) (h : Formats options) :
    UsableImage (fsMeta (formatImage options img)) (mappedSize options) ↔ Fits options := by
  have hheader : fsMeta (formatImage options img) = headerOf options :=
    fsMeta_formatImage_of_lt (by have := h.sectorCount; omega) (by have := h.sectorSize; omega) (by have := h.files; omega)
      (by have := h.tags; omega) (by have := h.links; omega) (by have := h.fats; omega)
  rw [hheader]
  exact ⟨fun hU => hU.fits h, fun hF => hF.usableImage h⟩

/-- The default options have room for all of it, and give a usable image. -/
theorem usableImage_iff_default : Fits {} ∧ UsableImage (fsMeta (formatImage {} fun _ => 0)) (mappedSize {}) := by
  have hfits : Fits {} := by constructor <;> decide
  exact ⟨hfits, (usableImage_iff {} (fun _ => 0) (by constructor <;> decide)).mpr hfits⟩

/-- Options with 1536 FAT entries and room for 1079 data sectors. -/
def customOptions : FormatOptions where
  sectorCount := 1111
  sectorSize := 1024
  fileMetaSectorCount := 20
  tagMetaSectorCount := 5
  tagFileSectorCount := 3
  fatSectorCount := 3

/-- An image can have FAT entries without a data sector. -/
theorem usableImage_fails : ¬ ∀ options, Formats options →
    UsableImage (fsMeta (formatImage options fun _ => 0)) (mappedSize options) := by
  intro hall
  have hU := hall customOptions (by constructor <;> decide)
  rw [fsMeta_formatImage_of_lt (by decide) (by decide) (by decide) (by decide) (by decide) (by decide)] at hU
  exact absurd (hU.sectors 1079 (by decide)) (by decide)

end OSForReal.Proof.TagFS
