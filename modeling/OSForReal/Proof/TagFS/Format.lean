import OSForReal.Proof.TagFS.Layout
import OSForReal.TagFS.Tfsfmt

/-!
# A formatted image

What `format_image` writes: its options in the header, and zeroes after it. So
no file entry is in use, and no FAT entry is taken.
-/

namespace OSForReal.Proof.TagFS

open Framework
open Framework.Bytes
open OSForReal.TagFS

/-- The header of an image formatted with the options. -/
def headerOf (options : FormatOptions) : FSMetadata where
  sectorCount := options.sectorCount
  sectorSize := options.sectorSize
  fileMetaSectorCount := options.fileMetaSectorCount
  tagMetaSectorCount := options.tagMetaSectorCount
  tagFileSectorCount := options.tagFileSectorCount
  fatSectorCount := options.fatSectorCount

/-- The default options give an image geometry. -/
theorem geometry_default : Geometry (headerOf {}) := by
  constructor <;> decide

variable {options : FormatOptions} {img : Bytes} {a i : Nat}

/-- The options are read back from the header. -/
theorem fsMeta_formatImage_of_lt (hcount : options.sectorCount < 2 ^ 32) (hsize : options.sectorSize < 2 ^ 32)
    (hfiles : options.fileMetaSectorCount < 2 ^ 32) (htags : options.tagMetaSectorCount < 2 ^ 32)
    (hlinks : options.tagFileSectorCount < 2 ^ 32) (hfats : options.fatSectorCount < 2 ^ 32) :
    fsMeta (formatImage options img) = headerOf options := by
  simp only [fsMeta, formatImage, setU32]
  refine congr (congr (congr (congr (congr (congrArg _ ?_) ?_) ?_) ?_) ?_) ?_
  · rw [u32_copy_out (by omega), u32_copy_out (by omega), u32_copy_out (by omega), u32_copy_out (by omega),
      u32_copy_out (by omega)]
    exact u32_setU32 hcount
  · rw [u32_copy_out (by omega), u32_copy_out (by omega), u32_copy_out (by omega), u32_copy_out (by omega)]
    exact u32_setU32 hsize
  · rw [u32_copy_out (by omega), u32_copy_out (by omega), u32_copy_out (by omega)]
    exact u32_setU32 hfiles
  · rw [u32_copy_out (by omega), u32_copy_out (by omega)]
    exact u32_setU32 htags
  · rw [u32_copy_out (by omega)]
    exact u32_setU32 hlinks
  · exact u32_setU32 hfats

/-- The header of a formatted image. -/
theorem fsMeta_formatImage (G : Geometry (headerOf options)) : fsMeta (formatImage options img) = headerOf options := by
  have hs := G.sectorSize; have htotal := G.total; have hdata := G.data
  have hsectors : options.sectorCount ≤ options.sectorCount * options.sectorSize :=
    Nat.le_mul_of_pos_right _ (by simp only [headerOf] at hs; omega)
  have hsize : options.sectorSize ≤ options.sectorCount * options.sectorSize :=
    Nat.le_mul_of_pos_left _ (by simp only [headerOf] at hdata; omega)
  simp only [headerOf] at hs htotal hdata
  exact fsMeta_formatImage_of_lt (by omega) (by omega) (by omega) (by omega) (by omega) (by omega)

/-- After the header, a formatted image is zero. -/
theorem formatImage_zero (G : Geometry (headerOf options)) (h : 32 ≤ a)
    (ha : a < options.sectorCount * options.sectorSize) : formatImage options img a = 0 := by
  have htotal : options.sectorCount * options.sectorSize < 2 ^ 31 := G.total
  have hmapped : mappedSize options = options.sectorCount * options.sectorSize := Nat.mod_eq_of_lt (by omega)
  simp only [formatImage, hmapped]
  rw [setU32_out (by omega), setU32_out (by omega), setU32_out (by omega), setU32_out (by omega),
    setU32_out (by omega), setU32_out (by omega), setU32_out (by omega), copy_in (by omega) (by omega)]

theorem getData_le_total {fs : FSMetadata} (G : Geometry fs) : getData fs ≤ fs.sectorCount * fs.sectorSize := by
  have hle : (1 + fs.fileMetaSectorCount + fs.tagMetaSectorCount + fs.tagFileSectorCount + fs.fatSectorCount) *
      fs.sectorSize ≤ fs.sectorCount * fs.sectorSize := Nat.mul_le_mul_right _ (by have := G.data; omega)
  exact Nat.le_trans (Nat.mod_le _ _) hle

/-- No file entry of a formatted image is in use. -/
theorem formatImage_isFree (G : Geometry (headerOf options)) (hi : i < countFileMetaEntries (headerOf options)) :
    fileMetadataEntryIsFree (formatImage options img) (fileMetaAt (headerOf options) i) = true := by
  have L := G.layout
  have hs := L.sectorSize; have hfiles := L.files; have htags := L.tags; have hlinks := L.links; have hfats := L.fats
  have htotal := getData_le_total G
  unfold fileMetadataEntryIsFree
  rw [beq_iff_eq]
  refine formatImage_zero G ?_ (Nat.lt_of_lt_of_le ?_ htotal) <;> unfold nameAt <;> rw [Layout.fileMetaAt_eq] <;> omega

/-- The file entries of a formatted image are zero. -/
theorem formatImage_first (G : Geometry (headerOf options)) (hi : i < countFileMetaEntries (headerOf options)) :
    firstDataSector (formatImage options img) (fileMetaAt (headerOf options) i) = 0 := by
  have L := G.layout
  have hs := L.sectorSize; have hfiles := L.files; have htags := L.tags; have hlinks := L.links; have hfats := L.fats
  have htotal : getData (headerOf options) ≤ options.sectorCount * options.sectorSize := getData_le_total G
  unfold firstDataSector u32 u16
  rw [Layout.fileMetaAt_eq, formatImage_zero G (by omega) (by omega), formatImage_zero G (by omega) (by omega),
    formatImage_zero G (by omega) (by omega), formatImage_zero G (by omega) (by omega)]
  decide

/-- No file of a formatted image has a given name. -/
theorem formatImage_fresh (G : Geometry (headerOf options)) (hi : i < countFileMetaEntries (headerOf options))
    {name : CStr} (hname : name.chars ≠ []) :
    strcmpEq (formatImage options img) (nameAt (fileMetaAt (headerOf options) i)) name = false := by
  have hfree : formatImage options img (nameAt (fileMetaAt (headerOf options) i)) = 0 := by
    have hempty := @formatImage_isFree _ img _ G hi
    simpa [fileMetadataEntryIsFree] using hempty
  by_contra hne
  exact hname ((strcmpEq_first (Bool.not_eq_false _ ▸ hne)).mp hfree)

/-- Every FAT entry of a formatted image is free. -/
theorem formatImage_fat (G : Geometry (headerOf options)) (hi : i < fatCount (headerOf options)) :
    fat (headerOf options) (formatImage options img) i = 0 := by
  have L := G.layout
  have hs := L.sectorSize; have hfiles := L.files; have htags := L.tags; have hlinks := L.links; have hfats := L.fats
  have htotal : getData (headerOf options) ≤ options.sectorCount * options.sectorSize := getData_le_total G
  unfold fat u16
  rw [Layout.fatAt_eq, formatImage_zero G (by omega) (by omega), formatImage_zero G (by omega) (by omega)]
  decide

end OSForReal.Proof.TagFS
