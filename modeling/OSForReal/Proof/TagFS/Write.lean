import OSForReal.Proof.TagFS.Read

/-!
# The routes through `tagfs_write`

One theorem for each way that a call can take, and what each of the writes
keeps. A file without data starts in a free sector (`tagfsWrite_fresh`); a write
that fits the sector where it begins touches that sector only
(`tagfsWrite_within`); a longer one puts all the rest in one free sector, over
and over, and never marks it (`tagfsWrite_across`), or stops at the end of the
sector when none is free (`tagfsWrite_full`).
-/

namespace OSForReal.Proof.TagFS

open Framework
open Framework.Bytes
open OSForReal.TagFS

variable {fs : FSMetadata} {img img' buf : Bytes} {name : CStr} {i g x e n size offset : Nat}

/-! ## Free FAT entries -/

theorem findFreeFat_some (h : findFreeFat fs img = some g) : g < fatCount fs ∧ fat fs img g = 0 := by
  simp only [findFreeFat] at h
  split at h
  · rename_i hlt
    obtain rfl := Option.some.inj h
    have hfree : (fat fs img (nextFreeFat fs img 0) == 0) = true := scan_spec (p := fun i => fat fs img i == 0) hlt
    exact ⟨hlt, by simpa using hfree⟩
  · cases h

/-- It is the first. -/
theorem findFreeFat_first (h : findFreeFat fs img = some g) : nextFreeFat fs img 0 = g := by
  simp only [findFreeFat] at h
  split at h
  · exact Option.some.inj h
  · cases h

theorem findFreeFat_none (h : findFreeFat fs img = none) (hx : x < fatCount fs) : fat fs img x ≠ 0 := by
  simp only [findFreeFat] at h
  split at h
  · cases h
  · rename_i hge
    intro h0
    have hmiss := scan_before (p := fun i => fat fs img i == 0) (Nat.zero_le x)
      (Nat.lt_of_lt_of_le hx (Nat.le_of_not_lt hge))
    rw [h0] at hmiss
    cases hmiss

theorem findFreeFat_congr (h : ∀ x, x < fatCount fs → fat fs img' x = fat fs img x) :
    findFreeFat fs img' = findFreeFat fs img := by
  have hscan : nextFreeFat fs img' 0 = nextFreeFat fs img 0 := scan_congr fun x _ hx => by rw [h x hx]
  simp only [findFreeFat, hscan]

/-! ## The entry of a file -/

/-- The parts of an entry that a write changes leave its name. -/
theorem firstDataSector_setFirstDataSector {v : Nat} (h : v < 2 ^ 32) :
    firstDataSector (setFirstDataSector img e v) e = v := u32_setU32 h

theorem fileSize_setFirstDataSector {v : Nat} : fileSize (setFirstDataSector img e v) e = fileSize img e :=
  u32_copy_out (by omega)

theorem fileSize_growFile (h : n < 2 ^ 32) : fileSize (growFile img e n) e = max (fileSize img e) n := by
  unfold growFile
  split
  · rename_i hgt
    have hset : fileSize (setFileSize img e n) e = n := u32_setU32 h
    rw [hset, Nat.max_eq_right (Nat.le_of_lt hgt)]
  · rw [Nat.max_eq_left (by omega)]

theorem firstDataSector_growFile : firstDataSector (growFile img e n) e = firstDataSector img e := by
  unfold growFile
  split
  · exact u32_copy_out (by omega)
  · rfl

theorem changes_growFile (hi : i < countFileMetaEntries fs) :
    ChangesOnly fs [i] [] [] img (growFile img (fileMetaAt fs i) n) := by
  unfold growFile
  split
  · exact changes_setFileSize hi
  · exact ⟨by simpa using hi, by simp, by simp, fun _ _ _ _ _ => rfl⟩

/-- The bytes outside the first eight of an entry are those before. -/
theorem growFile_out {a : Nat} (h : a < e ∨ e + 8 ≤ a) : growFile img e n a = img a := by
  unfold growFile
  split
  · exact setU32_out (by omega)
  · rfl

/-- Where a write begins, once the start of the file is known. -/
theorem writeStart_eq (img : Bytes) (e offset : Nat) : writeStart img e offset = min offset (fileSize img e) := by
  unfold writeStart
  split <;> omega

/-! ## The loop of `tagfs_write` -/

theorem writeRest_none (buf : Bytes) {fuel bufIndex : Nat} (hfree : findFreeFat fs img = none) (h : bufIndex < size)
    (hfuel : 0 < fuel) : writeRest fs buf size fuel img bufIndex = (false, img, bufIndex) := by
  obtain ⟨fuel, rfl⟩ : ∃ k, fuel = k + 1 := ⟨fuel - 1, by omega⟩
  rw [writeRest, if_pos h, hfree]

/-- One chunk of the loop. -/
def chunk (fs : FSMetadata) (size bufIndex : Nat) : Nat :=
  if size ≤ bufIndex + fs.sectorSize then size - bufIndex else fs.sectorSize

theorem chunk_pos {bufIndex : Nat} (hs : 0 < fs.sectorSize) (h : bufIndex < size) : 1 ≤ chunk fs size bufIndex := by
  unfold chunk
  split <;> omega

theorem chunk_le {bufIndex : Nat} (h : bufIndex ≤ size) : bufIndex + chunk fs size bufIndex ≤ size := by
  unfold chunk
  split <;> omega

theorem chunk_le_sectorSize {bufIndex : Nat} : chunk fs size bufIndex ≤ fs.sectorSize := by
  unfold chunk
  split <;> omega

theorem writeRest_step {fuel bufIndex : Nat} (hfree : findFreeFat fs img = some g) (h : bufIndex < size) :
    writeRest fs buf size (fuel + 1) img bufIndex = writeRest fs buf size fuel
      (copy img (sectorAt fs g) (chunk fs size bufIndex) fun k => buf (bufIndex + k))
      (bufIndex + chunk fs size bufIndex) := by
  rw [writeRest, if_pos h, hfree]
  rfl

theorem changes_chunk (img : Bytes) (size bufIndex : Nat) (src : Nat → UInt8) (hg : g < fatCount fs) :
    ChangesOnly fs [] [] [g] img (copy img (sectorAt fs g) (chunk fs size bufIndex) src) := by
  apply changes_sector (o := 0) hg
  rw [Nat.zero_add]
  exact chunk_le_sectorSize

/-- What a write stores in the sector where it begins. -/
theorem changes_fromStart {start : Nat} (L : Layout fs) (hx : x < fatCount fs)
    (hsize : size ≤ fs.sectorSize - start % fs.sectorSize) :
    ChangesOnly fs [] [] [x] img (copy img (sectorAt fs x + start % fs.sectorSize) size buf) := by
  have hs := L.sectorSize
  have hmod : start % fs.sectorSize < fs.sectorSize := Nat.mod_lt _ (by omega)
  exact changes_sector hx (by omega)

/-- The loop writes to the first free sector only, and all of the buffer. -/
theorem writeRest_some (buf : Bytes) (size fuel bufIndex : Nat) (L : Layout fs) (hfree : findFreeFat fs img = some g)
    (h : bufIndex ≤ size) (hfuel : size ≤ bufIndex + fuel) :
    ∃ img', writeRest fs buf size fuel img bufIndex = (true, img', size) ∧ ChangesOnly fs [] [] [g] img img' := by
  have hs := L.sectorSize
  have hg := (findFreeFat_some hfree).1
  induction fuel generalizing img bufIndex with
  | zero =>
    obtain rfl : bufIndex = size := by omega
    exact ⟨img, rfl, by simp, by simp, by simpa using hg, fun _ _ _ _ _ => rfl⟩
  | succ fuel ih =>
    rcases Nat.eq_or_lt_of_le h with rfl | hlt
    · refine ⟨img, ?_, by simp, by simp, by simpa using hg, fun _ _ _ _ _ => rfl⟩
      rw [writeRest, if_neg (Nat.lt_irrefl _)]
    · have hchunk : 1 ≤ chunk fs size bufIndex := chunk_pos (by omega) hlt
      have hle : bufIndex + chunk fs size bufIndex ≤ size := chunk_le h
      have hch := changes_chunk img size bufIndex (fun k => buf (bufIndex + k)) hg
      obtain ⟨img', hr, hch'⟩ := ih _ ((findFreeFat_congr fun x hx => hch.fat_eq L hx (by simp)).trans hfree)
        hle (by omega)
      refine ⟨img', ?_, ((hch.trans hch').mono (by simp) (by simp) (by simp) (by simp) (by simp) (by simpa using hg))⟩
      rw [writeRest_step hfree hlt, hr]

/-! ## The routes -/

section

variable (hfs : fsMeta img = fs) (hid : getFileIdFromName fs img name = i + 1)

include hfs hid

/-- A file without data, and no free sector. -/
theorem tagfsWrite_noSpace (hfirst : firstDataSector img (fileMetaAt fs i) = 0xffff) (hfree : findFreeFat fs img = none) :
    tagfsWrite img name buf size offset = (0, img) := by
  simp only [tagfsWrite, hfs, hid, Nat.add_sub_cancel, if_neg (Nat.succ_ne_zero i), startOfFile, if_pos hfirst, hfree,
    Option.map_none]

/-- The chain of the file ends before the place of the write. -/
theorem tagfsWrite_bad (hfirst : firstDataSector img (fileMetaAt fs i) ≠ 0xffff)
    (hskip : skipSectors fs img (writeStart img (fileMetaAt fs i) offset / fs.sectorSize)
      (firstDataSector img (fileMetaAt fs i)) = none) :
    tagfsWrite img name buf size offset = (-ebadfd, img) := by
  simp only [tagfsWrite, hfs, hid, Nat.add_sub_cancel, if_neg (Nat.succ_ne_zero i), startOfFile, if_neg hfirst, hskip]

/-- The first write to a file, within a sector. -/
theorem tagfsWrite_fresh (L : Layout fs) (hi : i < countFileMetaEntries fs)
    (hfirst : firstDataSector img (fileMetaAt fs i) = 0xffff) (h0 : fileSize img (fileMetaAt fs i) = 0)
    (hfree : findFreeFat fs img = some g) (hsize : size ≤ fs.sectorSize) :
    tagfsWrite img name buf size offset = (toInt size,
      growFile (setFat fs (copy (setFirstDataSector img (fileMetaAt fs i) g) (sectorAt fs g) size buf) g 0xffff)
        (fileMetaAt fs i) (offset + size)) := by
  obtain ⟨hg, hfat⟩ := findFreeFat_some hfree
  have hstart : writeStart (setFirstDataSector img (fileMetaAt fs i) g) (fileMetaAt fs i) offset = 0 := by
    rw [writeStart_eq, fileSize_setFirstDataSector, h0, Nat.min_zero]
  have hch : ChangesOnly fs [i] [] [g] img
      (copy (setFirstDataSector img (fileMetaAt fs i) g) (sectorAt fs g) size buf) :=
    (changes_setFirstDataSector hi).trans (changes_sector (o := 0) hg (by omega))
  have hfat' : fat fs (copy (setFirstDataSector img (fileMetaAt fs i) g) (sectorAt fs g) size buf) g = 0 :=
    (hch.fat_eq L hg (by simp)).trans hfat
  simp only [tagfsWrite, hfs, hid, Nat.add_sub_cancel, if_neg (Nat.succ_ne_zero i), startOfFile, if_pos hfirst, hfree,
    Option.map_some, hstart, Nat.zero_div, Nat.zero_mod, skipSectors, Nat.sub_zero, if_pos hsize, Nat.add_zero,
    if_pos hfat']

/-- The first write to a file, across sectors. -/
theorem tagfsWrite_freshAcross (L : Layout fs) (hi : i < countFileMetaEntries fs)
    (hfirst : firstDataSector img (fileMetaAt fs i) = 0xffff) (h0 : fileSize img (fileMetaAt fs i) = 0)
    (hfree : findFreeFat fs img = some g) (hsize : fs.sectorSize < size) :
    ∃ img', writeRest fs buf size size (copy (setFirstDataSector img (fileMetaAt fs i) g) (sectorAt fs g) fs.sectorSize buf)
        fs.sectorSize = (true, img', size) ∧
      tagfsWrite img name buf size offset = (toInt size, growFile img' (fileMetaAt fs i) (offset + size)) := by
  obtain ⟨hg, hfat⟩ := findFreeFat_some hfree
  have hstart : writeStart (setFirstDataSector img (fileMetaAt fs i) g) (fileMetaAt fs i) offset = 0 := by
    rw [writeStart_eq, fileSize_setFirstDataSector, h0, Nat.min_zero]
  have hch : ChangesOnly fs [i] [] [g] img
      (copy (setFirstDataSector img (fileMetaAt fs i) g) (sectorAt fs g) fs.sectorSize buf) :=
    (changes_setFirstDataSector hi).trans (changes_sector (o := 0) hg (by omega))
  obtain ⟨img', hr, -⟩ := writeRest_some buf size size fs.sectorSize L
    ((findFreeFat_congr fun x hx => hch.fat_eq L hx (by simp)).trans hfree) (by omega) (by omega)
  refine ⟨img', hr, ?_⟩
  simp only [tagfsWrite, hfs, hid, Nat.add_sub_cancel, if_neg (Nat.succ_ne_zero i), startOfFile, if_pos hfirst, hfree,
    Option.map_some, hstart, Nat.zero_div, Nat.zero_mod, skipSectors, Nat.sub_zero,
    if_neg (Nat.not_le_of_lt hsize), Nat.add_zero, hr]

variable (hfirst : firstDataSector img (fileMetaAt fs i) ≠ 0xffff)
  (hskip : skipSectors fs img (writeStart img (fileMetaAt fs i) offset / fs.sectorSize)
    (firstDataSector img (fileMetaAt fs i)) = some x)

include hfirst hskip

/-- A write within the sector where it begins. -/
theorem tagfsWrite_within (L : Layout fs) (hx : x < fatCount fs) (hfat : fat fs img x ≠ 0)
    (hsize : size ≤ fs.sectorSize - writeStart img (fileMetaAt fs i) offset % fs.sectorSize) :
    tagfsWrite img name buf size offset = (toInt size,
      growFile (copy img (sectorAt fs x + writeStart img (fileMetaAt fs i) offset % fs.sectorSize) size buf)
        (fileMetaAt fs i) (offset + size)) := by
  have hch : ChangesOnly fs [] [] [x] img
      (copy img (sectorAt fs x + writeStart img (fileMetaAt fs i) offset % fs.sectorSize) size buf) :=
    changes_fromStart L hx hsize
  have hfat' : ¬ fat fs (copy img (sectorAt fs x + writeStart img (fileMetaAt fs i) offset % fs.sectorSize) size buf) x
      = 0 := by
    rwa [hch.fat_eq L hx (by simp)]
  simp only [tagfsWrite, hfs, hid, Nat.add_sub_cancel, if_neg (Nat.succ_ne_zero i), startOfFile, if_neg hfirst, hskip,
    if_pos hsize, if_neg hfat']

/-- A write across sectors, and no free one. -/
theorem tagfsWrite_full (L : Layout fs) (hx : x < fatCount fs) (hfree : findFreeFat fs img = none)
    (hsize : fs.sectorSize - writeStart img (fileMetaAt fs i) offset % fs.sectorSize < size) :
    tagfsWrite img name buf size offset =
      (toInt (fs.sectorSize - writeStart img (fileMetaAt fs i) offset % fs.sectorSize),
        copy img (sectorAt fs x + writeStart img (fileMetaAt fs i) offset % fs.sectorSize)
          (fs.sectorSize - writeStart img (fileMetaAt fs i) offset % fs.sectorSize) buf) := by
  have hch : ChangesOnly fs [] [] [x] img
      (copy img (sectorAt fs x + writeStart img (fileMetaAt fs i) offset % fs.sectorSize)
        (fs.sectorSize - writeStart img (fileMetaAt fs i) offset % fs.sectorSize) buf) :=
    changes_fromStart L hx (Nat.le_refl _)
  have hrest := writeRest_none buf
    ((findFreeFat_congr fun y hy => hch.fat_eq L hy (by simp)).trans hfree) hsize (Nat.zero_lt_of_lt hsize)
  simp only [tagfsWrite, hfs, hid, Nat.add_sub_cancel, if_neg (Nat.succ_ne_zero i), startOfFile, if_neg hfirst, hskip,
    if_neg (Nat.not_le_of_lt hsize), hrest]

/-- A write across sectors, with a free one. -/
theorem tagfsWrite_across (L : Layout fs) (hx : x < fatCount fs) (hfree : findFreeFat fs img = some g)
    (hsize : fs.sectorSize - writeStart img (fileMetaAt fs i) offset % fs.sectorSize < size) :
    ∃ img', writeRest fs buf size size
        (copy img (sectorAt fs x + writeStart img (fileMetaAt fs i) offset % fs.sectorSize)
          (fs.sectorSize - writeStart img (fileMetaAt fs i) offset % fs.sectorSize) buf)
        (fs.sectorSize - writeStart img (fileMetaAt fs i) offset % fs.sectorSize) = (true, img', size) ∧
      tagfsWrite img name buf size offset = (toInt size, growFile img' (fileMetaAt fs i) (offset + size)) := by
  have hch : ChangesOnly fs [] [] [x] img
      (copy img (sectorAt fs x + writeStart img (fileMetaAt fs i) offset % fs.sectorSize)
        (fs.sectorSize - writeStart img (fileMetaAt fs i) offset % fs.sectorSize) buf) :=
    changes_fromStart L hx (Nat.le_refl _)
  obtain ⟨img', hr, -⟩ := writeRest_some buf size size _ L
    ((findFreeFat_congr fun y hy => hch.fat_eq L hy (by simp)).trans hfree) (Nat.le_of_lt hsize) (by omega)
  refine ⟨img', hr, ?_⟩
  simp only [tagfsWrite, hfs, hid, Nat.add_sub_cancel, if_neg (Nat.succ_ne_zero i), startOfFile, if_neg hfirst, hskip,
    if_neg (Nat.not_le_of_lt hsize), hr]

end

end OSForReal.Proof.TagFS
