import OSForReal.Proof.TagFS.Names
import OSForReal.Proof.Tfs.Sectors

/-!
# `tfs_make_new_file`

The call looks for a sector with a free entry, and initialises the first entry
of that sector, whether or not it is the free one (`tfsMakeNewFile_cases`,
`tfsMakeNewFile_eq`). So it takes a free entry, and no other, exactly when the
first free entry is the first of its sector (`tfsMakeNewFile_makesOnlyNew`).
-/

namespace OSForReal.Proof.Tfs

open Framework
open Framework.Bytes
open OSForReal.TagFS
open OSForReal.Proof.TagFS

variable {fs : FSMetadata} {img : Bytes} {path : CStr} {e i k n : Nat}

/-- The entry at `e` is that of a new file. -/
def newEntry (img : Bytes) (e : Nat) (path : CStr) : Bytes :=
  setName (setFileSize (setFirstDataSector img e 0xffff) e 0) e path

theorem changes_newEntry (hi : i < countFileMetaEntries fs) (hlen : path.strlen < 24) :
    ChangesOnly fs [i] [] [] img (newEntry img (fileMetaAt fs i) path) :=
  ((changes_setFirstDataSector hi).trans ((changes_setFileSize hi).trans (changes_setName hi hlen))).mono (by simp)
    (by simp) (by simp) (by simpa using hi) (by simp) (by simp)

theorem firstDataSector_newEntry : firstDataSector (newEntry img e path) e = 0xffff :=
  firstDataSector_finish.trans (firstDataSector_setFirstDataSector (by decide))

theorem fileSize_newEntry : fileSize (newEntry img e path) e = 0 := fileSize_finish (by decide)

theorem strcmpEq_newEntry : strcmpEq (newEntry img e path) (nameAt e) path = true := strcmpEq_strcpy

/-- What the call writes to the sector. -/
theorem writeDiskSector_newEntry {lba : Nat} (hlen : path.strlen < 24) :
    writeDiskSector img lba (setName (setFileSize (setFirstDataSector (diskSector img lba) 0 0xffff) 0 0) 0 path) =
      newEntry img (512 * lba) path := by
  unfold newEntry setName strcpy setFileSize setFirstDataSector setU32 nameAt
  rw [writeDiskSector_copy (by omega), writeDiskSector_copy (by omega), writeDiskSector_copy (by omega),
    writeDiskSector_self]
  rfl

/-! ## Which entry it takes -/

/-- The first free entry of the section, sixteen to the sector; their number if none is free. -/
def firstFreeEntry (fs : FSMetadata) (img : Bytes) : Nat :=
  scan (fun i => fileMetadataEntryIsFree img (fileMetaAt fs i)) (16 * fs.fileMetaSectorCount) 0

theorem firstFreeEntry_le : firstFreeEntry fs img ≤ 16 * fs.fileMetaSectorCount := scan_le (Nat.zero_le _)

theorem firstFreeEntry_free (h : firstFreeEntry fs img < 16 * fs.fileMetaSectorCount) :
    fileMetadataEntryIsFree img (fileMetaAt fs (firstFreeEntry fs img)) = true :=
  scan_spec (p := fun i => fileMetadataEntryIsFree img (fileMetaAt fs i)) h

/-- A free entry is not before the first. -/
theorem firstFreeEntry_le_of_free (h : fileMetadataEntryIsFree img (fileMetaAt fs i) = true) :
    firstFreeEntry fs img ≤ i := by
  by_contra hlt
  have hused : fileMetadataEntryIsFree img (fileMetaAt fs i) = false :=
    scan_before (p := fun i => fileMetadataEntryIsFree img (fileMetaAt fs i)) (Nat.zero_le i) (Nat.lt_of_not_le hlt)
  rw [h] at hused
  cases hused

/-- No entry before `n` is free. -/
theorem le_firstFreeEntry (hn : n ≤ 16 * fs.fileMetaSectorCount)
    (h : ∀ i < n, fileMetadataEntryIsFree img (fileMetaAt fs i) = false) : n ≤ firstFreeEntry fs img := by
  by_contra hlt
  have hfree := firstFreeEntry_free (Nat.lt_of_lt_of_le (Nat.lt_of_not_le hlt) hn)
  rw [h _ (Nat.lt_of_not_le hlt)] at hfree
  cases hfree

/-- An entry in the buffer of its sector. -/
theorem isFree_diskSector (hsize : fs.sectorSize = 512) (k i : Nat) :
    fileMetadataEntryIsFree (diskSector img (1 + k)) (sizeofFileMetadata * i) =
      fileMetadataEntryIsFree img (fileMetaAt fs (16 * k + i)) := by
  simp only [fileMetadataEntryIsFree, diskSector, nameAt, fileMetaAt, getFileMetadata, sizeofFileMetadata, hsize]
  congr 2
  omega

/-- The count of entries wraps. -/
theorem tfsCount_eq (hsize : fs.sectorSize = 512) :
    tfsCountFileMetaEntries fs = 16 * (fs.fileMetaSectorCount % 2 ^ 23) := by
  simp only [tfsCountFileMetaEntries, sizeofFileMetadata, hsize]
  omega

/-- The first entry of a sector. -/
theorem sector_fileMetaAt (hsize : fs.sectorSize = 512) (k : Nat) : 512 * (1 + k) = fileMetaAt fs (16 * k) := by
  simp only [fileMetaAt, getFileMetadata, sizeofFileMetadata, hsize]
  omega

/-- What the search of a sector finds, after `16 * k` entries in use: a free
entry, none, or that the count is reached after one more. -/
theorem searchSector_cases (hsize : fs.sectorSize = 512) (hk : k ≤ fs.fileMetaSectorCount % 2 ^ 23) {r : Option Nat × Nat}
    (hr : searchEntries (fun i => fileMetadataEntryIsFree (diskSector img (1 + k)) (sizeofFileMetadata * i))
      (tfsCountFileMetaEntries fs) 16 0 (16 * k) = r) :
    (∃ j c, r = (some j, c) ∧ j < 16 ∧ fileMetadataEntryIsFree img (fileMetaAt fs (16 * k + j)) = true ∧
        (k < fs.fileMetaSectorCount % 2 ^ 23 ∨ j = 0)) ∨
      (r = (none, 16 * (k + 1)) ∧ k < fs.fileMetaSectorCount % 2 ^ 23 ∧
        ∀ j < 16, fileMetadataEntryIsFree img (fileMetaAt fs (16 * k + j)) = false) ∨
      (r = (none, 16 * k + 1) ∧ k = fs.fileMetaSectorCount % 2 ^ 23 ∧
        fileMetadataEntryIsFree img (fileMetaAt fs (16 * k)) = false) := by
  have hcount := tfsCount_eq hsize
  rcases Nat.lt_or_ge k (fs.fileMetaSectorCount % 2 ^ 23) with hroom | hend
  · rcases @searchEntries_spec 16 (fun i => fileMetadataEntryIsFree (diskSector img (1 + k)) (sizeofFileMetadata * i))
        (tfsCountFileMetaEntries fs) (16 * k) 0 (by omega) with
      ⟨j, -, hj, hfree, hs⟩ | ⟨hnone, hs⟩
    · rw [isFree_diskSector hsize] at hfree
      exact .inl ⟨j, _, hr.symm.trans hs, by omega, hfree, .inl hroom⟩
    · refine .inr (.inl ⟨hr.symm.trans hs, hroom, fun j hj => ?_⟩)
      rw [← isFree_diskSector hsize]
      exact hnone j (Nat.zero_le j) (by omega)
  · rw [searchEntries, isFree_diskSector hsize, Nat.add_zero] at hr
    split at hr
    · rename_i hfree
      exact .inl ⟨0, _, hr.symm, by decide, hfree, .inr rfl⟩
    · rename_i hused
      rw [if_pos (by omega)] at hr
      exact .inr (.inr ⟨hr.symm, by omega, by simpa using hused⟩)

/-- The entry that is initialised, of a section whose first `k` sectors are in use. -/
theorem makeInSectors_eq (hsize : fs.sectorSize = 512) (hlen : path.strlen < 24) (hn : k + n = fs.fileMetaSectorCount)
    (hk : k ≤ fs.fileMetaSectorCount % 2 ^ 23)
    (hused : ∀ i < 16 * k, fileMetadataEntryIsFree img (fileMetaAt fs i) = false) :
    makeInSectors fs img path n (1 + k) (16 * k) =
      if firstFreeEntry fs img < 16 * fs.fileMetaSectorCount ∧
          firstFreeEntry fs img ≤ 16 * (fs.fileMetaSectorCount % 2 ^ 23) then
        (true, newEntry img (fileMetaAt fs (16 * (firstFreeEntry fs img / 16))) path)
      else (false, img) := by
  have hcount := tfsCount_eq hsize
  have hperSector : fs.sectorSize / sizeofFileMetadata = 16 := by
    rw [hsize]
    rfl
  induction n generalizing k with
  | zero =>
    have hfrom := le_firstFreeEntry (n := 16 * k) (by omega) hused
    rw [if_neg (by omega)]
    rfl
  | succ n ih =>
    have hfrom := le_firstFreeEntry (n := 16 * k) (by omega) hused
    simp only [makeInSectors, hperSector, writeDiskSector_newEntry hlen]
    generalize hr : searchEntries _ _ _ _ _ = r
    rcases searchSector_cases hsize hk hr with ⟨j, c, rfl, hj, hfree, hin⟩ | ⟨rfl, hroom, hnone⟩ | ⟨rfl, hend, hnone⟩
    · have hle := firstFreeEntry_le_of_free hfree
      have hsector : firstFreeEntry fs img / 16 = k := by omega
      show (true, newEntry img (512 * (1 + k)) path) = _
      rw [if_pos (by omega), hsector, ← sector_fileMetaAt hsize]
    · show (if 16 * (k + 1) > tfsCountFileMetaEntries fs then (false, img)
        else makeInSectors fs img path n (1 + k + 1) (16 * (k + 1))) = _
      rw [if_neg (by omega)]
      apply ih (by omega) hroom
      intro i hi
      rcases Nat.lt_or_ge i (16 * k) with hlow | hhigh
      · exact hused i hlow
      · have hmiss := hnone (i - 16 * k) (by omega)
        rwa [Nat.add_sub_of_le hhigh] at hmiss
    · show (if 16 * k + 1 > tfsCountFileMetaEntries fs then (false, img)
        else makeInSectors fs img path n (1 + k + 1) (16 * k + 1)) = _
      rw [if_pos (by omega), if_neg]
      rintro ⟨hlt, hle⟩
      have hfree := firstFreeEntry_free hlt
      rw [show firstFreeEntry fs img = 16 * k by omega, hnone] at hfree
      cases hfree

/-- The call takes the first entry of the sector with the first free one. -/
theorem tfsMakeNewFile_eq (hsize : fs.sectorSize = 512) (hlen : path.strlen < 24) :
    tfsMakeNewFile fs img path =
      if firstFreeEntry fs img < 16 * fs.fileMetaSectorCount ∧
          firstFreeEntry fs img ≤ 16 * (fs.fileMetaSectorCount % 2 ^ 23) then
        (true, newEntry img (fileMetaAt fs (16 * (firstFreeEntry fs img / 16))) path)
      else (false, img) := by
  rw [tfsMakeNewFile, if_neg (Nat.not_le_of_lt hlen)]
  exact makeInSectors_eq hsize hlen (Nat.zero_add _) (Nat.zero_le _) fun i hi => absurd hi (Nat.not_lt_zero i)

/-- The call leaves the disk, or makes a new file of some entry. -/
theorem tfsMakeNewFile_cases (K : KernelImage fs) :
    (∃ b, tfsMakeNewFile fs img path = (b, img)) ∨ path.strlen < 24 ∧ ∃ i < countFileMetaEntries fs,
      tfsMakeNewFile fs img path = (true, newEntry img (fileMetaAt fs i) path) := by
  by_cases hlen : path.strlen < 24
  · rw [tfsMakeNewFile_eq K.sectorSize_eq hlen]
    split
    · rename_i hfound
      have hentries := K.entries_eq
      exact .inr ⟨hlen, 16 * (firstFreeEntry fs img / 16), by omega, rfl⟩
    · exact .inl ⟨false, rfl⟩
  · rw [tfsMakeNewFile, if_pos (Nat.le_of_not_lt hlen)]
    exact .inl ⟨false, rfl⟩

/-! ## One new entry, and nothing else -/

/-- What the call returns and the disk it leaves: one free entry is that of the
new file and the rest of the disk is unchanged, or no entry is free and the disk
is unchanged. -/
structure MakesOnlyNew (fs : FSMetadata) (img : Bytes) (path : CStr) (r : Bool × Bytes) : Prop where
  made : r.1 = true → ∃ i < 16 * fs.fileMetaSectorCount, fileMetadataEntryIsFree img (fileMetaAt fs i) = true ∧
    firstDataSector r.2 (fileMetaAt fs i) = 0xffff ∧ fileSize r.2 (fileMetaAt fs i) = 0 ∧
    strcmpEq r.2 (nameAt (fileMetaAt fs i)) path = true ∧ ∀ a, ¬ InFile fs i a → r.2 a = img a
  failed : r.1 = false → r.2 = img
  failed_iff : r.1 = false ↔ ∀ i < 16 * fs.fileMetaSectorCount, fileMetadataEntryIsFree img (fileMetaAt fs i) = false

/-- Bytes outside the entry that is initialised. -/
theorem newEntry_out (hlen : path.strlen < 24) {a : Nat} (h : ¬ InFile fs i a) :
    newEntry img (fileMetaAt fs i) path a = img a := by
  unfold InFile at h
  unfold newEntry setName strcpy setFileSize setFirstDataSector nameAt
  rw [copy_out (by omega), setU32_out (by omega), setU32_out (by omega)]

/-- An entry that is initialised was free. -/
theorem MakesOnlyNew.free (h : MakesOnlyNew fs img path (true, newEntry img (fileMetaAt fs i) path))
    (hne : path.chars ≠ []) (hlen : path.strlen < 24) : fileMetadataEntryIsFree img (fileMetaAt fs i) = true := by
  obtain ⟨j, -, hfree, -, -, hname, -⟩ := h.made rfl
  by_cases hji : j = i
  · rwa [← hji]
  · -- Another entry keeps its name, which is empty.
    have hin : InFile fs j (nameAt (fileMetaAt fs j)) := ⟨Nat.le_add_right _ _, Nat.add_lt_add_left (by decide) _⟩
    have hkept : newEntry img (fileMetaAt fs i) path (nameAt (fileMetaAt fs j)) = 0 := by
      rw [newEntry_out hlen fun hin' => hji (Layout.file_apart hin hin')]
      exact beq_iff_eq.mp hfree
    exact absurd ((strcmpEq_first hname).mp hkept) hne

/-- Taking a free entry. -/
theorem makesOnlyNew_newEntry (hlen : path.strlen < 24) (hi : i < 16 * fs.fileMetaSectorCount)
    (hfree : fileMetadataEntryIsFree img (fileMetaAt fs i) = true) :
    MakesOnlyNew fs img path (true, newEntry img (fileMetaAt fs i) path) := by
  constructor
  case made =>
    intro _
    exact ⟨i, hi, hfree, firstDataSector_newEntry, fileSize_newEntry, strcmpEq_newEntry, fun a ha => newEntry_out hlen ha⟩
  case failed =>
    intro h
    cases h
  case failed_iff =>
    refine ⟨fun h => (by cases h), fun hnone => ?_⟩
    rw [hnone i hi] at hfree
    cases hfree

/-- A call adds one file and changes nothing else when no entry is free, or when the
first free entry is the first of its sector, and the count of entries reaches it. -/
theorem tfsMakeNewFile_makesOnlyNew (img : Bytes) (path : CStr) (hsize : (fsMeta img).sectorSize = 512)
    (hne : path.chars ≠ []) (hlen : path.strlen < 24) :
    MakesOnlyNew (fsMeta img) img path (tfsMakeNewFile (fsMeta img) img path) ↔
      firstFreeEntry (fsMeta img) img = 16 * (fsMeta img).fileMetaSectorCount ∨
        firstFreeEntry (fsMeta img) img % 16 = 0 ∧
          firstFreeEntry (fsMeta img) img ≤ 16 * ((fsMeta img).fileMetaSectorCount % 2 ^ 23) := by
  have hle := @firstFreeEntry_le (fsMeta img) img
  rw [tfsMakeNewFile_eq hsize hlen]
  split
  · rename_i hfound
    obtain ⟨hlt, hcount⟩ := hfound
    constructor
    · intro h
      have hfirst := firstFreeEntry_le_of_free (h.free hne hlen)
      omega
    · intro h
      have hsector : 16 * (firstFreeEntry (fsMeta img) img / 16) = firstFreeEntry (fsMeta img) img := by omega
      rw [hsector]
      exact makesOnlyNew_newEntry hlen hlt (firstFreeEntry_free hlt)
  · rename_i hmissed
    constructor
    · intro h
      have hfull : 16 * (fsMeta img).fileMetaSectorCount ≤ firstFreeEntry (fsMeta img) img :=
        le_firstFreeEntry (Nat.le_refl _) (h.failed_iff.mp rfl)
      exact .inl (Nat.le_antisymm hle hfull)
    · intro h
      refine ⟨fun h => (by cases h), fun _ => rfl, ⟨fun _ i hi => ?_, fun _ => rfl⟩⟩
      cases hfree : fileMetadataEntryIsFree img (fileMetaAt (fsMeta img) i) with
      | false => rfl
      | true =>
        have hfirst := firstFreeEntry_le_of_free hfree
        omega

/-- A formatted image whose first 16 file entries are in use. -/
def fullSector : Bytes := fun a => if 512 ≤ a ∧ a < 1024 then 0x61 else formatImage {} (fun _ => 0) a

/-- The next file takes the first entry of the second sector. -/
theorem tfsMakeNewFile_makesOnlyNew_sixteen : firstFreeEntry (fsMeta fullSector) fullSector = 16 ∧
    MakesOnlyNew (fsMeta fullSector) fullSector nameA (tfsMakeNewFile (fsMeta fullSector) fullSector nameA) := by
  have hsize : (fsMeta fullSector).sectorSize = 512 := by decide +kernel
  have hfirst : firstFreeEntry (fsMeta fullSector) fullSector = 16 := by decide +kernel
  have hcount : (fsMeta fullSector).fileMetaSectorCount = 10 := by decide +kernel
  refine ⟨hfirst, (tfsMakeNewFile_makesOnlyNew fullSector nameA hsize (by decide) (by decide)).mpr (.inr ?_)⟩
  rw [hfirst, hcount]
  decide

/-- The second file takes the entry of the first. -/
theorem tfsMakeNewFile_makesOnlyNew_fails : ¬ ∀ img path, (fsMeta img).sectorSize = 512 → path.chars ≠ [] →
    path.strlen < 24 → MakesOnlyNew (fsMeta img) img path (tfsMakeNewFile (fsMeta img) img path) := by
  intro hall
  obtain ⟨hI, hused, -⟩ := newFile_file
  have hheader := hI.inRange.header
  have h := hall newFile ⟨[0x62], by decide⟩ (by rw [hheader]; rfl) (by decide) (by decide)
  have hfree : fileMetadataEntryIsFree newFile (fileMetaAt (headerOf {}) 1) = true := by decide +kernel
  have hfirst := firstFreeEntry_le_of_free hfree
  rw [hheader, tfsMakeNewFile_eq rfl (by decide), if_pos ⟨Nat.lt_of_le_of_lt hfirst (by decide),
    Nat.le_trans hfirst (by decide)⟩, Nat.div_eq_of_lt (Nat.lt_of_le_of_lt hfirst (by decide))] at h
  have hfree₀ := h.free (by decide) (by decide)
  rw [Nat.mul_zero, hused.2] at hfree₀
  cases hfree₀

end OSForReal.Proof.Tfs
