import OSForReal.Proof.TagFS.Write
import OSForReal.Proof.Tfs.Write

/-!
# Writes that fail

`tfs_write` returns false before it writes a sector, whatever the heap makes of
its blocks (`tfsWrite_false`). `tagfs_write` may have given the file its first
sector by then; but such a file is empty, and a write to it begins in that
sector, so that it does not fail afterwards (`tagfsWrite_failed`). Once data is
written, the call returns the number of bytes, and that is not 0.
-/

namespace OSForReal.Proof.Tfs

open Framework
open Framework.Bytes
open OSForReal.TagFS
open OSForReal.Proof.TagFS
open OSForReal.Proof.Heap

variable {σ : Type} {S : PageSupply σ} {fs : FSMetadata} {img disk buf : Bytes} {name : CStr} {h h' : Heap σ}
  {fuel sb fats m size offset : Nat}

/-- A file without data has size 0. -/
def EmptyFiles (fs : FSMetadata) (img : Bytes) : Prop :=
  ∀ i < countFileMetaEntries fs, firstDataSector img (fileMetaAt fs i) = 0xffff → fileSize img (fileMetaAt fs i) = 0

/-- What `tfs_write` does for a file has written no sector when it returns false. -/
theorem tfsWriteFile_false (hr : tfsWriteFile fs sb img fats m h name buf size offset = .ok (false, disk, h')) : disk = img := by
  obtain ⟨⟨metaResult, h₁⟩, -, hr⟩ := Res.bind_eq_ok.mp hr
  dsimp only at hr
  split at hr
  · obtain ⟨-, hdisk⟩ := Prod.mk.inj (Res.ok.inj hr)
    exact (Prod.mk.inj hdisk).1.symm
  · split at hr
    · obtain ⟨-, hdisk⟩ := Prod.mk.inj (Res.ok.inj hr)
      exact (Prod.mk.inj hdisk).1.symm
    · split at hr
      · obtain ⟨-, hdisk⟩ := Prod.mk.inj (Res.ok.inj hr)
        exact (Prod.mk.inj hdisk).1.symm
      · -- All that is left returns true.
        obtain ⟨⟨disk₁, h₂⟩, -, hr⟩ := Res.bind_eq_ok.mp hr
        obtain ⟨⟨disk₂, h₃⟩, -, hr⟩ := Res.bind_eq_ok.mp hr
        obtain ⟨htrue, -⟩ := Prod.mk.inj (Res.ok.inj hr)
        cases htrue

/-- A call of `tfs_write` that returns false has written no sector. -/
theorem tfsWrite_false (hr : tfsWrite S fs sb fuel h img name buf size offset = .ok (false, disk, h')) : disk = img := by
  obtain ⟨-, -, hr⟩ := Res.bind_eq_ok.mp hr
  obtain ⟨⟨fats, h₁⟩, -, hr⟩ := Res.bind_eq_ok.mp hr
  obtain ⟨⟨m, h₂⟩, -, hr⟩ := Res.bind_eq_ok.mp hr
  obtain ⟨⟨b, disk₁, h₃⟩, hfile, hr⟩ := Res.bind_eq_ok.mp hr
  obtain ⟨h₄, -, hr⟩ := Res.bind_eq_ok.mp hr
  obtain ⟨h₅, -, hr⟩ := Res.bind_eq_ok.mp hr
  obtain ⟨rfl, hdisk⟩ := Prod.mk.inj (Res.ok.inj hr)
  obtain ⟨rfl, -⟩ := Prod.mk.inj hdisk
  exact tfsWriteFile_false hfile

/-- An id that is found is that of an entry. -/
theorem fileId_le (fs : FSMetadata) (img : Bytes) (name : CStr) :
    getFileIdFromName fs img name ≤ countFileMetaEntries fs := by
  simp only [getFileIdFromName]
  split
  · rename_i hlt
    exact Nat.le_trans (Nat.mod_le _ _) hlt
  · exact Nat.zero_le _

/-- The loop goes on from where it begins, and not past the end of the buffer. -/
theorem writeRest_index (fs : FSMetadata) (buf : Bytes) (size fuel : Nat) (img : Bytes) {bufIndex : Nat}
    (h : bufIndex ≤ size) : bufIndex ≤ (writeRest fs buf size fuel img bufIndex).2.2 ∧
      (writeRest fs buf size fuel img bufIndex).2.2 ≤ size := by
  induction fuel generalizing img bufIndex with
  | zero => exact ⟨Nat.le_refl _, h⟩
  | succ fuel ih =>
    by_cases hlt : bufIndex < size
    · cases hfree : findFreeFat fs img with
      | none =>
        rw [writeRest_none buf hfree hlt (Nat.succ_pos fuel)]
        exact ⟨Nat.le_refl _, h⟩
      | some g =>
        have hle : bufIndex + chunk fs size bufIndex ≤ size := chunk_le h
        have hrest := ih (copy img (sectorAt fs g) (chunk fs size bufIndex) fun k => buf (bufIndex + k)) hle
        rw [writeRest_step hfree hlt]
        omega
    · rw [writeRest, if_neg hlt]
      exact ⟨Nat.le_refl _, h⟩

/-- A number of bytes that is not 0 is not an error. -/
theorem toInt_pos {n : Nat} (hpos : 0 < n) (hn : n < 2 ^ 31) : 0 < toInt n := by
  rw [toInt_eq hn]
  exact Int.natCast_pos.mpr hpos

/-- What a call of `tagfs_write` does once it has skipped sectors, at the byte `r` of the sector `x`. -/
def writeData (fs : FSMetadata) (img buf : Bytes) (thisFileMeta x r size offset : Nat) : Int × Bytes :=
  let sector := sectorAt fs x + r
  if size ≤ fs.sectorSize - r then
    let img := copy img sector size buf
    let img := if fat fs img x = 0 then setFat fs img x 0xffff else img
    (toInt size, growFile img thisFileMeta (offset + size))
  else
    let firstSectorBytes := fs.sectorSize - r
    match writeRest fs buf size size (copy img sector firstSectorBytes buf) firstSectorBytes with
    | (false, img, bufIndex) => (toInt bufIndex, img)
    | (true, img, bufIndex) => (toInt bufIndex, growFile img thisFileMeta (offset + bufIndex))

/-- It returns the number of bytes that are written, and there is one unless the buffer is empty. -/
theorem writeData_pos (fs : FSMetadata) (img buf : Bytes) (thisFileMeta x offset : Nat) {r : Nat}
    (hr : r < fs.sectorSize) (hpos : 0 < size) (hsize : size < 2 ^ 31) :
    0 < (writeData fs img buf thisFileMeta x r size offset).1 := by
  unfold writeData
  by_cases hin : size ≤ fs.sectorSize - r
  · simp only [if_pos hin]
    exact toInt_pos hpos hsize
  · have hindex := writeRest_index fs buf size size (copy img (sectorAt fs x + r) (fs.sectorSize - r) buf)
      (Nat.le_of_not_le hin)
    have hreturned := toInt_pos (Nat.lt_of_lt_of_le (Nat.sub_pos_of_lt hr) hindex.1)
      (Nat.lt_of_le_of_lt hindex.2 hsize)
    simp only [if_neg hin]
    split
    · rename_i hwritten
      simpa only [hwritten] using hreturned
    · rename_i hwritten
      simpa only [hwritten] using hreturned

/-- A call on the entry that is found, from its first sector on. -/
theorem tagfsWrite_data (hid : getFileIdFromName (fsMeta img) img name ≠ 0) :
    tagfsWrite img name buf size offset =
      match startOfFile (fsMeta img) img (fileMetaAt (fsMeta img) (getFileIdFromName (fsMeta img) img name - 1)) with
      | none => (0, img)
      | some (img', g) =>
        let e := fileMetaAt (fsMeta img) (getFileIdFromName (fsMeta img) img name - 1)
        match skipSectors (fsMeta img) img' (writeStart img' e offset / (fsMeta img).sectorSize) g with
        | none => (-ebadfd, img')
        | some x =>
          writeData (fsMeta img) img' buf e x (writeStart img' e offset % (fsMeta img).sectorSize) size offset := by
  simp only [tagfsWrite, if_neg hid]
  rfl

/-- A write of no bytes returns 0. -/
theorem writeData_zero (fs : FSMetadata) (img buf : Bytes) (thisFileMeta x r offset : Nat) :
    (writeData fs img buf thisFileMeta x r 0 offset).1 = 0 := by
  simp only [writeData, if_pos (Nat.zero_le _)]
  exact toInt_eq (by decide)

/-- Once the sectors are skipped, a call does not fail. -/
theorem writeData_succeeds (fs : FSMetadata) (img buf : Bytes) (thisFileMeta x offset : Nat) {r : Nat}
    (hr : r < fs.sectorSize) (hsize : size < 2 ^ 31) :
    ¬ ((writeData fs img buf thisFileMeta x r size offset).1 < 0 ∨
      (writeData fs img buf thisFileMeta x r size offset).1 = 0 ∧ size ≠ 0) := by
  intro hfailed
  rcases Nat.eq_zero_or_pos size with rfl | hpos
  · have hzero := writeData_zero fs img buf thisFileMeta x r offset
    omega
  · have hwritten := writeData_pos fs img buf thisFileMeta x offset hr hpos hsize
    omega

/-- The data of an image with an entry has sectors of some size. -/
theorem sectorSize_pos_of_entry {i : Nat} (hi : i < countFileMetaEntries fs) : 0 < fs.sectorSize := by
  refine Nat.pos_of_ne_zero fun h0 => ?_
  rw [countFileMetaEntries, h0, Nat.mul_zero, Nat.zero_mod, Nat.zero_div] at hi
  exact Nat.not_lt_zero i hi

/-- A call of `tagfs_write` that returns an error, or 0 for bytes to write, has written nothing. -/
theorem tagfsWrite_failed (hempty : EmptyFiles (fsMeta img) img) (hsize : size < 2 ^ 31)
    (h : (tagfsWrite img name buf size offset).1 < 0 ∨ (tagfsWrite img name buf size offset).1 = 0 ∧ size ≠ 0) :
    (tagfsWrite img name buf size offset).2 = img := by
  by_cases hid : getFileIdFromName (fsMeta img) img name = 0
  · simp only [tagfsWrite, if_pos hid]
  · have hle := fileId_le (fsMeta img) img name
    have hi : getFileIdFromName (fsMeta img) img name - 1 < countFileMetaEntries (fsMeta img) := by omega
    have hsector := sectorSize_pos_of_entry hi
    rw [tagfsWrite_data hid] at h ⊢
    generalize getFileIdFromName (fsMeta img) img name - 1 = i at h hi ⊢
    by_cases hfirst : firstDataSector img (fileMetaAt (fsMeta img) i) = 0xffff
    · cases hfree : findFreeFat (fsMeta img) img with
      | none => simp [startOfFile, if_pos hfirst, hfree]
      | some g =>
        -- The file has its first sector now, and the write begins in it.
        have hstart : startOfFile (fsMeta img) img (fileMetaAt (fsMeta img) i) =
            some (setFirstDataSector img (fileMetaAt (fsMeta img) i) g, g) := by
          simp [startOfFile, if_pos hfirst, hfree]
        have hzero : writeStart (setFirstDataSector img (fileMetaAt (fsMeta img) i) g) (fileMetaAt (fsMeta img) i)
            offset = 0 := by
          rw [writeStart_eq, fileSize_setFirstDataSector, hempty i hi hfirst, Nat.min_zero]
        simp only [hstart, hzero, Nat.zero_div, Nat.zero_mod, skipSectors] at h
        exact absurd h (writeData_succeeds _ _ buf _ _ offset hsector hsize)
    · have hstart : startOfFile (fsMeta img) img (fileMetaAt (fsMeta img) i) =
          some (img, firstDataSector img (fileMetaAt (fsMeta img) i)) := by
        simp [startOfFile, if_neg hfirst]
      simp only [hstart] at h ⊢
      cases hskip : skipSectors (fsMeta img) img
          (writeStart img (fileMetaAt (fsMeta img) i) offset / (fsMeta img).sectorSize)
          (firstDataSector img (fileMetaAt (fsMeta img) i)) with
      | none => rfl
      | some x =>
        simp only [hskip] at h
        exact absurd h (writeData_succeeds _ _ buf _ _ offset (Nat.mod_lt _ hsector) hsize)

/-- Writes that fail change nothing: the calls of the kernel, from any heap, and of the FUSE driver. -/
theorem failedWrites_unchanged (S : PageSupply σ) (sb : Nat) (img : Bytes) (name : CStr) (buf : Bytes) (size offset : Nat)
    (hempty : EmptyFiles (fsMeta img) img) (hsize : size < 2 ^ 31) :
    (∀ fuel h disk h', tfsWrite S (fsMeta img) sb fuel h img name buf size offset = .ok (false, disk, h') → disk = img) ∧
    ((tagfsWrite img name buf size offset).1 < 0 ∨ (tagfsWrite img name buf size offset).1 = 0 ∧ size ≠ 0 →
      (tagfsWrite img name buf size offset).2 = img) :=
  ⟨fun _ _ _ _ => tfsWrite_false, tagfsWrite_failed hempty hsize⟩

/-- An image whose file `a` has 600 bytes by its entry, and a chain of one sector. -/
def shortChain : Bytes := setFileSize threeBytes (fileMetaAt (headerOf {}) 0) 600

/-- A write to the second sector of that file fails in both drivers. -/
theorem failedWrites_unchanged_shortChain : ∃ (heap heap' : Heap Unit) (disk : Bytes),
    Res.Returns (fun fuel => tfsWrite everyPage (fsMeta shortChain) (heapStart + 4) fuel heap shortChain nameA (fun _ => 1) 1 512)
      (false, disk, heap') ∧ disk = shortChain ∧
    (tagfsWrite shortChain nameA (fun _ => 1) 1 512).1 = -ebadfd ∧
    (tagfsWrite shortChain nameA (fun _ => 1) 1 512).2 = shortChain := by
  have K := kernelImage_default
  have hfile : fsMeta shortChain = headerOf {} ∧ firstDataSector shortChain (fileMetaAt (headerOf {}) 0) = 0 ∧
      fat (headerOf {}) shortChain 0 = 0xffff ∧ fileSize shortChain (fileMetaAt (headerOf {}) 0) = 600 ∧
      strcmpEq shortChain (nameAt (fileMetaAt (headerOf {}) 0)) nameA = true ∧
      (∀ j < countFileMetaEntries (headerOf {}), strcmpEq shortChain (nameAt (fileMetaAt (headerOf {}) j)) nameA = true → j = 0) ∧
      (∀ j < countFileMetaEntries (headerOf {}), firstDataSector shortChain (fileMetaAt (headerOf {}) j) = 0xffff →
        fileSize shortChain (fileMetaAt (headerOf {}) j) = 0) ∧
      strayNext (headerOf {}) shortChain = 0 ∧ strayLength (headerOf {}) shortChain = 0 := by
    decide +kernel
  obtain ⟨hheader, hfirst, hfat, hsize, hname, honly, hempty, hnext, hlength⟩ := hfile
  have honly : OnlyNamed (headerOf {}) shortChain nameA 0 := ⟨by decide, hname, honly⟩
  have hchain : FatChain (headerOf {}) shortChain (firstDataSector shortChain (fileMetaAt (headerOf {}) 0)) [0] := by
    rw [hfirst]
    exact ⟨⟨rfl, hfat⟩, by decide⟩
  have hstart : writeStart shortChain (fileMetaAt (headerOf {}) 0) 512 / 512 = [0].length := by
    rw [writeStart_of_le (by rw [hsize]; decide)]
    rfl
  have hlow : ∀ j < [0].length, [0].getD j 0 < 256 := by decide
  -- The chain ends before the second sector.
  obtain ⟨heap, view, -, -, hwrite⟩ := exists_writesView K (S := everyPage) (show nameA.strlen < 24 by decide)
    (firstIsIndex_of_lt K honly (by rw [hfirst]; decide)) (fatFits_everyPage hnext hlength) fun _ => 0
  have hview : viewWrite (headerOf {}) shortChain view nameA (fun _ => 1) 1 512 = (false, shortChain) := by
    rw [viewWrite_chain K honly hchain (by decide), hstart, skipFats_length K hchain (by decide) hlow]
  obtain ⟨heap', hr⟩ := hwrite (fun _ => 1) 1 512 fun x hx =>
    hx.lt_of_low K honly hchain (by decide) (Nat.le_of_eq hstart) fun j hj => hlow j (hstart ▸ hj)
  have hfuse := @tagfsWrite_bad (headerOf {}) shortChain (fun _ => 1) nameA 0 1 512 hheader (honly.named.fileId K.layout)
    (by rw [hfirst]; decide) (by
      rw [K.sectorSize_eq, hstart]
      exact skipSectors_length hchain (by decide))
  rw [hview, ← hheader] at hr
  obtain ⟨hkernel, htagfs⟩ := failedWrites_unchanged everyPage (heapStart + 4) shortChain nameA (fun _ => 1) 1 512
    (by rw [hheader]; exact hempty) (by decide)
  obtain ⟨n, hn⟩ := hr.enough
  exact ⟨heap, heap', shortChain, hr, hkernel n heap shortChain heap' (hn n (Nat.le_refl n)), by rw [hfuse],
    htagfs (.inl (by rw [hfuse]; decide))⟩

end OSForReal.Proof.Tfs
