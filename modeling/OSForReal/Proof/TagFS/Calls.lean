import OSForReal.Proof.TagFS.FatWellFormed
import OSForReal.Proof.TagFS.Write

/-!
# What the calls of the FUSE driver write

In an image whose FAT indices are in range (`IndicesInRange`), `tagfs_write` and
the loop of `tagfs_unlink` are made of four kinds of writes: the first sector
and the size of a file entry, a FAT entry, and part of a data sector. What each
of the four keeps (`KeptByWrites`), the calls keep (`KeptByWrites.tagfsWrite`,
`KeptByWrites.unlinkLoop`), whatever is written and however often.
`tagfsMknod_cases` lists what `tagfs_mknod` can do, and `FirstWrite` what the
first write to a file does.
-/

namespace OSForReal.Proof.TagFS

open Framework
open Framework.Bytes
open OSForReal.TagFS

variable {fs : FSMetadata} {img img' img'' buf : Bytes} {name : CStr} {g i j x n o v size offset : Nat} {src : Nat → UInt8}

/-- An image with the `FS_Metadata` `fs` whose FAT indices are those of FAT entries. -/
structure IndicesInRange (fs : FSMetadata) (img : Bytes) : Prop where
  header : fsMeta img = fs
  first : ∀ i < countFileMetaEntries fs, firstDataSector img (fileMetaAt fs i) = 0xffff ∨
    firstDataSector img (fileMetaAt fs i) < fatCount fs
  next : ∀ x < fatCount fs, fat fs img x = 0xffff ∨ fat fs img x < fatCount fs

namespace IndicesInRange

/-- A command that changes no index. -/
theorem congr {files fats sectors : List Nat} (h : IndicesInRange fs img) (L : Layout fs)
    (hch : ChangesOnly fs files fats sectors img img')
    (hfiles : ∀ i ∈ files, firstDataSector img' (fileMetaAt fs i) = 0xffff ∨
      firstDataSector img' (fileMetaAt fs i) < fatCount fs)
    (hfats : ∀ x ∈ fats, fat fs img' x = 0xffff ∨ fat fs img' x < fatCount fs) : IndicesInRange fs img' := by
  refine ⟨(hch.fsMeta_eq L).trans h.header, fun i hi => ?_, fun x hx => ?_⟩
  · by_cases hif : i ∈ files
    · exact hfiles i hif
    · rw [hch.firstDataSector_eq L hi hif]
      exact h.first i hi
  · by_cases hxf : x ∈ fats
    · exact hfats x hxf
    · rw [hch.fat_eq L hx hxf]
      exact h.next x hx

theorem setFirstDataSector (h : IndicesInRange fs img) (L : Layout fs) (hi : i < countFileMetaEntries fs)
    (hv : v = 0xffff ∨ v < fatCount fs) : IndicesInRange fs (setFirstDataSector img (fileMetaAt fs i) v) := by
  have hcount := L.fatCount_le
  refine h.congr L (changes_setFirstDataSector hi) (fun j hj => ?_) fun _ hx => absurd hx List.not_mem_nil
  rw [List.mem_singleton.mp hj, firstDataSector_setFirstDataSector (by omega)]
  exact hv

theorem setFileSize (h : IndicesInRange fs img) (L : Layout fs) (hi : i < countFileMetaEntries fs) :
    IndicesInRange fs (setFileSize img (fileMetaAt fs i) v) := by
  refine h.congr L (changes_setFileSize hi) (fun j hj => ?_) fun _ hx => absurd hx List.not_mem_nil
  have hkeep : firstDataSector (OSForReal.TagFS.setFileSize img (fileMetaAt fs i) v) (fileMetaAt fs i) =
      firstDataSector img (fileMetaAt fs i) := u32_copy_out (by omega)
  rw [List.mem_singleton.mp hj, hkeep]
  exact h.first i hi

theorem setFat (h : IndicesInRange fs img) (L : Layout fs) (hx : x < fatCount fs) (hv : v = 0xffff ∨ v < fatCount fs) :
    IndicesInRange fs (setFat fs img x v) := by
  have hcount := L.fatCount_le
  refine h.congr L (changes_setFat hx) (fun _ hj => absurd hj List.not_mem_nil) fun y hy => ?_
  rw [List.mem_singleton.mp hy, fat_setFat_self (by omega)]
  exact hv

theorem copySector (h : IndicesInRange fs img) (L : Layout fs) (hx : x < fatCount fs) (hn : o + n ≤ fs.sectorSize) :
    IndicesInRange fs (copy img (sectorAt fs x + o) n src) :=
  h.congr L (changes_sector hx hn) (fun _ hj => absurd hj List.not_mem_nil) fun _ hy => absurd hy List.not_mem_nil

/-- Skipping sectors stays in the FAT. -/
theorem skipSectors {k g : Nat} (h : IndicesInRange fs img) (hg : g < fatCount fs)
    (hr : skipSectors fs img k g = some x) : x < fatCount fs := by
  induction k generalizing g with
  | zero =>
    obtain rfl := Option.some.inj hr
    exact hg
  | succ k ih =>
    rw [OSForReal.TagFS.skipSectors] at hr
    split at hr
    · cases hr
    · rename_i hne
      exact ih ((h.next g hg).resolve_left hne) hr

end IndicesInRange

/-- A property of images that each of the writes of the driver's calls keeps. -/
structure KeptByWrites (fs : FSMetadata) (P : Bytes → Prop) : Prop where
  inRange : ∀ img, P img → IndicesInRange fs img
  first : ∀ img, P img → ∀ i < countFileMetaEntries fs, ∀ v < fatCount fs,
    P (setFirstDataSector img (fileMetaAt fs i) v)
  size : ∀ img, P img → ∀ i < countFileMetaEntries fs, ∀ v, P (setFileSize img (fileMetaAt fs i) v)
  fat : ∀ img, P img → ∀ x < fatCount fs, ∀ v, v = 0xffff ∨ v = 0 → P (setFat fs img x v)
  data : ∀ img, P img → ∀ x < fatCount fs, ∀ o n src, o + n ≤ fs.sectorSize → P (copy img (sectorAt fs x + o) n src)

namespace KeptByWrites

variable {P : Bytes → Prop}

theorem growFile (hP : KeptByWrites fs P) (h : P img) (hi : i < countFileMetaEntries fs) :
    P (growFile img (fileMetaAt fs i) n) := by
  unfold OSForReal.TagFS.growFile
  split
  · exact hP.size img h i hi n
  · exact h

theorem writeRest (hP : KeptByWrites fs P) (h : P img) (buf : Bytes) (size fuel bufIndex : Nat) :
    P (writeRest fs buf size fuel img bufIndex).2.1 := by
  induction fuel generalizing img bufIndex with
  | zero => exact h
  | succ fuel ih =>
    unfold OSForReal.TagFS.writeRest
    split
    · cases hfree : findFreeFat fs img with
      | none => exact h
      | some g =>
        refine ih (hP.data img h g (findFreeFat_some hfree).1 0 _ _ ?_) _
        split <;> omega
    · exact h

/-- The start of a file is an entry of the FAT. -/
theorem startOfFile {g : Nat} (hP : KeptByWrites fs P) (h : P img) (hi : i < countFileMetaEntries fs)
    (hr : startOfFile fs img (fileMetaAt fs i) = some (img', g)) : P img' ∧ g < fatCount fs := by
  unfold OSForReal.TagFS.startOfFile at hr
  split at hr
  · obtain ⟨g, hfree, hr⟩ := Option.map_eq_some_iff.mp hr
    obtain ⟨rfl, rfl⟩ := Prod.mk.inj hr
    have hg := (findFreeFat_some hfree).1
    exact ⟨hP.first img h i hi g hg, hg⟩
  · rename_i hne
    obtain ⟨rfl, rfl⟩ := Prod.mk.inj (Option.some.inj hr)
    exact ⟨h, ((hP.inRange _ h).first i hi).resolve_left hne⟩

/-- `tagfs_write` keeps what its writes keep. -/
theorem tagfsWrite (hP : KeptByWrites fs P) (h : P img) (L : Layout fs) :
    P (tagfsWrite img name buf size offset).2 := by
  have hs := L.sectorSize
  unfold OSForReal.TagFS.tagfsWrite
  simp only [(hP.inRange img h).header]
  rcases named_or_absent fs img name with ⟨i, hname⟩ | habsent
  · rw [hname.fileId L, if_neg (Nat.succ_ne_zero i), Nat.add_sub_cancel]
    cases hstart : OSForReal.TagFS.startOfFile fs img (fileMetaAt fs i) with
    | none => exact h
    | some p =>
      obtain ⟨img₁, g⟩ := p
      obtain ⟨h₁, hg⟩ := hP.startOfFile h hname.lt hstart
      have hmod : writeStart img₁ (fileMetaAt fs i) offset % fs.sectorSize < fs.sectorSize := Nat.mod_lt _ (by omega)
      simp only
      cases hskip : skipSectors fs img₁ (writeStart img₁ (fileMetaAt fs i) offset / fs.sectorSize) g with
      | none => exact h₁
      | some x =>
        have hx := (hP.inRange img₁ h₁).skipSectors hg hskip
        simp only
        split
        · -- The write fits the sector.
          have h₂ := hP.data img₁ h₁ x hx (writeStart img₁ (fileMetaAt fs i) offset % fs.sectorSize) size buf (by omega)
          refine hP.growFile ?_ hname.lt
          split
          · exact hP.fat _ h₂ x hx 0xffff (.inl rfl)
          · exact h₂
        · have h₂ := hP.data img₁ h₁ x hx (writeStart img₁ (fileMetaAt fs i) offset % fs.sectorSize)
            (fs.sectorSize - writeStart img₁ (fileMetaAt fs i) offset % fs.sectorSize) buf (by omega)
          have h₃ := hP.writeRest h₂ buf size size
            (fs.sectorSize - writeStart img₁ (fileMetaAt fs i) offset % fs.sectorSize)
          generalize OSForReal.TagFS.writeRest fs buf size size _ _ = r at h₃
          obtain ⟨done, img₃, bufIndex⟩ := r
          cases done with
          | false => exact h₃
          | true => exact hP.growFile h₃ hname.lt
  · rw [habsent, if_pos rfl]
    exact h

/-- The loop of `tagfs_unlink` keeps what its writes keep. -/
theorem unlinkLoop (hP : KeptByWrites fs P) {fuel : Nat} (h : P img) (hx : x < fatCount fs)
    (hr : unlinkLoop fs fuel img x = .ok img') : P img' := by
  induction fuel generalizing img x with
  | zero => cases hr
  | succ fuel ih =>
    have h₁ := hP.fat img h x hx 0 (.inr rfl)
    rw [OSForReal.TagFS.unlinkLoop] at hr
    split at hr
    · obtain rfl := Res.ok.inj hr
      exact h₁
    · -- The entry that it follows is the one that it has just cleared.
      refine ih h₁ ?_ hr
      rw [fat_setFat_self (by decide)]
      omega

end KeptByWrites

/-! ## `tagfs_mknod` -/

/-- A new file: the first free entry gets its name, and has no data. -/
structure NewFile (fs : FSMetadata) (img : Bytes) (name : CStr) (i : Nat) (img' : Bytes) : Prop where
  lt : i < countFileMetaEntries fs
  unused : ¬ Used fs img i
  first_free : ∀ j < i, Used fs img j
  strlen : name.strlen < 24
  changes : ChangesOnly fs [i] [] [] img img'
  named : strcmpEq img' (nameAt (fileMetaAt fs i)) name = true
  first : firstDataSector img' (fileMetaAt fs i) = 0xffff
  size : fileSize img' (fileMetaAt fs i) = 0

/-- `tagfs_mknod` fails and changes nothing, or makes a new file. -/
theorem tagfsMknod_cases (hfs : fsMeta img = fs) (name : CStr) (regular : Bool) :
    (∃ e, e ≠ 0 ∧ tagfsMknod img name regular = (e, img)) ∨
      regular = true ∧ ∃ img', tagfsMknod img name regular = (0, img') ∧
        NewFile fs img name (findFreeFileMeta fs img) img' := by
  unfold tagfsMknod
  split
  · rename_i hregular
    split
    · exact .inl ⟨_, by decide, rfl⟩
    · rename_i hlen
      simp only [hfs]
      split
      · exact .inl ⟨_, by decide, rfl⟩
      · rename_i hne
        have hle : findFreeFileMeta fs img ≤ countFileMetaEntries fs := scan_le (Nat.zero_le _)
        have hi : findFreeFileMeta fs img < countFileMetaEntries fs := by omega
        refine .inr ⟨hregular, _, rfl, hi, findFreeFileMeta_not_used, fun j hj => ⟨by omega, ?_⟩, Nat.lt_of_not_le hlen,
          ?_, strcmpEq_strcpy, ?_, fileSize_finish (by decide)⟩
        · exact scan_before (p := fun i => fileMetadataEntryIsFree img (fileMetaAt fs i)) (Nat.zero_le j) hj
        · exact ((changes_setFirstDataSector hi).trans
            ((changes_setFileSize hi).trans (changes_setName hi (Nat.lt_of_not_le hlen)))).mono (by simp) (by simp)
            (by simp) (by simpa using hi) (by simp) (by simp)
        · rw [firstDataSector_finish]
          exact firstDataSector_setFirstDataSector (by decide)
  · exact .inl ⟨_, by decide, rfl⟩

/-- The name of a new file finds it, if no used entry has the name. -/
theorem NewFile.isNamed (h : NewFile fs img name i img') (L : Layout fs)
    (hfree : ∀ j, Used fs img j → strcmpEq img (nameAt (fileMetaAt fs j)) name = false) : Named fs img' name i := by
  refine ⟨h.lt, h.named, fun j hj => ?_⟩
  have hused := h.first_free j hj
  rw [h.changes.strcmpEq_eq L hused.1 (by simp; omega) h.strlen]
  exact hfree j hused

/-! ## Entries that keep their names -/

/-- The entry has the same name as before. -/
def SameName (fs : FSMetadata) (j : Nat) (img img' : Bytes) : Prop :=
  ∀ k < 24, img' (nameAt (fileMetaAt fs j) + k) = img (nameAt (fileMetaAt fs j) + k)

namespace SameName

theorem trans (h : SameName fs j img img') (h' : SameName fs j img' img'') : SameName fs j img img'' :=
  fun k hk => (h' k hk).trans (h k hk)

theorem strcmpEq_eq (h : SameName fs j img img') (hname : name.strlen < 24) :
    strcmpEq img' (nameAt (fileMetaAt fs j)) name = strcmpEq img (nameAt (fileMetaAt fs j)) name :=
  strcmpEq_congr fun x hx hx' => by
    obtain ⟨k, rfl⟩ := Nat.exists_eq_add_of_le hx
    exact h k (by omega)

theorem used_iff (h : SameName fs j img img') : Used fs img' j ↔ Used fs img j := by
  have h0 := h 0 (by decide)
  rw [Nat.add_zero] at h0
  unfold Used fileMetadataEntryIsFree
  rw [h0]

theorem of_changes {files fats sectors : List Nat} (L : Layout fs) (h : ChangesOnly fs files fats sectors img img')
    (hj : j < countFileMetaEntries fs) (hjf : j ∉ files) : SameName fs j img img' := fun k hk =>
  h.file L hj hjf ⟨by unfold nameAt; omega, by unfold nameAt; omega⟩

/-- The first eight bytes of an entry are not its name. -/
theorem of_header {n : Nat} {src : Nat → UInt8} {o : Nat} (ho : o + n ≤ 8) :
    SameName fs j img (copy img (fileMetaAt fs i + o) n src) := fun k hk => by
  apply copy_out
  simp only [nameAt, Layout.fileMetaAt_eq]
  omega

end SameName

/-! ## The first sector of a file -/

/-- What the first write to the file `i`, in the sector `g`, leaves in `img'`. -/
structure FirstWrite (fs : FSMetadata) (img : Bytes) (i g : Nat) (buf : Bytes) (size offset : Nat) (img' : Bytes) : Prop where
  changes : ChangesOnly fs [i] [g] [g] img img'
  sameName : SameName fs i img img'
  first : firstDataSector img' (fileMetaAt fs i) = g
  marked : fat fs img' g = 0xffff
  size_eq : fileSize img' (fileMetaAt fs i) = max (fileSize img (fileMetaAt fs i)) (offset + size)
  written : ∀ k < size, img' (sectorAt fs g + k) = buf k
  left : ∀ k, size ≤ k → k < fs.sectorSize → img' (sectorAt fs g + k) = img (sectorAt fs g + k)

theorem FirstWrite.isChain (h : FirstWrite fs img i g buf size offset img') :
    FatChain fs img' (firstDataSector img' (fileMetaAt fs i)) [g] := by
  rw [h.first]
  exact ⟨⟨rfl, h.marked⟩, h.changes.sectors_lt⟩

theorem tagfsWrite_first (buf : Bytes) (L : Layout fs) (hfs : fsMeta img = fs) (hname : Named fs img name i)
    (hfirst : firstDataSector img (fileMetaAt fs i) = 0xffff) (hempty : fileSize img (fileMetaAt fs i) = 0)
    (hfree : findFreeFat fs img = some g) (hsize : size ≤ fs.sectorSize) (hend : offset + size < 2 ^ 32) :
    ∃ img', tagfsWrite img name buf size offset = (toInt size, img') ∧ FirstWrite fs img i g buf size offset img' := by
  have hcount := L.fatCount_le
  have hi := hname.lt
  obtain ⟨hg, -⟩ := findFreeFat_some hfree
  refine ⟨_, tagfsWrite_fresh hfs (hname.fileId L) L hi hfirst hempty hfree hsize, ?_⟩
  -- The first sector of the entry, the data, the marker and the size, one after the other.
  have hstart : ChangesOnly fs [i] [] [] img (setFirstDataSector img (fileMetaAt fs i) g) := changes_setFirstDataSector hi
  have hstart_eq : firstDataSector (setFirstDataSector img (fileMetaAt fs i) g) (fileMetaAt fs i) = g :=
    firstDataSector_setFirstDataSector (by omega)
  have hstart_size : fileSize (setFirstDataSector img (fileMetaAt fs i) g) (fileMetaAt fs i) =
      fileSize img (fileMetaAt fs i) := fileSize_setFirstDataSector
  have hstart_name : SameName fs i img (setFirstDataSector img (fileMetaAt fs i) g) := SameName.of_header (o := 0) (by omega)
  generalize setFirstDataSector img (fileMetaAt fs i) g = A at hstart hstart_eq hstart_size hstart_name
  have hcopy : ChangesOnly fs [] [] [g] A (copy A (sectorAt fs g) size buf) := changes_sector (o := 0) hg (by omega)
  have hcopy_in : ∀ k < size, copy A (sectorAt fs g) size buf (sectorAt fs g + k) = buf k := fun k hk => by
    rw [copy_in (by omega) (by omega), Nat.add_sub_cancel_left]
  have hcopy_out : ∀ k, size ≤ k → copy A (sectorAt fs g) size buf (sectorAt fs g + k) = A (sectorAt fs g + k) :=
    fun k hk => copy_out (by omega)
  generalize copy A (sectorAt fs g) size buf = B at hcopy hcopy_in hcopy_out
  have hmark : ChangesOnly fs [] [g] [] B (setFat fs B g 0xffff) := changes_setFat hg
  have hmark_eq : fat fs (setFat fs B g 0xffff) g = 0xffff := fat_setFat_self (by decide)
  generalize setFat fs B g 0xffff = C at hmark hmark_eq
  have hgrow : ChangesOnly fs [i] [] [] C (growFile C (fileMetaAt fs i) (offset + size)) := changes_growFile hi
  have hAC := hcopy.trans hmark
  have hBD := hmark.trans hgrow
  constructor
  case changes =>
    exact (hstart.trans (hAC.trans hgrow)).mono (by simp) (by simp) (by simp) (by simpa using hi) (by simpa using hg)
      (by simpa using hg)
  case sameName =>
    refine hstart_name.trans (SameName.trans (.of_changes L hAC hi (by simp)) fun k hk => growFile_out ?_)
    simp only [nameAt]
    omega
  case first => rw [firstDataSector_growFile, hAC.firstDataSector_eq L hi (by simp), hstart_eq]
  case marked => exact (hgrow.fat_eq L hg (by simp)).trans hmark_eq
  case size_eq => rw [fileSize_growFile hend, hAC.fileSize_eq L hi (by simp), hstart_size]
  case written =>
    intro k hk
    rw [hBD.sector L hg (by simp) ⟨by omega, by omega⟩, hcopy_in k hk]
  case left =>
    intro k hk hk'
    rw [hBD.sector L hg (by simp) ⟨by omega, by omega⟩, hcopy_out k hk, hstart.sector L hg (by simp) ⟨by omega, by omega⟩]

/-! ## `tagfs_unlink` -/

/-- The entry of a file that is found. -/
theorem fileMetaAt_succ_sub (fs : FSMetadata) (i : Nat) : fileMetaAt fs (i + 1) - sizeofFileMetadata = fileMetaAt fs i := by
  rw [Layout.fileMetaAt_eq, Layout.fileMetaAt_eq, sizeofFileMetadata]
  omega

/-- The name of an entry is cleared. -/
theorem changes_clearName (hi : i < countFileMetaEntries fs) :
    ChangesOnly fs [i] [] [] img (copy img (nameAt (fileMetaAt fs i)) 1 fun _ => 0) := by
  apply changes_file hi <;> unfold nameAt <;> omega

/-- The entry whose name is cleared is free. -/
theorem not_used_clearName : ¬ Used fs (copy img (nameAt (fileMetaAt fs i)) 1 fun _ => 0) i := by
  rintro ⟨-, hused⟩
  unfold fileMetadataEntryIsFree at hused
  rw [copy_in (Nat.le_refl _) (Nat.lt_succ_self _)] at hused
  cases hused

theorem firstDataSector_clearName {e : Nat} :
    firstDataSector (copy img (nameAt e) 1 fun _ => 0) e = firstDataSector img e := by
  unfold nameAt
  exact u32_copy_out (by omega)

end OSForReal.Proof.TagFS
