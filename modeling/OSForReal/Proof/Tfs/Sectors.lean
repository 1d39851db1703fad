import OSForReal.Proof.Tfs.View
import OSForReal.Proof.TagFS.Read

/-!
# Sectors, metadata and the FAT as the kernel reads them

On an image with 512-byte sectors and two FAT sectors (`KernelImage`), the
sectors that the driver addresses are those of the image, and an entry of the
file metadata is found where its name is, if it is the name of no other
(`OnlyNamed`). Of the FAT in memory, the entries below 256 are those of the
disk, and the others hold what the memory held (`fatsAt_high`).
-/

namespace OSForReal.Proof.Tfs

open Framework
open Framework.Bytes
open OSForReal.TagFS
open OSForReal.Proof.TagFS

variable {fs : FSMetadata} {img view : Bytes} {path : CStr} {lba i j k n o : Nat} {src : Nat → UInt8}

/-- An image that the driver can mount. -/
structure KernelImage (fs : FSMetadata) : Prop extends Geometry fs where
  sectorSize_eq : fs.sectorSize = 512
  fats_eq : fs.fatSectorCount = 2

/-! ## Addresses -/

theorem strcmpEq_diskSector {a : Nat} : strcmpEq (diskSector img lba) a path = strcmpEq img (512 * lba + a) path := by
  rw [Bool.eq_iff_iff, strcmpEq_iff, strcmpEq_iff]
  simp only [diskSector, Nat.add_assoc]

/-- Writing a sector back as it was read. -/
theorem writeDiskSector_self : writeDiskSector img lba (diskSector img lba) = img := by
  funext a
  unfold writeDiskSector
  by_cases ha : 512 * lba ≤ a ∧ a < 512 * lba + 512
  · rw [copy_in ha.1 ha.2, diskSector, Nat.add_sub_of_le ha.1]
  · exact copy_out (by omega)

/-- A copy within the sector that is written is a copy to the disk. -/
theorem writeDiskSector_copy {sector : Bytes} (h : o + n ≤ 512) :
    writeDiskSector img lba (copy sector o n src) = copy (writeDiskSector img lba sector) (512 * lba + o) n src := by
  funext a
  unfold writeDiskSector
  by_cases ha : 512 * lba ≤ a ∧ a < 512 * lba + 512
  · rw [copy_in ha.1 ha.2]
    by_cases hin : 512 * lba + o ≤ a ∧ a < 512 * lba + o + n
    · rw [copy_in hin.1 hin.2, copy_in (by omega) (by omega), Nat.sub_sub]
    · rw [copy_out (by omega), copy_out (m := copy img (512 * lba) 512 sector) (by omega), copy_in ha.1 ha.2]
  · rw [copy_out (by omega), copy_out (by omega), copy_out (by omega)]

/-- A sector that is patched within its bounds. -/
theorem patchedSector_eq (h : o + n ≤ 512) : patchedSector img lba o n src = copy img (512 * lba + o) n src := by
  rw [patchedSector, writeDiskSector_copy h, writeDiskSector_self]

namespace KernelImage

variable (K : KernelImage fs)

include K

theorem fatCount_eq : fatCount fs = 512 := by
  have h : fatCount fs = 2 * 512 % 2 ^ 32 / 2 := by
    rw [fatCount, K.sectorSize_eq, K.fats_eq]
  omega

/-- The sections take fewer than 2²² sectors. -/
theorem sections_lt : 1 + fs.fileMetaSectorCount + fs.tagMetaSectorCount + fs.tagFileSectorCount + 514 < 2 ^ 22 := by
  have hdata := K.data; have htotal := K.total
  rw [K.sectorSize_eq] at htotal
  rw [K.fatCount_eq, K.fats_eq] at hdata
  omega

theorem entries_eq : countFileMetaEntries fs = 16 * fs.fileMetaSectorCount := by
  have hlt := K.sections_lt
  simp only [countFileMetaEntries, sizeofFileMetadata, K.sectorSize_eq]
  omega

theorem fatLba : 512 * tfsGetFatLba fs = getFat fs := by
  have hlt := K.sections_lt
  simp only [tfsGetFatLba, tfsGetTagFileArrayLba, tfsGetTagMetadataLba, tfsGetFileMetadataLba, getFat, K.sectorSize_eq]
  omega

/-- The sector of a FAT entry, whatever the entry is. -/
theorem sectorLba (hi : i < 2 ^ 16) : 512 * tfsSectorLba fs i = sectorAt fs i := by
  have hlt := K.sections_lt
  simp only [tfsSectorLba, tfsGetDataLba, tfsGetFatLba, tfsGetTagFileArrayLba, tfsGetTagMetadataLba,
    tfsGetFileMetadataLba, sectorAt, getData, K.sectorSize_eq, K.fats_eq]
  omega

theorem sectorAt_eq (hi : i < 2 ^ 16) : sectorAt fs i = getData fs + 512 * i := by
  simp only [sectorAt, K.sectorSize_eq]
  omega

/-- Every sector that an entry can name has an address. -/
theorem sectorLba_le (hi : i < 2 ^ 16) : tfsSectorLba fs i ≤ 0xfffffff := by
  have hlt := K.sections_lt
  have hlba := K.sectorLba hi
  rw [K.sectorAt_eq hi, getData, K.sectorSize_eq, K.fats_eq] at hlba
  omega

theorem metaAt (i : Nat) : 512 * (1 + i / 16) + 32 * (i % 16) = fileMetaAt fs i := by
  simp only [fileMetaAt, getFileMetadata, sizeofFileMetadata, K.sectorSize_eq]
  omega

end KernelImage

/-! ## The search for a name -/

theorem searchEntries_congr {p p' : Nat → Bool} {total fileCount : Nat} (hp : ∀ j, i ≤ j → j < i + k → p j = p' j) :
    searchEntries p total k i fileCount = searchEntries p' total k i fileCount := by
  induction k generalizing i fileCount with
  | zero => rfl
  | succ k ih =>
    rw [searchEntries, searchEntries, hp i (Nat.le_refl i) (by omega), ih fun j hj hj' => hp j (by omega) (by omega)]

/-- The inner loop, when it has room to count: the first entry of which `p` holds. -/
theorem searchEntries_spec (p : Nat → Bool) {total fileCount : Nat} (i : Nat) (h : fileCount + k ≤ total) :
    (∃ j, i ≤ j ∧ j < i + k ∧ p j = true ∧ searchEntries p total k i fileCount = (some j, fileCount + (j - i))) ∨
      (∀ j, i ≤ j → j < i + k → p j = false) ∧ searchEntries p total k i fileCount = (none, fileCount + k) := by
  induction k generalizing i fileCount with
  | zero => exact .inr ⟨fun j hj hj' => by omega, rfl⟩
  | succ k ih =>
    rw [searchEntries]
    split
    · rename_i hp
      exact .inl ⟨i, Nat.le_refl i, by omega, hp, by rw [Nat.sub_self, Nat.add_zero]⟩
    · rename_i hp
      rw [if_neg (by omega)]
      rcases @ih (fileCount + 1) (i + 1) (by omega) with ⟨j, hj, hj', hpj, hr⟩ | ⟨hnone, hr⟩
      · refine .inl ⟨j, by omega, by omega, hpj, ?_⟩
        rw [hr]
        congr 1
        omega
      · refine .inr ⟨fun j hj hj' => ?_, ?_⟩
        · by_cases hji : j = i
          · rw [hji]
            simpa using hp
          · exact hnone j (by omega) (by omega)
        · rw [hr]
          congr 1
          omega

/-- The name is that of entry `i`, and of no other. -/
structure OnlyNamed (fs : FSMetadata) (img : Bytes) (name : CStr) (i : Nat) : Prop where
  lt : i < countFileMetaEntries fs
  found : strcmpEq img (nameAt (fileMetaAt fs i)) name = true
  only : ∀ j < countFileMetaEntries fs, strcmpEq img (nameAt (fileMetaAt fs j)) name = true → j = i

theorem OnlyNamed.named (h : OnlyNamed fs img path i) : Named fs img path i := by
  refine ⟨h.lt, h.found, fun j hj => ?_⟩
  by_contra hne
  have hlt := h.lt
  have := h.only j (by omega) (by simpa using hne)
  omega

/-- The entries of a sector, as entries of the image. -/
theorem strcmpEq_entry (K : KernelImage fs) :
    strcmpEq (diskSector img (1 + k)) (nameAt (sizeofFileMetadata * i)) path =
      strcmpEq img (nameAt (fileMetaAt fs (16 * k + i))) path := by
  rw [strcmpEq_diskSector]
  congr 1
  simp only [nameAt, fileMetaAt, getFileMetadata, sizeofFileMetadata, K.sectorSize_eq]
  omega

/-- The outer loop, from sector `k` on: what is found there last. -/
theorem viewSearch_spec (K : KernelImage fs) {result : Option (Nat × Nat)} {fileCount : Nat}
    (hcount : fileCount ≤ 16 * k) (hn : k + n = fs.fileMetaSectorCount) :
    ((∀ j, 16 * k ≤ j → j < 16 * (k + n) → strcmpEq img (nameAt (fileMetaAt fs j)) path = false) →
      viewSearch fs img path n (1 + k) fileCount result = result) ∧
    ∀ e, 16 * k ≤ e → OnlyNamed fs img path e →
      viewSearch fs img path n (1 + k) fileCount result = some (1 + e / 16, 32 * (e % 16)) := by
  have hsize : fs.sectorSize / sizeofFileMetadata = 16 := by
    rw [K.sectorSize_eq]
    rfl
  have htotal : tfsCountFileMetaEntries fs = 16 * fs.fileMetaSectorCount := K.entries_eq
  induction n generalizing k fileCount result with
  | zero =>
    refine ⟨fun _ => rfl, fun e he hnamed => ?_⟩
    have hlt := hnamed.lt
    rw [K.entries_eq] at hlt
    omega
  | succ n ih =>
    rw [viewSearch, hsize]
    have hentries := K.entries_eq
    have hroom : fileCount + 16 ≤ tfsCountFileMetaEntries fs := by omega
    rcases searchEntries_spec (fun i => strcmpEq (diskSector img (1 + k)) (nameAt (sizeofFileMetadata * i)) path) 0 hroom
      with ⟨j, -, hj, hfound, hr⟩ | ⟨hnone, hr⟩
    · rw [strcmpEq_entry K] at hfound
      obtain ⟨hrest, -⟩ := @ih (k + 1) (some (1 + k, 32 * j)) (fileCount + (j - 0)) (by omega) (by omega)
      rw [hr]
      refine ⟨fun hnone => ?_, fun e he hnamed => ?_⟩
      · rw [hnone _ (by omega) (by omega)] at hfound
        cases hfound
      · -- The name is that of this entry, and of no later one.
        obtain rfl : 16 * k + j = e := hnamed.only _ (by omega) hfound
        have hr' := hrest fun j' hj' hlt => by
          by_contra hne
          have := hnamed.only j' (by omega) (by simpa using hne)
          omega
        rw [show (16 * k + j) / 16 = k by omega, show (16 * k + j) % 16 = j by omega]
        exact hr'
    · obtain ⟨hrest, hrest'⟩ := @ih (k + 1) result (fileCount + 16) (by omega) (by omega)
      rw [hr]
      refine ⟨fun h => hrest fun j hj hlt => h j (by omega) (by omega), fun e he hnamed => hrest' e ?_ hnamed⟩
      by_contra hlt
      have hmiss := hnone (e - 16 * k) (by omega) (by omega)
      rw [strcmpEq_entry K, show 16 * k + (e - 16 * k) = e by omega, hnamed.found] at hmiss
      cases hmiss

/-- A name is found at its entry. -/
theorem metadata_found (K : KernelImage fs) (h : OnlyNamed fs img path i) :
    viewMetadata fs img path = some (1 + i / 16, 32 * (i % 16)) :=
  (viewSearch_spec K (Nat.zero_le 0) (Nat.zero_add _)).2 i (Nat.zero_le i) h

/-- A name of no entry is not found. -/
theorem metadata_absent (K : KernelImage fs)
    (h : ∀ j < countFileMetaEntries fs, strcmpEq img (nameAt (fileMetaAt fs j)) path = false) :
    viewMetadata fs img path = none :=
  (viewSearch_spec K (Nat.zero_le 0) (Nat.zero_add _)).1 fun j _ hj => h j (by rw [K.entries_eq]; omega)

/-! ## The FAT in memory -/

theorem fatsAt_lt {fats : Bytes} : fatsAt fats i < 2 ^ 16 := u16_lt

/-- The first sector of the FAT is read. -/
theorem fatsAt_low (K : KernelImage fs) (hi : i < 256) : fatsAt (viewFats fs img view) i = fat fs img i := by
  have hbyte : ∀ a < 512, viewFats fs img view a = img (getFat fs + a) := fun a ha => by
    unfold viewFats
    rw [copy_in (by omega) (by omega), diskSector, K.fatLba, Nat.sub_zero]
  unfold fatsAt fat u16
  rw [hbyte _ (by omega), hbyte _ (by omega), Layout.fatAt_eq, Nat.add_assoc]

/-- Where the second sector of the FAT should be is what the memory held. -/
theorem fatsAt_high (hi : 256 ≤ i) : fatsAt (viewFats fs img view) i = u16 view (2 * i) := by
  have hbyte : ∀ a, 512 ≤ a → viewFats fs img view a = view a := fun a ha => copy_out (by omega)
  unfold fatsAt u16
  rw [hbyte _ (by omega), hbyte _ (by omega)]

/-- The memory behind the first FAT sector, where the second should be, is `p`. -/
def Shows (view p : Bytes) : Prop := ∀ k, 512 ≤ k → k < 1024 → view k = p k

theorem Shows.refl (view : Bytes) : Shows view view := fun _ _ _ => rfl

theorem fatsAt_shows {p : Bytes} (hp : Shows view p) (hi : 256 ≤ i) (hi' : i < 512) :
    fatsAt (viewFats fs img view) i = u16 p (2 * i) :=
  (fatsAt_high hi).trans (u16_congr fun a ha ha' => hp a (by omega) (by omega))

/-- Skipping arrives at an entry that the FAT names. -/
theorem skipFats_lt {fats : Bytes} {x : Nat} (hi : i < 2 ^ 16) (h : skipFats fats k i = some x) : x < 2 ^ 16 := by
  induction k generalizing i with
  | zero =>
    obtain rfl := Option.some.inj h
    exact hi
  | succ k ih =>
    rw [skipFats] at h
    split at h
    · cases h
    · exact ih fatsAt_lt h

/-- Skipping sectors along entries that are those of the disk. -/
theorem skipFats_eq {fats : Bytes} {g b : Nat} {l : List Nat} (h : Chain (fat fs img) g l b) (hk : k ≤ l.length)
    (hfats : ∀ x ∈ l.take k, fatsAt fats x = fat fs img x) : skipFats fats k g = skipSectors fs img k g := by
  induction k generalizing g l with
  | zero => rfl
  | succ k ih =>
    obtain ⟨x, l, rfl⟩ := List.exists_cons_of_length_pos (Nat.zero_lt_of_lt hk)
    obtain ⟨rfl, htail⟩ := h
    rw [List.take_succ_cons] at hfats
    rw [skipFats, skipSectors, hfats g List.mem_cons_self,
      ih htail (Nat.le_of_succ_le_succ hk) fun x hx => hfats x (List.mem_cons_of_mem _ hx)]

end OSForReal.Proof.Tfs
