import OSForReal.TagFS.Utils

/-!
# The sections of an image lie apart

`Geometry` is what the users of an image agree on: room for the header in the
first sector, no size that wraps, and one data sector for every FAT entry.
Its consequences for addresses are the fields of `Layout`. `ChangesOnly` says
which entries and sectors a command may change, and what it keeps is read off
once: the header, the other file entries, FAT entries and sectors.
-/

namespace OSForReal.Proof.TagFS

open Framework
open Framework.Bytes
open OSForReal.TagFS

/-- The bytes of the header that are read. -/
theorem fsMeta_congr {m m' : Bytes} (h : ∀ a < 32, m' a = m a) : fsMeta m' = fsMeta m := by
  unfold fsMeta
  congr 1 <;> exact u32_congr fun a _ ha => h a (by omega)

/-- An image geometry. -/
structure Geometry (fs : FSMetadata) : Prop where
  sectorSize : 36 ≤ fs.sectorSize
  total : fs.sectorCount * fs.sectorSize < 2 ^ 31
  fileMetas : countFileMetaEntries fs < 65536
  tagMetas : tagMetaEntryCount fs < 65536
  fats : fatCount fs ≤ 0xffff
  data : 1 + fs.fileMetaSectorCount + fs.tagMetaSectorCount + fs.tagFileSectorCount + fs.fatSectorCount +
    fatCount fs ≤ fs.sectorCount

/-- Where the sections of an image lie. -/
structure Layout (fs : FSMetadata) : Prop where
  sectorSize : 36 ≤ fs.sectorSize
  files : fs.sectorSize + 32 * countFileMetaEntries fs ≤ getTagMetadata fs
  tags : getTagMetadata fs + 32 * tagMetaEntryCount fs ≤ getTagFileArray fs
  links : getTagFileArray fs + 4 * tagFileEntryCount fs ≤ getFat fs
  fats : getFat fs + 2 * fatCount fs ≤ getData fs
  data : getData fs + fs.sectorSize * fatCount fs < 2 ^ 31
  fileMetas : countFileMetaEntries fs < 65536
  fatCount_le : fatCount fs ≤ 0xffff

theorem Geometry.layout {fs : FSMetadata} (G : Geometry fs) : Layout fs := by
  have hall : (1 + fs.fileMetaSectorCount + fs.tagMetaSectorCount + fs.tagFileSectorCount + fs.fatSectorCount +
      fatCount fs) * fs.sectorSize ≤ fs.sectorCount * fs.sectorSize := Nat.mul_le_mul_right _ G.data
  have htotal := G.total
  have hcomm : fs.sectorSize * fatCount fs = fatCount fs * fs.sectorSize := Nat.mul_comm _ _
  simp only [Nat.add_mul, Nat.one_mul] at hall
  refine ⟨G.sectorSize, ?_, ?_, ?_, ?_, ?_, G.fileMetas, G.fats⟩ <;>
    simp only [getTagMetadata, getTagFileArray, getFat, getData, hcomm, Nat.add_mul, Nat.one_mul]
  · simp only [countFileMetaEntries, sizeofFileMetadata]
    omega
  · simp only [tagMetaEntryCount, sizeofTagMetadata]
    omega
  · simp only [tagFileEntryCount, sizeofTagFileEntry]
    omega
  · have : fatCount fs = fs.fatSectorCount * fs.sectorSize % 2 ^ 32 / 2 := rfl
    omega
  · omega

/-! ## Addresses -/

/-- The bytes of a file entry. -/
def InFile (fs : FSMetadata) (i a : Nat) : Prop := fileMetaAt fs i ≤ a ∧ a < fileMetaAt fs i + 32

/-- The tag sections. -/
def InTags (fs : FSMetadata) (a : Nat) : Prop := getTagMetadata fs ≤ a ∧ a < getFat fs

/-- The bytes of a FAT entry. -/
def InFat (fs : FSMetadata) (i a : Nat) : Prop := fatAt fs i ≤ a ∧ a < fatAt fs i + 2

/-- The bytes of a data sector. -/
def InSector (fs : FSMetadata) (i a : Nat) : Prop := sectorAt fs i ≤ a ∧ a < sectorAt fs i + fs.sectorSize

namespace Layout

variable {fs : FSMetadata} {i j a : Nat}

theorem fileMetaAt_eq (fs : FSMetadata) (i : Nat) : fileMetaAt fs i = fs.sectorSize + 32 * i := rfl

theorem fatAt_eq (fs : FSMetadata) (i : Nat) : fatAt fs i = getFat fs + 2 * i := rfl

/-- Where there is a sector, its size is an `int`. -/
theorem sectorSize_lt (L : Layout fs) (hi : i < fatCount fs) : fs.sectorSize < 2 ^ 31 := by
  have hdata := L.data
  have hmul : fs.sectorSize * 1 ≤ fs.sectorSize * fatCount fs := Nat.mul_le_mul_left _ (Nat.zero_lt_of_lt hi)
  omega

theorem sectorAt_eq (L : Layout fs) (hi : i < fatCount fs) : sectorAt fs i = getData fs + fs.sectorSize * i := by
  have hdata := L.data
  have hmul : fs.sectorSize * i ≤ fs.sectorSize * fatCount fs := Nat.mul_le_mul_left _ (Nat.le_of_lt hi)
  unfold sectorAt
  rw [Nat.mod_eq_of_lt (by omega)]

theorem getData_le (fs : FSMetadata) (i : Nat) : getData fs ≤ sectorAt fs i := Nat.le_add_right _ _

theorem sector_lt (L : Layout fs) (h : i < j) (hj : j < fatCount fs) :
    sectorAt fs i + fs.sectorSize ≤ sectorAt fs j := by
  have hmul : fs.sectorSize * (i + 1) ≤ fs.sectorSize * j := Nat.mul_le_mul_left _ h
  rw [L.sectorAt_eq (Nat.lt_trans h hj), L.sectorAt_eq hj]
  rw [Nat.mul_add, Nat.mul_one] at hmul
  omega

/-- Two sectors lie apart. -/
theorem sector_apart (L : Layout fs) (hi : i < fatCount fs) (hj : j < fatCount fs) (h : InSector fs i a)
    (h' : InSector fs j a) : i = j := by
  unfold InSector at h h'
  rcases Nat.lt_trichotomy i j with hij | hij | hij
  · have := L.sector_lt hij hj
    omega
  · exact hij
  · have := L.sector_lt hij hi
    omega

theorem file_apart (h : InFile fs i a) (h' : InFile fs j a) : i = j := by
  unfold InFile at h h'
  rw [fileMetaAt_eq] at h h'
  omega

theorem fat_apart (h : InFat fs i a) (h' : InFat fs j a) : i = j := by
  unfold InFat at h h'
  rw [fatAt_eq] at h h'
  omega

end Layout

/-! ## What a command may change -/

/-- From `img` to `img'`, only the tag sections, the file entries `files`, the
FAT entries `fats` and the data sectors `sectors` change. -/
structure ChangesOnly (fs : FSMetadata) (files fats sectors : List Nat) (img img' : Bytes) : Prop where
  files_lt : ∀ i ∈ files, i < countFileMetaEntries fs
  fats_lt : ∀ i ∈ fats, i < fatCount fs
  sectors_lt : ∀ i ∈ sectors, i < fatCount fs
  keeps : ∀ a, (∀ i ∈ files, ¬ InFile fs i a) → ¬ InTags fs a → (∀ i ∈ fats, ¬ InFat fs i a) →
    (∀ i ∈ sectors, ¬ InSector fs i a) → img' a = img a

namespace ChangesOnly

variable {fs : FSMetadata} {files fats sectors files' fats' sectors' : List Nat} {img img' img'' : Bytes}
  {i a k : Nat}

theorem refl (fs : FSMetadata) (img : Bytes) : ChangesOnly fs [] [] [] img img :=
  ⟨by simp, by simp, by simp, fun _ _ _ _ _ => rfl⟩

theorem trans (h : ChangesOnly fs files fats sectors img img')
    (h' : ChangesOnly fs files' fats' sectors' img' img'') :
    ChangesOnly fs (files ++ files') (fats ++ fats') (sectors ++ sectors') img img'' := by
  refine ⟨?_, ?_, ?_, ?_⟩
  · exact fun i hi => (List.mem_append.mp hi).elim (h.files_lt i) (h'.files_lt i)
  · exact fun i hi => (List.mem_append.mp hi).elim (h.fats_lt i) (h'.fats_lt i)
  · exact fun i hi => (List.mem_append.mp hi).elim (h.sectors_lt i) (h'.sectors_lt i)
  · intro a hf ht hx hs
    rw [h'.keeps a (fun i hi => hf i (List.mem_append_right _ hi)) ht (fun i hi => hx i (List.mem_append_right _ hi))
      (fun i hi => hs i (List.mem_append_right _ hi))]
    exact h.keeps a (fun i hi => hf i (List.mem_append_left _ hi)) ht (fun i hi => hx i (List.mem_append_left _ hi))
      (fun i hi => hs i (List.mem_append_left _ hi))

theorem mono (h : ChangesOnly fs files fats sectors img img') (hf : files ⊆ files') (hx : fats ⊆ fats')
    (hs : sectors ⊆ sectors') (hf' : ∀ i ∈ files', i < countFileMetaEntries fs) (hx' : ∀ i ∈ fats', i < fatCount fs)
    (hs' : ∀ i ∈ sectors', i < fatCount fs) : ChangesOnly fs files' fats' sectors' img img' :=
  ⟨hf', hx', hs', fun a h1 h2 h3 h4 => h.keeps a (fun i hi => h1 i (hf hi)) h2 (fun i hi => h3 i (hx hi))
    fun i hi => h4 i (hs hi)⟩

/-! ### What is kept -/

theorem header (h : ChangesOnly fs files fats sectors img img') (L : Layout fs) (ha : a < fs.sectorSize) :
    img' a = img a := by
  have hfiles := L.files; have htags := L.tags; have hlinks := L.links; have hfats := L.fats
  refine h.keeps a (fun i _ hi => ?_) (fun hi => ?_) (fun i _ hi => ?_) (fun i _ hi => ?_)
  · have := hi.1
    rw [Layout.fileMetaAt_eq] at this
    omega
  · have := hi.1
    omega
  · have := hi.1
    rw [Layout.fatAt_eq] at this
    omega
  · have := hi.1
    have := Layout.getData_le fs i
    omega

/-- A command does not change the `FS_Metadata`. -/
theorem fsMeta_eq (h : ChangesOnly fs files fats sectors img img') (L : Layout fs) : fsMeta img' = fsMeta img := by
  have hs := L.sectorSize
  exact fsMeta_congr fun x _ => h.header L (by omega)

theorem file (h : ChangesOnly fs files fats sectors img img') (L : Layout fs) (hi : i < countFileMetaEntries fs)
    (hif : i ∉ files) (ha : InFile fs i a) : img' a = img a := by
  have hfiles := L.files; have htags := L.tags; have hlinks := L.links; have hfats := L.fats
  have hend : a < fs.sectorSize + 32 * countFileMetaEntries fs := by
    have := ha.2
    rw [Layout.fileMetaAt_eq] at this
    omega
  refine h.keeps a (fun j hj hja => ?_) (fun hja => ?_) (fun j _ hja => ?_) (fun j _ hja => ?_)
  · exact hif (Layout.file_apart ha hja ▸ hj)
  · have := hja.1
    omega
  · have := hja.1
    rw [Layout.fatAt_eq] at this
    omega
  · have := hja.1
    have := Layout.getData_le fs j
    omega

theorem firstDataSector_eq (h : ChangesOnly fs files fats sectors img img') (L : Layout fs)
    (hi : i < countFileMetaEntries fs) (hif : i ∉ files) :
    firstDataSector img' (fileMetaAt fs i) = firstDataSector img (fileMetaAt fs i) :=
  u32_congr fun x _ _ => h.file L hi hif ⟨by omega, by omega⟩

theorem fileSize_eq (h : ChangesOnly fs files fats sectors img img') (L : Layout fs)
    (hi : i < countFileMetaEntries fs) (hif : i ∉ files) :
    fileSize img' (fileMetaAt fs i) = fileSize img (fileMetaAt fs i) :=
  u32_congr fun x _ _ => h.file L hi hif ⟨by omega, by omega⟩

theorem isFree_eq (h : ChangesOnly fs files fats sectors img img') (L : Layout fs)
    (hi : i < countFileMetaEntries fs) (hif : i ∉ files) :
    fileMetadataEntryIsFree img' (fileMetaAt fs i) = fileMetadataEntryIsFree img (fileMetaAt fs i) := by
  unfold fileMetadataEntryIsFree nameAt
  rw [h.file L hi hif ⟨by omega, by omega⟩]

/-- A name of less than 24 bytes is compared within its entry. -/
theorem strcmpEq_eq (h : ChangesOnly fs files fats sectors img img') (L : Layout fs)
    (hi : i < countFileMetaEntries fs) (hif : i ∉ files) {name : CStr} (hname : name.strlen < 24) :
    strcmpEq img' (nameAt (fileMetaAt fs i)) name = strcmpEq img (nameAt (fileMetaAt fs i)) name := by
  unfold nameAt
  exact strcmpEq_congr fun x _ _ => h.file L hi hif ⟨by omega, by omega⟩

theorem fat_eq (h : ChangesOnly fs files fats sectors img img') (L : Layout fs) (hi : i < fatCount fs)
    (hix : i ∉ fats) : fat fs img' i = fat fs img i := by
  have hfiles := L.files; have htags := L.tags; have hlinks := L.links; have hfats := L.fats
  refine u16_congr fun x hx hx' => h.keeps x (fun j hj hja => ?_) (fun hja => ?_) (fun j hj hja => ?_) (fun j _ hja => ?_)
  · have := h.files_lt j hj
    have := hja.2
    rw [Layout.fileMetaAt_eq] at this
    rw [Layout.fatAt_eq] at hx
    omega
  · have := hja.2
    rw [Layout.fatAt_eq] at hx
    omega
  · exact hix (Layout.fat_apart ⟨hx, hx'⟩ hja ▸ hj)
  · have := hja.1
    have := Layout.getData_le fs j
    rw [Layout.fatAt_eq] at hx'
    omega

theorem sector (h : ChangesOnly fs files fats sectors img img') (L : Layout fs) (hi : i < fatCount fs)
    (his : i ∉ sectors) (ha : InSector fs i a) : img' a = img a := by
  have hfiles := L.files; have htags := L.tags; have hlinks := L.links; have hfats := L.fats
  have hdata : getData fs ≤ a := Nat.le_trans (Layout.getData_le fs i) ha.1
  refine h.keeps a (fun j hj hja => ?_) (fun hja => ?_) (fun j hj hja => ?_) (fun j hj hja => ?_)
  · have := h.files_lt j hj
    have := hja.2
    rw [Layout.fileMetaAt_eq] at this
    omega
  · have := hja.2
    omega
  · have := h.fats_lt j hj
    have := hja.2
    rw [Layout.fatAt_eq] at this
    omega
  · exact his (L.sector_apart hi (h.sectors_lt j hj) ha hja ▸ hj)

end ChangesOnly

/-! ## The writes -/

variable {fs : FSMetadata} {img : Bytes} {i n o v : Nat} {src : Nat → UInt8}

/-- A write within a file entry. -/
theorem changes_file {b : Nat} (hi : i < countFileMetaEntries fs) (hb : fileMetaAt fs i ≤ b)
    (hn : b + n ≤ fileMetaAt fs i + 32) : ChangesOnly fs [i] [] [] img (copy img b n src) := by
  refine ⟨by simpa using hi, by simp, by simp, fun a hf _ _ _ => copy_out ?_⟩
  have : ¬ InFile fs i a := hf i (List.mem_singleton_self i)
  unfold InFile at this
  omega

theorem changes_setFirstDataSector (hi : i < countFileMetaEntries fs) :
    ChangesOnly fs [i] [] [] img (setFirstDataSector img (fileMetaAt fs i) v) :=
  changes_file hi (by omega) (by omega)

theorem changes_setFileSize (hi : i < countFileMetaEntries fs) :
    ChangesOnly fs [i] [] [] img (setFileSize img (fileMetaAt fs i) v) :=
  changes_file hi (by omega) (by omega)

theorem changes_setName (hi : i < countFileMetaEntries fs) {name : CStr} (hname : name.strlen < 24) :
    ChangesOnly fs [i] [] [] img (setName img (fileMetaAt fs i) name) := by
  unfold setName strcpy nameAt
  exact changes_file hi (by omega) (by omega)

theorem changes_setFat (hi : i < fatCount fs) : ChangesOnly fs [] [i] [] img (setFat fs img i v) := by
  refine ⟨by simp, by simpa using hi, by simp, fun a _ _ hx _ => setU16_out ?_⟩
  have : ¬ InFat fs i a := hx i (List.mem_singleton_self i)
  unfold InFat at this
  omega

/-- A write within a sector. -/
theorem changes_sector (hi : i < fatCount fs) (hn : o + n ≤ fs.sectorSize) :
    ChangesOnly fs [] [] [i] img (copy img (sectorAt fs i + o) n src) := by
  refine ⟨by simp, by simp, by simpa using hi, fun a _ _ _ hs => copy_out ?_⟩
  have : ¬ InSector fs i a := hs i (List.mem_singleton_self i)
  unfold InSector at this
  omega

/-- A write in the tag sections. -/
theorem changes_tags {b : Nat} (hb : getTagMetadata fs ≤ b) (hn : b + n ≤ getFat fs) :
    ChangesOnly fs [] [] [] img (copy img b n src) := by
  refine ⟨by simp, by simp, by simp, fun a _ ht _ _ => copy_out ?_⟩
  unfold InTags at ht
  omega

theorem fat_setFat_self (hv : v < 2 ^ 16) : fat fs (setFat fs img i v) i = v := u16_setU16 hv

theorem fat_setFat_ne {j : Nat} (h : j ≠ i) : fat fs (setFat fs img i v) j = fat fs img j := by
  unfold fat setFat setU16
  apply u16_copy_out
  rw [Layout.fatAt_eq, Layout.fatAt_eq]
  omega

end OSForReal.Proof.TagFS
