import OSForReal.Framework.Ownership
import OSForReal.Framework.Run
import OSForReal.Proof.TagFS.Copy

/-!
# What `write_files` does

`writeFile_cases` says all that one pass of the loop over the file specs can
do: nothing, or what `Stored` lists. A command always comes to its end
(`writeFileSpecs_return`).
-/

namespace OSForReal.Proof.TagFS

open Framework
open Framework.Bytes
open OSForReal.TagFS

variable {fs : FSMetadata} {img img' : Bytes} {src : List UInt8} {dst : CStr} {tags : List CStr}

/-! ## Tags -/

theorem tagMetaAt_within (L : Layout fs) {i : Nat} (hi : i < tagMetaEntryCount fs) :
    getTagMetadata fs ≤ tagMetaAt fs i ∧ tagMetaAt fs i + 32 ≤ getFat fs := by
  have htags := L.tags; have hlinks := L.links
  simp only [tagMetaAt, sizeofTagMetadata]
  omega

theorem tagFileAt_within (L : Layout fs) {i : Nat} (hi : i < tagFileEntryCount fs) :
    getTagMetadata fs ≤ tagFileAt fs i ∧ tagFileAt fs i + 4 ≤ getFat fs := by
  have htags := L.tags; have hlinks := L.links
  simp only [tagFileAt, sizeofTagFileEntry]
  omega

theorem findOrCreateTag_changes (L : Layout fs) {tag : CStr} (htag : tag.strlen < 28) :
    ChangesOnly fs [] [] [] img (findOrCreateTag fs img tag).2 := by
  simp only [findOrCreateTag]
  split
  · exact .refl fs img
  · split
    · rename_i hi
      have hin := tagMetaAt_within L hi
      show ChangesOnly fs [] [] [] img (strcpy img _ tag)
      unfold strcpy
      exact changes_tags hin.1 (by omega)
    · exact .refl fs img

theorem linkTagToFile_changes (L : Layout fs) (tagId fileId : Nat) :
    ChangesOnly fs [] [] [] img (linkTagToFile fs img tagId fileId) := by
  simp only [linkTagToFile]
  split
  · exact .refl fs img
  · split
    · rename_i hi
      have hin := tagFileAt_within L hi
      exact (changes_tags hin.1 (by omega)).trans (changes_tags (by omega) (by omega))
    · exact .refl fs img

/-- Linking tags changes the tag sections only. -/
theorem linkTags_changes (L : Layout fs) (fileId : Nat) (htags : ∀ tag ∈ tags, tag.strlen < 28) :
    ChangesOnly fs [] [] [] img (linkTags fs fileId tags img) := by
  induction tags generalizing img with
  | nil => exact .refl fs img
  | cons tag tags ih =>
    have hcreate : ChangesOnly fs [] [] [] img (findOrCreateTag fs img tag).2 :=
      findOrCreateTag_changes L (htags tag List.mem_cons_self)
    have hrest : ∀ img, ChangesOnly fs [] [] [] img (linkTags fs fileId tags img) :=
      fun img => ih fun t ht => htags t (List.mem_cons_of_mem _ ht)
    simp only [linkTags, List.foldl_cons] at hrest ⊢
    split
    · exact (hcreate.trans (linkTagToFile_changes L _ _)).trans (hrest _)
    · exact hcreate.trans (hrest _)

/-! ## One file -/

/-- The file entry, of index `i`, is in use. -/
def Used (fs : FSMetadata) (img : Bytes) (i : Nat) : Prop :=
  i < countFileMetaEntries fs ∧ fileMetadataEntryIsFree img (fileMetaAt fs i) = false

/-- An entry with a name is in use. -/
theorem used_of_name {i : Nat} {name : CStr} (hi : i < countFileMetaEntries fs)
    (hname : strcmpEq img (nameAt (fileMetaAt fs i)) name = true) (hne : name.chars ≠ []) : Used fs img i := by
  refine ⟨hi, ?_⟩
  unfold fileMetadataEntryIsFree
  simp [strcmpEq_first hname, hne]

/-- The name of an entry in use is not empty. -/
theorem Used.name_ne {i : Nat} {name : CStr} (h : Used fs img i)
    (hname : strcmpEq img (nameAt (fileMetaAt fs i)) name = true) : name.chars ≠ [] := fun he => by
  have hused := h.2
  rw [fileMetadataEntryIsFree, (strcmpEq_first hname).mpr he] at hused
  cases hused

/-- What the loop over the file specs requires to store a file. -/
def Accepted (fs : FSMetadata) (img : Bytes) (src : List UInt8) (dst : CStr) : Prop :=
  isTagfsFile dst src.length = true ∧ findFreeFileMeta fs img < countFileMetaEntries fs ∧
    nextFreeFat fs img 0 < fatCount fs

instance : Decidable (Accepted fs img src dst) := by
  unfold Accepted
  infer_instance

/-- What storing the file `src` under the name `dst` makes of an image: the
entry `i` holds the first `c` bytes, in the sectors `l`. -/
structure Stored (fs : FSMetadata) (src : List UInt8) (dst : CStr) (img : Bytes) (i : Nat) (l : List Nat) (c : Nat)
    (img' : Bytes) : Prop where
  index : i = findFreeFileMeta fs img
  lt : i < countFileMetaEntries fs
  changes : ChangesOnly fs [i] l l img img'
  chain : Chain (fat fs img') (firstDataSector img' (fileMetaAt fs i)) l 0xffff
  size : fileSize img' (fileMetaAt fs i) = c
  name : strcmpEq img' (nameAt (fileMetaAt fs i)) dst = true
  free : ∀ x ∈ l, fat fs img x = 0
  taken : ∀ x ∈ l, fat fs img' x ≠ 0
  length_le : c ≤ src.length
  sectors : l.length = sectorsFor fs c
  full : c = src.length ∨ c = fs.sectorSize * l.length ∧ ∀ x, x < fatCount fs → fat fs img x = 0 → x ∈ l
  data : ∀ k < c, img' (sectorAt fs (l.getD (k / fs.sectorSize) 0) + k % fs.sectorSize) = src.getD k 0
  first : firstDataSector img' (fileMetaAt fs i) = nextFreeFat fs img 0

theorem isTagfsFile_iff {n : Nat} : isTagfsFile dst n = true ↔ n ≤ 0xffffffff ∧ dst.strlen < 24 := by
  unfold isTagfsFile
  split
  · simp
    omega
  · split
    · simp
      omega
    · simp
      omega

/-- Writing the size and the name of an entry leaves its first sector. -/
theorem firstDataSector_finish {e c : Nat} :
    firstDataSector (setName (setFileSize img e c) e dst) e = firstDataSector img e := by
  unfold firstDataSector setName setFileSize strcpy setU32 nameAt
  rw [u32_copy_out (by omega), u32_copy_out (by omega)]

theorem fileSize_finish {e c : Nat} (hc : c < 2 ^ 32) : fileSize (setName (setFileSize img e c) e dst) e = c := by
  unfold fileSize setName strcpy nameAt
  rw [u32_copy_out (by omega)]
  exact u32_setU32 hc

/-- What follows the copy loop stores the file. -/
theorem stored_of_copied {i g c : Nat} {l : List Nat} {img₁ : Bytes} (L : Layout fs)
    (htags : ∀ tag ∈ tags, tag.strlen < 28) (hindex : i = findFreeFileMeta fs img) (hi : i < countFileMetaEntries fs)
    (hg : g = nextFreeFat fs img 0) (hgn : g < fatCount fs) (hsize : src.length ≤ 0xffffffff) (hname : dst.strlen < 24)
    (h : Copied fs src g 0 (setFirstDataSector img (fileMetaAt fs i) g) l c img₁) :
    Stored fs src dst img i l c
      (linkTags fs (i + 1) tags (setName (setFileSize img₁ (fileMetaAt fs i) c) (fileMetaAt fs i) dst)) := by
  have hcount := L.fatCount_le
  have hfirst : ChangesOnly fs [i] [] [] img (setFirstDataSector img (fileMetaAt fs i) g) :=
    changes_setFirstDataSector hi
  have hfinish : ChangesOnly fs [i] [] [] img₁ (setName (setFileSize img₁ (fileMetaAt fs i) c) (fileMetaAt fs i) dst) :=
    ((changes_setFileSize hi).trans (changes_setName hi hname)).mono (by simp) (by simp) (by simp) (by simpa using hi)
      (by simp) (by simp)
  have hlink : ChangesOnly fs [] [] [] _
      (linkTags fs (i + 1) tags (setName (setFileSize img₁ (fileMetaAt fs i) c) (fileMetaAt fs i) dst)) :=
    linkTags_changes L (i + 1) htags
  have hafter := hfinish.trans hlink
  have hc : c < 2 ^ 32 := by
    have := h.length_le
    omega
  -- The FAT is the one that the loop leaves, and the one that it found.
  have hfat : ∀ x, x < fatCount fs → fat fs (linkTags fs (i + 1) tags
      (setName (setFileSize img₁ (fileMetaAt fs i) c) (fileMetaAt fs i) dst)) x = fat fs img₁ x :=
    fun x hx => hafter.fat_eq L hx (by simp)
  have hfat₀ : ∀ x, x < fatCount fs → fat fs (setFirstDataSector img (fileMetaAt fs i) g) x = fat fs img x :=
    fun x hx => hfirst.fat_eq L hx (by simp)
  have hlt : ∀ x ∈ l, x < fatCount fs := h.changes.fats_lt
  have hstart : firstDataSector img₁ (fileMetaAt fs i) = g := by
    rw [h.changes.firstDataSector_eq L hi (by simp)]
    exact u32_setU32 (by omega)
  refine ⟨hindex, hi, ?_, ?_, ?_, ?_, ?_, ?_, h.length_le, ?_, ?_, ?_, ?_⟩
  · exact ((hfirst.trans h.changes).trans hafter).mono (by simp) (by simp) (by simp) (by simpa using hi) hlt hlt
  · rw [hlink.firstDataSector_eq L hi (by simp), firstDataSector_finish, hstart]
    exact h.chain.frame fun x hx => hfat x (hlt x hx)
  · rw [hlink.fileSize_eq L hi (by simp), fileSize_finish hc]
  · rw [hlink.strcmpEq_eq L hi (by simp) hname]
    exact strcmpEq_strcpy
  · exact fun x hx => (hfat₀ x (hlt x hx)).symm.trans (h.free x hx).2
  · intro x hx
    rw [hfat x (hlt x hx)]
    exact h.taken x hx
  · exact h.sectors
  · refine h.full.imp_right fun ⟨hcl, hall⟩ => ⟨by omega, fun x hx h0 => ?_⟩
    exact hall x (hg ▸ nextFreeFat_le (Nat.zero_le _) h0) hx ((hfat₀ x hx).trans h0)
  · intro k hk
    have hlen : k / fs.sectorSize < l.length := by
      rw [h.sectors, Nat.sub_zero]
      have hs := L.sectorSize
      refine Nat.lt_of_lt_of_le ?_ (Nat.le_max_right _ _)
      rw [Nat.div_lt_iff_lt_mul (by omega)]
      have := Nat.lt_div_mul_add (a := c + fs.sectorSize - 1) (b := fs.sectorSize) (by omega)
      omega
    have hx : l.getD (k / fs.sectorSize) 0 ∈ l := by
      rw [List.getD_eq_getElem _ _ hlen]
      exact List.getElem_mem hlen
    have hmod : k % fs.sectorSize < fs.sectorSize := Nat.mod_lt _ (by have := L.sectorSize; omega)
    have hin : InSector fs (l.getD (k / fs.sectorSize) 0)
        (sectorAt fs (l.getD (k / fs.sectorSize) 0) + k % fs.sectorSize) := ⟨by omega, by omega⟩
    rw [hafter.sector L (hlt _ hx) (by simp) hin, h.data k (by omega), Nat.zero_add]
  · rw [hlink.firstDataSector_eq L hi (by simp), firstDataSector_finish, hstart, hg]

/-- A file that is not accepted is skipped. -/
theorem writeFile_skipped (tags : List CStr) (h : ¬ Accepted fs img src dst) : writeFile fs tags src dst img = .ok img := by
  have hle : findFreeFileMeta fs img ≤ countFileMetaEntries fs := scan_le (Nat.zero_le _)
  have hle' : nextFreeFat fs img 0 ≤ fatCount fs := scan_le (Nat.zero_le _)
  simp only [writeFile]
  split
  · rfl
  · rename_i htagfs
    split
    · rfl
    · split
      · rfl
      · rename_i hi hg
        exact absurd ⟨by simpa using htagfs, by omega, by omega⟩ h

/-- Linking the tags is the last that is done. -/
theorem writeFile_eq (fs : FSMetadata) (tags : List CStr) (src : List UInt8) (dst : CStr) (img : Bytes) :
    writeFile fs tags src dst img = writeFile fs [] src dst img >>= fun unlinked =>
      .ok (if Accepted fs img src dst then linkTags fs (findFreeFileMeta fs img + 1) tags unlinked else unlinked) := by
  by_cases hacc : Accepted fs img src dst
  · simp only [writeFile, hacc.1, Bool.not_true, Bool.false_eq_true, if_false, if_neg (Nat.ne_of_lt hacc.2.1),
      if_neg (Nat.ne_of_lt hacc.2.2), if_pos hacc]
    cases copyLoop fs src (fatCount fs) (setFirstDataSector img (fileMetaAt fs (findFreeFileMeta fs img))
      (nextFreeFat fs img 0)) (nextFreeFat fs img 0) 0 <;> rfl
  · rw [writeFile_skipped tags hacc, writeFile_skipped [] hacc, Res.ok_bind, if_neg hacc]

/-- A pass of the loop over the file specs stores the file, or leaves the image. -/
theorem writeFile_cases (img : Bytes) (src : List UInt8) (dst : CStr) (L : Layout fs) (htags : ∀ tag ∈ tags, tag.strlen < 28) :
    (¬ Accepted fs img src dst ∧ writeFile fs tags src dst img = .ok img) ∨
      Accepted fs img src dst ∧ ∃ i l c img', writeFile fs tags src dst img = .ok img' ∧
        Stored fs src dst img i l c img' := by
  by_cases hacc : Accepted fs img src dst
  · refine .inr ⟨hacc, ?_⟩
    obtain ⟨htagfs, hi, hg⟩ := hacc
    obtain ⟨hsize, hname⟩ := isTagfsFile_iff.mp htagfs
    have hfirst : ChangesOnly fs [findFreeFileMeta fs img] [] [] img
        (setFirstDataSector img (fileMetaAt fs (findFreeFileMeta fs img)) (nextFreeFat fs img 0)) :=
      changes_setFirstDataSector hi
    obtain ⟨l, c, img₁, hloop, hcopied⟩ := copyLoop_spec (c := 0) src (fatCount fs) L hg
      ((hfirst.fat_eq L hg (by simp)).trans (nextFreeFat_free hg)) (Nat.zero_le _) (Nat.sub_le _ _)
    refine ⟨_, l, c, _, ?_, stored_of_copied L htags rfl hi rfl hg hsize hname hcopied⟩
    simp only [writeFile, htagfs, Bool.not_true, Bool.false_eq_true, if_false, if_neg (Nat.ne_of_lt hi),
      if_neg (Nat.ne_of_lt hg), hloop, Res.ok_bind]
  · exact .inl ⟨hacc, writeFile_skipped tags hacc⟩

/-- What a file spec that is not skipped does. -/
theorem writeFileSpec_cases {files : CStr → Option (List UInt8)} {spec : CStr} (L : Layout fs)
    (htags : ∀ tag ∈ tags, tag.strlen < 28) (h : writeFileSpec fs files tags img spec = .ok img') :
    img' = img ∨ ∃ path dst src i l c, parseFileSpec spec = some (path, dst) ∧ files path = some src ∧
      Accepted fs img src dst ∧ Stored fs src dst img i l c img' := by
  unfold writeFileSpec at h
  split at h
  · cases h
  · rename_i path dst hspec
    split at h
    · exact .inl (Res.ok.inj h).symm
    · rename_i src hsrc
      rcases writeFile_cases img src dst L htags with ⟨-, hr⟩ | ⟨hacc, i, l, c, img₁, hr, hS⟩
      · rw [hr] at h
        exact .inl (Res.ok.inj h).symm
      · rw [hr] at h
        obtain rfl := Res.ok.inj h
        exact .inr ⟨path, dst, src, i, l, c, hspec, hsrc, hacc, hS⟩

/-- A command whose file specs have source paths returns. -/
theorem writeFileSpecs_return (img : Bytes) (files : CStr → Option (List UInt8)) {specs : List CStr} (L : Layout fs)
    (htags : ∀ tag ∈ tags, tag.strlen < 28) (hspecs : ∀ spec ∈ specs, parseFileSpec spec ≠ none) :
    ∃ img', specs.foldlM (writeFileSpec fs files tags) img = .ok img' := by
  induction specs generalizing img with
  | nil => exact ⟨img, rfl⟩
  | cons spec specs ih =>
    have hstep : ∃ img₁, writeFileSpec fs files tags img spec = .ok img₁ := by
      unfold writeFileSpec
      split
      · rename_i hnone
        exact absurd hnone (hspecs spec List.mem_cons_self)
      · split
        · exact ⟨_, rfl⟩
        · rcases writeFile_cases img _ _ L htags with ⟨-, hr⟩ | ⟨-, _, _, _, _, hr, -⟩ <;> exact ⟨_, hr⟩
    obtain ⟨img₁, hstep⟩ := hstep
    obtain ⟨img', hrest⟩ := ih img₁ fun s hs => hspecs s (List.mem_cons_of_mem _ hs)
    refine ⟨img', ?_⟩
    rw [List.foldlM_cons, hstep]
    exact hrest

/-- The tags that are linked are short enough for a tag entry. -/
theorem filterValidTagNames_lt {tag : CStr} (h : tag ∈ filterValidTagNames tags) : tag.strlen < 28 := by
  simpa using (List.mem_filter.mp h).2

end OSForReal.Proof.TagFS
