import OSForReal.Proof.TagFS.Calls
import OSForReal.Proof.TagFS.FuseRuns

/-!
# File names under the FUSE driver

`tagfs_mknod` takes the first free entry and does not look whether the name is
in use. So names stay distinct, and a new file is found by its name, in the
runs that create files under names not in use (`namesOk_of_reachable`), and one
other call is enough to break both (`namesOk_fails`).
-/

namespace OSForReal.Proof.TagFS

open Framework
open Framework.Bytes
open OSForReal.TagFS

variable {fs : FSMetadata} {img img' img'' buf : Bytes} {name : CStr} {i j x size offset : Nat}

/-! ## The property -/

/-- The used file entries have names, and no two the same. -/
structure DistinctNames (fs : FSMetadata) (img : Bytes) : Prop where
  terminated : ∀ i, Used fs img i → ∃ name : CStr, name.strlen < 24 ∧
    strcmpEq img (nameAt (fileMetaAt fs i)) name = true
  distinct : ∀ i j name, Used fs img i → Used fs img j → strcmpEq img (nameAt (fileMetaAt fs i)) name = true →
    strcmpEq img (nameAt (fileMetaAt fs j)) name = true → i = j

/-- An image with one file. -/
theorem distinctNames_of_one (hlen : name.strlen < 24) (hname : strcmpEq img (nameAt (fileMetaAt fs i)) name = true)
    (honly : ∀ j, Used fs img j → j = i) : DistinctNames fs img := by
  refine ⟨fun j hj => ⟨name, hlen, ?_⟩, fun j k _ hj hk _ _ => (honly j hj).trans (honly k hk).symm⟩
  rw [honly j hj]
  exact hname

/-- The calls on an image, with any names and any windows. -/
def CallStep (img : Bytes) : FuseEvent → Bytes → Prop
  | .mknod name regular, img' => img' = (tagfsMknod img name regular).2
  | .write name buf size offset, img' => img' = (tagfsWrite img name buf size offset).2
  | .unlink name, img' => ∃ fuel, tagfsUnlink fuel img name = .ok img'

/-- The calls, from an image on. -/
def callSystem (img₀ : Bytes) : System Bytes FuseEvent where
  init img := img = img₀
  step := CallStep

/-- A successful `tagfs_mknod` makes its name that of the entry it initialises. -/
def Resolves (fs : FSMetadata) (img : Bytes) (name : CStr) (regular : Bool) : Prop :=
  (tagfsMknod img name regular).1 = 0 →
    getFileIdFromName fs (tagfsMknod img name regular).2 name = findFreeFileMeta fs img + 1

/-- The bytes before the first entry, which `tagfs_unlink` takes for an entry when
it does not find a name, are not those of the `FS_Metadata` and hold a FAT index. -/
def EntryBeforeFirst (fs : FSMetadata) (img : Bytes) : Prop :=
  56 ≤ fs.sectorSize ∧ (firstDataSector img (fileMetaAt fs 0 - sizeofFileMetadata) = 0xffff ∨
    firstDataSector img (fileMetaAt fs 0 - sizeofFileMetadata) < fatCount fs)

/-- The calls that the driver gets right: a file is created under a name that no
used entry has, and what is unlinked is found or lies where it does no harm. -/
def NameFree (img : Bytes) : FuseEvent → Prop
  | .mknod name regular => regular = true →
    (∃ j < countFileMetaEntries (fsMeta img), fileMetadataEntryIsFree img (fileMetaAt (fsMeta img) j) = true) →
      ∀ j, Used (fsMeta img) img j → strcmpEq img (nameAt (fileMetaAt (fsMeta img) j)) name = false
  | .write _ _ _ _ => True
  | .unlink name => getFileIdFromName (fsMeta img) img name ≠ 0 ∨ EntryBeforeFirst (fsMeta img) img

namespace DistinctNames

/-- All entries but one keep their names, and that one is free or gets a name that no other has. -/
theorem change (h : DistinctNames fs img) (hsame : ∀ j < countFileMetaEntries fs, j ≠ i → SameName fs j img img')
    (hnew : Used fs img' i → ∃ name : CStr, name.strlen < 24 ∧ strcmpEq img' (nameAt (fileMetaAt fs i)) name = true ∧
      ∀ j, Used fs img j → strcmpEq img (nameAt (fileMetaAt fs j)) name = true → j = i) : DistinctNames fs img' := by
  -- The name of another entry is the one it had.
  have hold : ∀ j, Used fs img' j → j ≠ i → Used fs img j ∧ ∃ name : CStr, name.strlen < 24 ∧
      strcmpEq img (nameAt (fileMetaAt fs j)) name = true ∧ strcmpEq img' (nameAt (fileMetaAt fs j)) name = true := by
    intro j hj hji
    have hused := (hsame j hj.1 hji).used_iff.mp hj
    obtain ⟨name, hlen, hname⟩ := h.terminated j hused
    exact ⟨hused, name, hlen, hname, by rwa [(hsame j hj.1 hji).strcmpEq_eq hlen]⟩
  have hclash : ∀ j name, Used fs img' i → Used fs img' j → j ≠ i → strcmpEq img' (nameAt (fileMetaAt fs i)) name = true →
      strcmpEq img' (nameAt (fileMetaAt fs j)) name = true → False := by
    intro j name hi hj hji hni hnj
    obtain ⟨hused, n, hlen, hn, hn'⟩ := hold j hj hji
    obtain ⟨n', -, hn'', huniq⟩ := hnew hi
    obtain rfl := strcmpEq_unique hnj hn'
    obtain rfl := strcmpEq_unique hni hn''
    exact hji (huniq j hused hn)
  refine ⟨fun j hj => ?_, fun j k name hj hk hnj hnk => ?_⟩
  · by_cases hji : j = i
    · subst hji
      obtain ⟨name, hlen, hname, -⟩ := hnew hj
      exact ⟨name, hlen, hname⟩
    · obtain ⟨-, name, hlen, -, hname⟩ := hold j hj hji
      exact ⟨name, hlen, hname⟩
  · by_cases hji : j = i <;> by_cases hki : k = i
    · rw [hji, hki]
    · exact (hclash k name (hji ▸ hj) hk hki (hji ▸ hnj) hnk).elim
    · exact (hclash j name (hki ▸ hk) hj hji (hki ▸ hnk) hnj).elim
    · obtain ⟨hj', n, -, hn, hn'⟩ := hold j hj hji
      obtain ⟨hk', n', -, hm, hm'⟩ := hold k hk hki
      obtain rfl := strcmpEq_unique hnj hn'
      obtain rfl := strcmpEq_unique hnk hm'
      exact h.distinct j k name hj' hk' hn hm

/-- All entries keep their names. -/
theorem congr (h : DistinctNames fs img) (hsame : ∀ j < countFileMetaEntries fs, SameName fs j img img') :
    DistinctNames fs img' :=
  h.change (i := countFileMetaEntries fs) (fun j hj _ => hsame j hj) fun hu => absurd hu.1 (Nat.lt_irrefl _)

end DistinctNames

/-- The writes of the calls keep the names. -/
theorem keptByWrites_names (L : Layout fs) (img₀ : Bytes) :
    KeptByWrites fs fun img => IndicesInRange fs img ∧ ∀ j < countFileMetaEntries fs, SameName fs j img₀ img where
  inRange _ h := h.1
  first _ h i hi v hv := ⟨h.1.setFirstDataSector L hi (.inr hv), fun j hj =>
    (h.2 j hj).trans (SameName.of_header (o := 0) (by omega))⟩
  size _ h i hi v := ⟨h.1.setFileSize L hi, fun j hj => (h.2 j hj).trans (SameName.of_header (o := 4) (by omega))⟩
  fat _ h x hx v hv := ⟨h.1.setFat L hx (hv.imp_right fun h0 => by omega), fun j hj =>
    (h.2 j hj).trans (.of_changes L (changes_setFat hx) hj List.not_mem_nil)⟩
  data _ h x hx o n src hn := ⟨h.1.copySector L hx hn, fun j hj =>
    (h.2 j hj).trans (.of_changes L (changes_sector hx hn) hj List.not_mem_nil)⟩

/-! ## Unlinking a file that is found -/

theorem IndicesInRange.clearName (h : IndicesInRange fs img) (L : Layout fs) (hi : i < countFileMetaEntries fs) :
    IndicesInRange fs (copy img (nameAt (fileMetaAt fs i)) 1 fun _ => 0) := by
  refine h.congr L (changes_clearName hi) (fun j hj => ?_) fun _ hx => absurd hx List.not_mem_nil
  rw [List.mem_singleton.mp hj, firstDataSector_clearName]
  exact h.first i hi

/-- `tagfs_unlink` clears the name of a file that is found, and then keeps what its writes keep. -/
theorem KeptByWrites.unlink_named {P : Bytes → Prop} {fuel : Nat} (hP : KeptByWrites fs P) (hfs : fsMeta img = fs)
    (L : Layout fs) (hname : Named fs img name i) (hclear : P (copy img (nameAt (fileMetaAt fs i)) 1 fun _ => 0))
    (hr : tagfsUnlink fuel img name = .ok img') : P img' := by
  simp only [tagfsUnlink, hfs, hname.fileId L, fileMetaAt_succ_sub] at hr
  split at hr
  · obtain rfl := Res.ok.inj hr
    exact hclear
  · rename_i hne
    exact hP.unlinkLoop hclear (((hP.inRange _ hclear).first i hname.lt).resolve_left hne) hr

/-! ## The calls -/

/-- What every call is to keep. -/
structure NamesInv (fs : FSMetadata) (img : Bytes) : Prop where
  inRange : IndicesInRange fs img
  names : DistinctNames fs img

namespace NamesInv

theorem write (h : NamesInv fs img) (L : Layout fs) : NamesInv fs (tagfsWrite img name buf size offset).2 := by
  have hkept : IndicesInRange fs (tagfsWrite img name buf size offset).2 ∧
      ∀ j < countFileMetaEntries fs, SameName fs j img (tagfsWrite img name buf size offset).2 :=
    (keptByWrites_names L img).tagfsWrite ⟨h.inRange, fun _ _ _ _ => rfl⟩ L
  exact ⟨hkept.1, h.names.congr hkept.2⟩

theorem mknod {regular : Bool} (h : NamesInv fs img) (L : Layout fs)
    (hfree : regular = true →
      (∃ j < countFileMetaEntries fs, fileMetadataEntryIsFree img (fileMetaAt fs j) = true) →
        ∀ j, Used fs img j → strcmpEq img (nameAt (fileMetaAt fs j)) name = false) :
    NamesInv fs (tagfsMknod img name regular).2 ∧ Resolves fs img name regular := by
  unfold Resolves
  rcases tagfsMknod_cases h.inRange.header name regular with ⟨e, he, hr⟩ | ⟨hregular, img', hr, hnew⟩
  · rw [hr]
    exact ⟨h, fun h0 => absurd h0 he⟩
  · rw [hr]
    have hunused := hnew.unused
    have hnames := hfree hregular ⟨_, hnew.lt, by simpa [Used, hnew.lt] using hunused⟩
    refine ⟨⟨?_, ?_⟩, fun _ => (hnew.isNamed L hnames).fileId L⟩
    · refine h.inRange.congr L hnew.changes (fun i hi => ?_) fun _ hx => absurd hx List.not_mem_nil
      rw [List.mem_singleton.mp hi]
      exact .inl hnew.first
    · refine h.names.change (fun j hj hji => .of_changes L hnew.changes hj (by simpa using hji)) fun _ =>
        ⟨name, hnew.strlen, hnew.named, fun j hj hname => ?_⟩
      rw [hnames j hj] at hname
      cases hname

/-- `tagfs_unlink` of a name that is found. -/
theorem unlink_named {fuel : Nat} (h : NamesInv fs img) (L : Layout fs) (hname : Named fs img name i)
    (hr : tagfsUnlink fuel img name = .ok img') : NamesInv fs img' := by
  have hcleared : DistinctNames fs (copy img (nameAt (fileMetaAt fs i)) 1 fun _ => 0) :=
    h.names.change (fun j hj hji => .of_changes L (changes_clearName hname.lt) hj (by simpa using hji)) fun hu =>
      absurd hu not_used_clearName
  have hkept := (keptByWrites_names L _).unlink_named h.inRange.header L hname
    ⟨h.inRange.clearName L hname.lt, fun _ _ _ _ => rfl⟩ hr
  exact ⟨hkept.1, hcleared.congr hkept.2⟩

/-- A byte between the `FS_Metadata` and the first entry does not matter. -/
theorem before_first (h : NamesInv fs img) (L : Layout fs) (hsize : 56 ≤ fs.sectorSize)
    (hout : ∀ a, a < fs.sectorSize - 24 ∨ fs.sectorSize ≤ a → img' a = img a) : NamesInv fs img' := by
  have hfats := L.fats; have hfiles := L.files; have htags := L.tags; have hlinks := L.links
  have hheader : fsMeta img' = fsMeta img := fsMeta_congr fun x _ => hout x (by omega)
  refine ⟨⟨hheader.trans h.inRange.header, fun i hi => ?_, fun x hx => ?_⟩, h.names.congr fun j _ k _ => hout _ ?_⟩
  · have hkeep : firstDataSector img' (fileMetaAt fs i) = firstDataSector img (fileMetaAt fs i) :=
      u32_congr fun x hx _ => hout x (by rw [Layout.fileMetaAt_eq] at hx; omega)
    rw [hkeep]
    exact h.inRange.first i hi
  · have hkeep : fat fs img' x = fat fs img x :=
      u16_congr fun y hy _ => hout y (by rw [Layout.fatAt_eq] at hy; omega)
    rw [hkeep]
    exact h.inRange.next x hx
  · simp only [nameAt, Layout.fileMetaAt_eq]
    omega

/-- `tagfs_unlink` of a name that is not found takes the bytes before the first entry for an entry. -/
theorem unlink_absent {fuel : Nat} (h : NamesInv fs img) (L : Layout fs) (habsent : getFileIdFromName fs img name = 0)
    (hbefore : EntryBeforeFirst fs img) (hr : tagfsUnlink fuel img name = .ok img') : NamesInv fs img' := by
  obtain ⟨hsize, hrange⟩ := hbefore
  simp only [tagfsUnlink, h.inRange.header, habsent] at hr
  have hentry : fileMetaAt fs 0 - sizeofFileMetadata = fs.sectorSize - 32 := rfl
  rw [hentry] at hr hrange
  have hcleared : NamesInv fs (copy img (nameAt (fs.sectorSize - 32)) 1 fun _ => 0) :=
    h.before_first L hsize fun a ha => copy_out (by unfold nameAt; omega)
  have hfirst : firstDataSector (copy img (nameAt (fs.sectorSize - 32)) 1 fun _ => 0) (fs.sectorSize - 32) =
      firstDataSector img (fs.sectorSize - 32) := by
    unfold nameAt
    exact u32_copy_out (by omega)
  generalize copy img (nameAt (fs.sectorSize - 32)) 1 (fun _ => 0) = img₁ at hr hcleared hfirst
  rw [hfirst] at hr
  split at hr
  · obtain rfl := Res.ok.inj hr
    exact hcleared
  · rename_i hne
    have hkept := (keptByWrites_names L img₁).unlinkLoop ⟨hcleared.inRange, fun _ _ _ _ => rfl⟩
      (hrange.resolve_left hne) hr
    exact ⟨hkept.1, hcleared.names.congr hkept.2⟩

/-- A call that the driver gets right. -/
theorem step {e : FuseEvent} (h : NamesInv fs img) (L : Layout fs) (hok : NameFree img e) (hs : CallStep img e img') :
    NamesInv fs img' := by
  cases e with
  | mknod name regular =>
    obtain rfl := hs
    rw [NameFree, h.inRange.header] at hok
    exact (h.mknod L hok).1
  | write name buf size offset =>
    obtain rfl := hs
    exact h.write L
  | unlink name =>
    obtain ⟨fuel, hr⟩ := hs
    rw [NameFree, h.inRange.header] at hok
    rcases named_or_absent fs img name with ⟨i, hname⟩ | habsent
    · exact h.unlink_named L hname hr
    · exact h.unlink_absent L habsent (hok.resolve_left fun hne => hne habsent) hr

end NamesInv

/-! ## Runs -/

/-- The runs that create files under names not in use keep the invariant. -/
theorem namesInv_of_reachable {img₀ : Bytes} (h₀ : NamesInv (fsMeta img₀) img₀) (L : Layout (fsMeta img₀))
    (h : (callSystem img₀).Reachable NameFree img) : NamesInv (fsMeta img₀) img :=
  h.invariant (I := NamesInv (fsMeta img₀)) (by rintro _ rfl; exact h₀) fun _ _ _ hI hok hs => hI.step L hok hs

/-- In the runs that create files under names not in use, names stay distinct and new files are found. -/
theorem namesOk_of_reachable (img₀ : Bytes) (hnames : DistinctNames (fsMeta img₀) img₀) (G : Geometry (fsMeta img₀))
    (hrange : IndicesInRange (fsMeta img₀) img₀) (img : Bytes) (h : (callSystem img₀).Reachable NameFree img) :
    DistinctNames (fsMeta img) img ∧
      ∀ name regular, NameFree img (.mknod name regular) → Resolves (fsMeta img) img name regular := by
  have hI := namesInv_of_reachable ⟨hrange, hnames⟩ G.layout h
  refine ⟨by rw [hI.inRange.header]; exact hI.names, fun name regular hfree => ?_⟩
  rw [NameFree, hI.inRange.header] at hfree
  rw [hI.inRange.header]
  exact (hI.mknod G.layout hfree).2

/-- A formatted image has no names, and its indices are in range. -/
theorem namesInv_formatImage (img : Bytes) : NamesInv (headerOf {}) (formatImage {} img) := by
  have hfree := not_used_formatImage geometry_default img
  refine ⟨⟨fsMeta_formatImage geometry_default, fun i hi => .inr ?_, fun x hx => .inr ?_⟩,
    fun i hi => absurd hi (hfree i), fun i _ _ hi => absurd hi (hfree i)⟩
  · rw [formatImage_first geometry_default hi]
    decide
  · rw [formatImage_fat geometry_default hx]
    decide

/-- The image with 3 bytes in the file `a`. -/
def fileA : Bytes := (tagfsWrite newFile nameA (fun _ => 1) 3 0).2

/-- And with the file `b` of 5 bytes. -/
def filesAB : Bytes := (tagfsWrite (tagfsMknod fileA nameB true).2 nameB (fun _ => 2) 5 0).2

/-- A formatted image, and the calls that create and fill the files. -/
theorem reachable_filesAB : (callSystem (formatImage {} fun _ => 0)).Reachable NameFree filesAB := by
  have hempty : ∀ j < countFileMetaEntries (fsMeta (formatImage {} fun _ => 0)),
      fileMetadataEntryIsFree (formatImage {} fun _ => 0) (fileMetaAt (fsMeta (formatImage {} fun _ => 0)) j) = true := by
    decide +kernel
  have hfree : ∀ j < countFileMetaEntries (fsMeta fileA),
      strcmpEq fileA (nameAt (fileMetaAt (fsMeta fileA) j)) nameB = false := by
    decide +kernel
  refine .step (i := .write nameB (fun _ => 2) 5 0) (.step (i := .mknod nameB true) (.step (i := .write nameA (fun _ => 1) 3 0)
    (.step (i := .mknod nameA true) (.init rfl) (fun _ _ j hj => ?_) rfl) trivial rfl) (fun _ _ j hj => hfree j hj.1) rfl)
    trivial rfl
  have hused := hj.2
  rw [hempty j hj.1] at hused
  cases hused

theorem namesInv_filesAB : NamesInv (headerOf {}) filesAB := by
  have hI := namesInv_formatImage fun _ => 0
  have hheader := hI.inRange.header
  have h := namesInv_of_reachable (hheader.symm ▸ hI) (hheader.symm ▸ geometry_default.layout) reachable_filesAB
  rwa [hheader] at h

/-- Two files are created, and the first one is removed. -/
theorem namesOk_of_reachable_removed : ∃ img, tagfsUnlink 1 filesAB nameA = .ok img ∧ DistinctNames (fsMeta img) img ∧
    ∀ name regular, NameFree img (.mknod name regular) → Resolves (fsMeta img) img name regular := by
  have hI := namesInv_formatImage fun _ => 0
  have hheader := hI.inRange.header
  have hrun : (tagfsUnlink 1 filesAB nameA >>= fun img => .ok (img 0)) = .ok 0 := by decide +kernel
  obtain ⟨img, hunlink, -⟩ := Res.bind_eq_ok.mp hrun
  have hfound : getFileIdFromName (fsMeta filesAB) filesAB nameA ≠ 0 := by decide +kernel
  exact ⟨img, hunlink, namesOk_of_reachable (formatImage {} fun _ => 0) (by rw [hheader]; exact hI.names)
    (by rw [hheader]; exact geometry_default) (by rw [hheader]; exact hI.inRange) img
    (.step (i := .unlink nameA) reachable_filesAB (.inl hfound) ⟨1, hunlink⟩)⟩

theorem namesInv_newFile : NamesInv (headerOf {}) newFile :=
  ((namesInv_formatImage fun _ => 0).mknod geometry_default.layout fun _ _ j hj =>
    absurd hj (not_used_formatImage geometry_default _ j)).1

/-- The only file of the image without data. -/
theorem newFile_file : NamesInv (headerOf {}) newFile ∧ Used (headerOf {}) newFile 0 ∧
    strcmpEq newFile (nameAt (fileMetaAt (headerOf {}) 0)) nameA = true ∧
    firstDataSector newFile (fileMetaAt (headerOf {}) 0) = 0xffff ∧ fileSize newFile (fileMetaAt (headerOf {}) 0) = 0 ∧
    ∀ j, Used (headerOf {}) newFile j → j = 0 := by
  have hfile : Used (headerOf {}) newFile 0 ∧ strcmpEq newFile (nameAt (fileMetaAt (headerOf {}) 0)) nameA = true ∧
      firstDataSector newFile (fileMetaAt (headerOf {}) 0) = 0xffff ∧
      fileSize newFile (fileMetaAt (headerOf {}) 0) = 0 ∧ ∀ j < countFileMetaEntries (headerOf {}),
        fileMetadataEntryIsFree newFile (fileMetaAt (headerOf {}) j) = false → j = 0 := by
    unfold Used
    decide +kernel
  obtain ⟨hused, hname, hfirst, hsize, hone⟩ := hfile
  exact ⟨namesInv_newFile, hused, hname, hfirst, hsize, fun j hj => hone j hj.1 hj.2⟩

/-- The image when the file `a` is created a second time. -/
def twoFiles : Bytes := (tagfsMknod newFile nameA true).2

/-- The file `a` can be created twice. -/
theorem namesOk_fails : ¬ ∀ img₀, DistinctNames (fsMeta img₀) img₀ →
    ∀ img, (callSystem img₀).Reachable (fun _ _ => True) img → DistinctNames (fsMeta img) img ∧
      ∀ name regular, Resolves (fsMeta img) img name regular := by
  intro hall
  have hI := namesInv_formatImage fun _ => 0
  have hreach : (callSystem (formatImage {} fun _ => 0)).Reachable (fun _ _ => True) twoFiles :=
    .step (.step (.init rfl) (i := .mknod nameA true) trivial rfl) (i := .mknod nameA true) trivial rfl
  obtain ⟨hnames, -⟩ := hall (formatImage {} fun _ => 0) (by rw [hI.inRange.header]; exact hI.names) twoFiles hreach
  have htwice : Used (fsMeta twoFiles) twoFiles 0 ∧ Used (fsMeta twoFiles) twoFiles 1 ∧
      strcmpEq twoFiles (nameAt (fileMetaAt (fsMeta twoFiles) 0)) nameA = true ∧
      strcmpEq twoFiles (nameAt (fileMetaAt (fsMeta twoFiles) 1)) nameA = true := by
    unfold Used
    decide +kernel
  obtain ⟨h₀, h₁, hname₀, hname₁⟩ := htwice
  exact absurd (hnames.distinct 0 1 nameA h₀ h₁ hname₀ hname₁) (by decide)

end OSForReal.Proof.TagFS
