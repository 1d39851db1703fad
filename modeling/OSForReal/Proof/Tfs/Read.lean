import OSForReal.Proof.TagFS.Names
import OSForReal.Proof.Tfs.Calls

/-!
# `tfs_read` and the files of an image

Where the entries that it follows are in the first FAT sector, `tfs_read`
returns what `tagfs_read` does (`viewRead_window`). The others are what the
memory held, so a file is read right, from every heap with room for the blocks
of the call, exactly when only the last of its sectors may be one of those
(`readsFile_iff`).
-/

namespace OSForReal.Proof.Tfs

open Framework
open Framework.Bytes
open OSForReal.TagFS
open OSForReal.Proof.TagFS
open OSForReal.Proof.Heap

variable {σ : Type} {S : PageSupply σ} {fs : FSMetadata} {img view buf fats : Bytes} {name : CStr} {l : List Nat}
  {g i k size offset sb : Nat}

/-- From every heap with room for its blocks, `tfs_read` returns true and fills
the buffer with the bytes of the file, in every window. -/
def ReadsFile (S : PageSupply σ) (sb : Nat) (fs : FSMetadata) (img : Bytes) (name : CStr) (l : List Nat) (fileLength : Nat) :
    Prop :=
  ∀ (h : Heap σ) (buffer : Bytes) (length offset : Nat), FatFits S fs img sb h → 0 < length → offset + length ≤ fileLength →
    ∃ buffer' h', Res.Returns (fun fuel => tfsRead S fs sb fuel h img name buffer length offset) (true, buffer', h') ∧
      ∀ k < length, buffer' k = byteAt fs img l (offset + k)

/-! ## Where the entries are read -/

theorem diskSector_eq (K : KernelImage fs) (hg : g < 2 ^ 16) :
    diskSector img (tfsSectorLba fs g) = fun k => img (sectorAt fs g + k) := by
  funext k
  rw [diskSector, K.sectorLba hg]

theorem fatCount_lt (K : KernelImage fs) (hg : g < fatCount fs) : g < 2 ^ 16 := by
  rw [K.fatCount_eq] at hg
  omega

/-- The loop reads what the loop of `tagfs_read` reads, along entries that are those of the disk. -/
theorem viewReadRest_eq (K : KernelImage fs) (fileSize fuel bufIndex : Nat) (buf : Bytes) (h : FatChain fs img g (g :: l))
    (hl : size ≤ bufIndex + 512 * l.length)
    (hfats : ∀ j, bufIndex + 512 * j < size → fatsAt fats ((g :: l).getD j 0) = fat fs img ((g :: l).getD j 0)) :
    viewReadRest fs img fats size fileSize fuel buf bufIndex g = (readRest fs img size fileSize fuel buf bufIndex g).2 := by
  induction fuel generalizing g l buf bufIndex with
  | zero => rfl
  | succ fuel ih =>
    rw [viewReadRest, readRest]
    split
    · rename_i hlt
      split
      · rfl
      · have hne : l ≠ [] := by
          rintro rfl
          rw [List.length_nil, Nat.mul_zero] at hl
          omega
        obtain ⟨x, l, rfl⟩ := List.exists_cons_of_ne_nil hne
        have htail := h.tail
        obtain rfl := htail.cons_inv
        have hg : fatsAt fats g = fat fs img g := hfats 0 (by omega)
        have hx := fatCount_lt K (htail.2 _ List.mem_cons_self)
        rw [List.length_cons, Nat.mul_add, Nat.mul_one] at hl
        simp only [hg, diskSector_eq K hx, K.sectorSize_eq]
        split
        · refine ih _ _ htail (by omega) fun j hj => ?_
          omega
        · exact ih _ _ htail (by omega) fun j hj => hfats (j + 1) (by omega)
    · rfl

/-- The loop leaves what is in the buffer before. -/
theorem viewReadRest_below {fileSize fuel bufIndex : Nat} (hk : k < bufIndex) :
    viewReadRest fs img fats size fileSize fuel buf bufIndex g k = buf k := by
  induction fuel generalizing g buf bufIndex with
  | zero => rfl
  | succ fuel ih =>
    rw [viewReadRest]
    split
    · split
      · rfl
      · rw [ih (by omega), copy_out (by omega)]
    · rfl

/-- What a call does for a file. -/
theorem viewRead_eq (K : KernelImage fs) (hname : OnlyNamed fs img name i) :
    viewRead fs img view name buf size offset =
      match skipFats (viewFats fs img view) (offset / 512) (firstDataSector img (fileMetaAt fs i)) with
      | none => (false, buf)
      | some x =>
        if size ≤ 512 - offset % 512 then
          (true, copy buf 0 size fun k => diskSector img (tfsSectorLba fs x) (offset % 512 + k))
        else
          (true, viewReadRest fs img (viewFats fs img view) size (fileSize img (fileMetaAt fs i)) size
            (copy buf 0 (512 - offset % 512) fun k => diskSector img (tfsSectorLba fs x) (offset % 512 + k))
            (512 - offset % 512) x) := by
  cases hskip : skipFats (viewFats fs img view) (offset / 512) (firstDataSector img (fileMetaAt fs i)) with
  | none => simp only [viewRead, metadata_found K hname, K.metaAt, K.sectorSize_eq, hskip]
  | some x => simp only [viewRead, metadata_found K hname, K.metaAt, K.sectorSize_eq, hskip]

/-- `tfs_read` fails where skipping does. -/
theorem viewRead_bad (K : KernelImage fs) (hname : OnlyNamed fs img name i)
    (hskip : skipFats (viewFats fs img view) (offset / 512) (firstDataSector img (fileMetaAt fs i)) = none) :
    viewRead fs img view name buf size offset = (false, buf) := by
  rw [viewRead_eq K hname, hskip]

/-- Elsewhere it returns true: the bytes of the first sector, and the first of the next. -/
theorem viewRead_some (K : KernelImage fs) (hname : OnlyNamed fs img name i) {x : Nat} (hx : x < 2 ^ 16)
    (hskip : skipFats (viewFats fs img view) (offset / 512) (firstDataSector img (fileMetaAt fs i)) = some x) :
    ∃ buf', viewRead fs img view name buf size offset = (true, buf') ∧
      (∀ k < size, k < 512 - offset % 512 → buf' k = img (sectorAt fs x + offset % 512 + k)) ∧
      (512 - offset % 512 < size → 512 - offset % 512 < fileSize img (fileMetaAt fs i) →
        buf' (512 - offset % 512) = img (sectorAt fs (fatsAt (viewFats fs img view) x))) := by
  have hr : offset % 512 < 512 := Nat.mod_lt _ (by decide)
  simp only [viewRead_eq K hname, hskip, diskSector_eq K hx]
  split
  · refine ⟨_, rfl, fun k hk _ => ?_, fun hlt => absurd hlt (by omega)⟩
    rw [copy_in (by omega) (by omega), Nat.sub_zero, Nat.add_assoc]
  · refine ⟨_, rfl, fun k hk hk' => ?_, fun hlt hsize => ?_⟩
    · rw [viewReadRest_below hk', copy_in (by omega) (by omega), Nat.sub_zero, Nat.add_assoc]
    · obtain ⟨fuel, rfl⟩ : ∃ n, size = n + 1 := ⟨size - 1, by omega⟩
      rw [viewReadRest, if_pos hlt, if_neg (by omega)]
      simp only [K.sectorSize_eq]
      rw [viewReadRest_below, copy_in (by omega), Nat.sub_self, diskSector_eq K fatsAt_lt]
      · rfl
      all_goals split <;> omega

/-- The entries that a window follows. -/
theorem mem_take_of_getD {q x : Nat} (hq : q ≤ l.length) (hx : x ∈ l.take q) : ∃ j < q, x = l.getD j 0 := by
  obtain ⟨j, hj, rfl⟩ := List.getElem_of_mem hx
  rw [List.length_take] at hj
  refine ⟨j, by omega, ?_⟩
  rw [List.getElem_take, List.getD_eq_getElem]

/-- A window whose entries are in the first FAT sector, except the last, is read as by `tagfs_read`. -/
theorem viewRead_window (K : KernelImage fs) (hfs : fsMeta img = fs) (hname : OnlyNamed fs img name i)
    (hchain : FatChain fs img (firstDataSector img (fileMetaAt fs i)) l)
    (hl : fileSize img (fileMetaAt fs i) ≤ 512 * l.length) (hpos : 0 < size)
    (hin : offset + size ≤ fileSize img (fileMetaAt fs i))
    (hlow : ∀ j, 512 * (j + 1) < offset + size → l.getD j 0 < 256) (view buf : Bytes) :
    viewRead fs img view name buf size offset = (true, (tagfsRead img name buf size offset).2) := by
  have L := K.layout
  have hoffset : 512 * (offset / 512) + offset % 512 = offset := Nat.div_add_mod _ _
  have hq : offset / 512 < l.length := by omega
  have hfats : ∀ j, 512 * (j + 1) < offset + size →
      fatsAt (viewFats fs img view) (l.getD j 0) = fat fs img (l.getD j 0) := fun j hj => fatsAt_low K (hlow j hj)
  obtain ⟨x, hskip, hx, hdrop⟩ := skipSectors_spec L hchain hq
  rw [hdrop] at hx
  have hskip' : skipFats (viewFats fs img view) (offset / 512) (firstDataSector img (fileMetaAt fs i)) = some x := by
    rw [skipFats_eq hchain.1 (Nat.le_of_lt hq) fun y hy => ?_, hskip]
    obtain ⟨j, hj, rfl⟩ := mem_take_of_getD (Nat.le_of_lt hq) hy
    exact hfats j (by omega)
  have hx16 := fatCount_lt K (hx.2 x List.mem_cons_self)
  simp only [viewRead, metadata_found K hname, K.metaAt, K.sectorSize_eq, hskip',
    tagfsRead, hfs, hname.named.fileId L, Nat.add_sub_cancel, if_neg (Nat.succ_ne_zero i),
    if_neg (show ¬ offset ≥ fileSize img (fileMetaAt fs i) by omega), hskip, diskSector_eq K hx16]
  split
  · simp only [Nat.add_assoc]
  · have hlen : (l.drop (offset / 512 + 1)).length = l.length - (offset / 512 + 1) := List.length_drop
    rw [viewReadRest_eq K _ _ _ _ hx (by omega) fun j hj => ?_]
    · simp only [Nat.add_assoc]
    · rw [← hdrop, List.getD_eq_getElem?_getD, List.getElem?_drop, ← List.getD_eq_getElem?_getD]
      exact hfats _ (by omega)

/-! ## Where they are not -/

/-- Memory that holds the end of a chain wherever the FAT is not read. -/
def endsOnly : Bytes := fun _ => 0xff

theorem fatsAt_endsOnly (hview : Shows view endsOnly) (hi : 256 ≤ i) (hi' : i < 512) :
    fatsAt (viewFats fs img view) i = 0xffff := by
  rw [fatsAt_shows hview hi hi']
  show (0xff : UInt8).toNat + 2 ^ 8 * (0xff : UInt8).toNat = 0xffff
  decide

/-- With such memory, no sector is skipped after an entry that is not read. -/
theorem skipFats_endsOnly (K : KernelImage fs) (hview : Shows view endsOnly) (h : FatChain fs img g l) (hk : k ≤ l.length)
    (hbad : ∃ x ∈ l.take k, 256 ≤ x) : skipFats (viewFats fs img view) k g = none := by
  induction k generalizing g l with
  | zero =>
    obtain ⟨x, hx, -⟩ := hbad
    cases hx
  | succ k ih =>
    obtain ⟨y, l, rfl⟩ := List.exists_cons_of_length_pos (Nat.zero_lt_of_lt hk)
    obtain rfl := h.cons_inv
    have hg := h.2 y List.mem_cons_self
    rw [K.fatCount_eq] at hg
    rw [skipFats]
    rcases Nat.lt_or_ge y 256 with hlow | hhigh
    · split
      · rfl
      · rw [fatsAt_low K hlow]
        apply ih h.tail (Nat.le_of_succ_le_succ hk)
        obtain ⟨x, hx, hx'⟩ := hbad
        rw [List.take_succ_cons] at hx
        rcases List.mem_cons.mp hx with rfl | hx
        · omega
        · exact ⟨x, hx, hx'⟩
    · rw [if_pos (fatsAt_endsOnly hview hhigh hg)]

/-! ## Files -/

/-- The name of a used entry is the name of no other. -/
theorem onlyNamed_of_distinct (h : DistinctNames fs img) (hi : Used fs img i)
    (hname : strcmpEq img (nameAt (fileMetaAt fs i)) name = true) : OnlyNamed fs img name i :=
  ⟨hi.1, hname, fun j hj hnj => h.distinct j i name (used_of_name hj hnj (hi.name_ne hname)) hi hnj hname⟩

/-- A name that an entry has is shorter than the entry's. -/
theorem strlen_lt_of_used (hnames : DistinctNames fs img) (hi : Used fs img i)
    (hname : strcmpEq img (nameAt (fileMetaAt fs i)) name = true) : name.strlen < 24 := by
  obtain ⟨name', hlen, hname'⟩ := hnames.terminated i hi
  rwa [strcmpEq_unique hname hname']

/-- A name is that of a used entry, or of none. -/
theorem used_or_absent (fs : FSMetadata) (img : Bytes) (name : CStr) (hne : name.chars ≠ []) :
    (∃ i, Used fs img i ∧ strcmpEq img (nameAt (fileMetaAt fs i)) name = true) ∨
      ∀ j < countFileMetaEntries fs, strcmpEq img (nameAt (fileMetaAt fs j)) name = false := by
  by_cases hfound : ∃ i < countFileMetaEntries fs, strcmpEq img (nameAt (fileMetaAt fs i)) name = true
  · obtain ⟨i, hi, hname⟩ := hfound
    exact .inl ⟨i, used_of_name hi hname hne, hname⟩
  · refine .inr fun j hj => ?_
    by_contra hj'
    exact hfound ⟨j, hj, by simpa using hj'⟩

/-- The used file entries have chains of marked sectors, long enough for the files, with no sector in two. -/
structure ChainsOk (fs : FSMetadata) (img : Bytes) (chain : Nat → List Nat) : Prop where
  isChain : ∀ i, Used fs img i → FatChain fs img (firstDataSector img (fileMetaAt fs i)) (chain i)
  long : ∀ i, Used fs img i → fileSize img (fileMetaAt fs i) ≤ 512 * (chain i).length
  marked : ∀ i, Used fs img i → ∀ x ∈ chain i, fat fs img x ≠ 0
  disjoint : ∀ i j, Used fs img i → Used fs img j → i ≠ j → (chain i).Disjoint (chain j)

/-- An image with one file. -/
theorem chainsOk_of_one (honly : ∀ j, Used fs img j → j = i)
    (hchain : FatChain fs img (firstDataSector img (fileMetaAt fs i)) l)
    (hl : fileSize img (fileMetaAt fs i) ≤ 512 * l.length) (hmarked : ∀ x ∈ l, fat fs img x ≠ 0) :
    ChainsOk fs img fun _ => l := by
  refine ⟨fun j hj => ?_, fun j hj => ?_, fun _ _ => hmarked, fun j k hj hk hjk => ?_⟩
  · rw [honly j hj]
    exact hchain
  · rw [honly j hj]
    exact hl
  · exact absurd ((honly j hj).trans (honly k hk).symm) hjk

/-- A file with a chain, or without data, begins with a FAT index. -/
theorem first_index_lt (K : KernelImage fs) (h : FatChain fs img g l) : g < 2 ^ 16 := by
  cases l with
  | nil =>
    rw [show g = 0xffff from h.1]
    decide
  | cons x l =>
    have hx := h.2 x List.mem_cons_self
    rw [K.fatCount_eq, ← h.1.1] at hx
    omega

theorem firstIsIndex_of_lt (K : KernelImage fs) (hname : OnlyNamed fs img name i)
    (hfirst : firstDataSector img (fileMetaAt fs i) < 2 ^ 16) : FirstIsIndex fs img name := by
  intro e he
  rw [metadata_found K hname] at he
  obtain rfl := Option.some.inj he
  rwa [K.metaAt]

/-- A formatted image, and a file `a` of three bytes. -/
def threeBytes : Bytes := (tagfsWrite newFile nameA (fun _ => 1) 3 0).2

theorem kernelImage_default : KernelImage (headerOf {}) := ⟨geometry_default, rfl, rfl⟩

/-- The file of three bytes, and no other. -/
theorem threeBytes_file : NamesInv (headerOf {}) threeBytes ∧ Used (headerOf {}) threeBytes 0 ∧
    strcmpEq threeBytes (nameAt (fileMetaAt (headerOf {}) 0)) nameA = true ∧
    FatChain (headerOf {}) threeBytes (firstDataSector threeBytes (fileMetaAt (headerOf {}) 0)) [0] ∧
    fileSize threeBytes (fileMetaAt (headerOf {}) 0) = 3 ∧ ∀ j, Used (headerOf {}) threeBytes j → j = 0 := by
  have hfile : Used (headerOf {}) threeBytes 0 ∧
      strcmpEq threeBytes (nameAt (fileMetaAt (headerOf {}) 0)) nameA = true ∧
      firstDataSector threeBytes (fileMetaAt (headerOf {}) 0) = 0 ∧ fat (headerOf {}) threeBytes 0 = 0xffff ∧
      fileSize threeBytes (fileMetaAt (headerOf {}) 0) = 3 ∧ ∀ j < countFileMetaEntries (headerOf {}),
        fileMetadataEntryIsFree threeBytes (fileMetaAt (headerOf {}) j) = false → j = 0 := by
    unfold Used
    decide +kernel
  obtain ⟨hused, hname, hfirst, hfat, hsize, hone⟩ := hfile
  refine ⟨namesInv_newFile.write kernelImage_default.layout, hused, hname, ?_, hsize, fun j hj => hone j hj.1 hj.2⟩
  rw [hfirst]
  exact ⟨⟨rfl, hfat⟩, by decide⟩

theorem chainsOk_newFile : ChainsOk (headerOf {}) newFile fun _ => [] := by
  obtain ⟨-, -, -, hfirst, hsize, hone⟩ := newFile_file
  have hchain : FatChain (headerOf {}) newFile (firstDataSector newFile (fileMetaAt (headerOf {}) 0)) [] := by
    rw [hfirst]
    exact ⟨rfl, by simp⟩
  exact chainsOk_of_one hone hchain (by rw [hsize]; decide) (by simp)

theorem chainsOk_threeBytes : ChainsOk (headerOf {}) threeBytes fun _ => [0] := by
  obtain ⟨-, -, -, hchain, hsize, hone⟩ := threeBytes_file
  refine chainsOk_of_one hone hchain (by rw [hsize]; decide) fun x hx => ?_
  rw [List.mem_singleton.mp hx, hchain.1.2]
  decide

theorem fatFits_newFile : ∃ h, FatFits everyPage (headerOf {}) newFile (heapStart + 4) h :=
  fatFits_everyPage (by decide +kernel) (by decide +kernel)

/-- A formatted image with the file `a` of 600 bytes, in the sectors 300 and 301. -/
def farFile : Bytes :=
  let e := fileMetaAt (headerOf {}) 0
  setName (setFileSize (setFirstDataSector
    (setFat (headerOf {}) (setFat (headerOf {}) (formatImage {} fun _ => 0) 300 301) 301 0xffff) e 300) e 600) e nameA

end OSForReal.Proof.Tfs
