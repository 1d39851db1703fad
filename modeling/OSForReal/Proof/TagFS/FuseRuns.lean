import Mathlib.Data.Finset.Card
import OSForReal.Proof.TagFS.Calls

/-!
# The FAT under the FUSE driver

A write across sectors takes the first free FAT entry for each further sector
and never marks or links it, so the FAT stays well formed in the runs without
such a write (`fuseFatOk_of_reachable`), and one is enough to break it
(`fuseFatOk_fails`). In the runs without one, no file has more than one sector.
-/

namespace OSForReal.Proof.TagFS

open Framework
open Framework.Bytes
open OSForReal.TagFS

variable {fs : FSMetadata} {img img' buf : Bytes} {name : CStr} {chain : Nat → List Nat} {i x g size offset : Nat}

/-! ## The property -/

/-- The sectors that a file reaches from its first one. -/
def FileReaches (fs : FSMetadata) (img : Bytes) (i x : Nat) : Prop :=
  Reaches (fat fs img) 0xffff (firstDataSector img (fileMetaAt fs i)) x

/-- What the FAT is to be after every call. -/
structure FuseFatOk (fs : FSMetadata) (img : Bytes) : Prop where
  isChain : ∀ i, Used fs img i → 0 < fileSize img (fileMetaAt fs i) →
    ∃ l, Chain (fat fs img) (firstDataSector img (fileMetaAt fs i)) l 0xffff ∧ l.Nodup ∧
      (fileSize img (fileMetaAt fs i) + fs.sectorSize - 1) / fs.sectorSize ≤ l.length
  disjoint : ∀ i j, Used fs img i → Used fs img j → i ≠ j → ∀ x, FileReaches fs img i x → ¬ FileReaches fs img j x
  noLeak : ∀ x, x < fatCount fs → fat fs img x ≠ 0 → ∃ i, Used fs img i ∧ FileReaches fs img i x

/-! ## The system -/

/-- A call of the driver. -/
inductive FuseEvent where
  | mknod (name : CStr) (regular : Bool)
  | write (name : CStr) (buf : Bytes) (size offset : Nat)
  | unlink (name : CStr)

/-- The calls on an image: writes begin in the file or at its end, and files that are unlinked exist. -/
def FuseStep (img : Bytes) : FuseEvent → Bytes → Prop
  | .mknod name regular, img' => img' = (tagfsMknod img name regular).2
  | .write name buf size offset, img' =>
    (∀ i, Named (fsMeta img) img name i → offset ≤ fileSize img (fileMetaAt (fsMeta img) i)) ∧
      img' = (tagfsWrite img name buf size offset).2
  | .unlink name, img' =>
    (∃ i, Named (fsMeta img) img name i ∧ Used (fsMeta img) img i) ∧ ∃ fuel, tagfsUnlink fuel img name = .ok img'

/-- A formatted image, and the calls on it. -/
def fuseSystem (options : FormatOptions) : System Bytes FuseEvent where
  init img := ∃ img₀, img = formatImage options img₀
  step := FuseStep

/-- A write that the driver gets right: the name is not found, or it is the
name of a file and the write needs no further sector, finds none, or begins
after a sector that is full. -/
def WriteInSector (fs : FSMetadata) (img : Bytes) (name : CStr) (size offset : Nat) : Prop :=
  getFileIdFromName fs img name = 0 ∨ name.chars ≠ [] ∧
    let start := writeStart img (fileMetaAt fs (getFileIdFromName fs img name - 1)) offset
    size ≤ fs.sectorSize - start % fs.sectorSize ∨ findFreeFat fs img = none ∨ fs.sectorSize ≤ start

instance : Decidable (WriteInSector fs img name size offset) := by
  unfold WriteInSector
  infer_instance

/-- Every write of the run is one that the driver gets right. -/
def WritesInSector (img : Bytes) : FuseEvent → Prop
  | .write name _ size offset => WriteInSector (fsMeta img) img name size offset
  | _ => True

/-! ## The invariant -/

/-- The entries of the FAT before the first free one. -/
theorem taken_of_lt_free (h : x < nextFreeFat fs img 0) : Taken fs img x :=
  ⟨Nat.lt_of_lt_of_le h (scan_le (Nat.zero_le _)), fun h0 => Nat.not_lt.mpr (nextFreeFat_le (Nat.zero_le x) h0) h⟩

/-- The chains of the files, none longer than one sector. No sector is taken before those
below it, so that its index is below the number of files that there can be. -/
structure OneSector (fs : FSMetadata) (chain : Nat → List Nat) (img : Bytes) : Prop where
  header : fsMeta img = fs
  owned : OwnedChains fs img chain
  length_le : ∀ i, Used fs img i → (chain i).length ≤ 1
  low : ∀ x, Taken fs img x → x < countFileMetaEntries fs
  size_le : ∀ i, Used fs img i → fileSize img (fileMetaAt fs i) ≤ fs.sectorSize * (chain i).length

namespace OneSector

theorem fuseFatOk (h : OneSector fs chain img) (L : Layout fs) : FuseFatOk fs img := by
  have hreach : ∀ i, Used fs img i → ∀ x, FileReaches fs img i x ↔ x ∈ chain i :=
    fun i hi x => (h.owned.isChain i hi).reaches_iff (h.owned.noStop i hi)
  refine ⟨fun i hi _ => ⟨chain i, h.owned.isChain i hi, h.owned.nodup hi, ?_⟩, fun i j hi hj hij x hx hx' => ?_,
    fun x hx h0 => ?_⟩
  · have hsize := h.size_le i hi
    have hs := L.sectorSize
    rw [Nat.div_le_iff_le_mul (by omega), Nat.mul_comm]
    omega
  · exact h.owned.disjoint i j hi hj hij ((hreach i hi x).mp hx) ((hreach j hj x).mp hx')
  · obtain ⟨i, hi, hxi⟩ := (h.owned.taken_iff x).mp ⟨hx, h0⟩
    exact ⟨i, hi, (hreach i hi x).mpr hxi⟩

theorem init {options : FormatOptions} (G : Geometry (headerOf options)) (img : Bytes) :
    OneSector (headerOf options) (fun _ => []) (formatImage options img) := by
  have hI : FatInv (headerOf options) (fun _ => []) (formatImage options img) := fatInv_formatImage G
  exact ⟨hI.header, hI.owned, fun _ _ => Nat.zero_le _, fun x hx => absurd (formatImage_fat G hx.1) hx.2,
    fun i hi => absurd hi (not_used_formatImage G img i)⟩

/-- Where the sectors below `g` are taken, and the entry `i` has none, `g` is one of the first. -/
theorem lt_entries (h : OneSector fs chain img) (hi : i < countFileMetaEntries fs) (hempty : Used fs img i → chain i = [])
    (hg : ∀ y < g, Taken fs img y) : g < countFileMetaEntries fs := by
  -- Each has an owner, which is not `i`, and no two have the same.
  have howner : ∀ y, ∃ j, y < g → Used fs img j ∧ y ∈ chain j := fun y => by
    by_cases hy : y < g
    · obtain ⟨j, hj⟩ := (h.owned.taken_iff y).mp (hg y hy)
      exact ⟨j, fun _ => hj⟩
    · exact ⟨0, fun hy' => absurd hy' hy⟩
  choose owner howner using howner
  have hmaps : Set.MapsTo owner (Finset.range g) ((Finset.range (countFileMetaEntries fs)).erase i) := fun y hy => by
    obtain ⟨hused, hmem⟩ := howner y (Finset.mem_range.mp hy)
    refine Finset.mem_coe.mpr (Finset.mem_erase.mpr ⟨fun hyi => ?_, Finset.mem_range.mpr hused.1⟩)
    rw [hyi] at hused hmem
    rw [hempty hused] at hmem
    cases hmem
  have hinj : Set.InjOn owner (Finset.range g) := fun y hy z hz hyz => by
    obtain ⟨hused, hmem⟩ := howner y (Finset.mem_range.mp hy)
    obtain ⟨-, hmem'⟩ := howner z (Finset.mem_range.mp hz)
    rw [← hyz] at hmem'
    obtain ⟨x, hx⟩ : ∃ x, chain (owner y) = [x] :=
      List.length_eq_one_iff.mp (Nat.le_antisymm (h.length_le _ hused) (List.length_pos_of_mem hmem))
    rw [hx] at hmem hmem'
    exact (List.mem_singleton.mp hmem).trans (List.mem_singleton.mp hmem').symm
  have hcard := Finset.card_le_card_of_injOn owner hmaps hinj
  rw [Finset.card_range, Finset.card_erase_of_mem (Finset.mem_range.mpr hi), Finset.card_range] at hcard
  omega

/-- A command that changes the size of a file at most, and data. -/
theorem resize {sectors : List Nat} (h : OneSector fs chain img) (L : Layout fs)
    (hch : ChangesOnly fs [i] [] sectors img img')
    (hfree : fileMetadataEntryIsFree img' (fileMetaAt fs i) = fileMetadataEntryIsFree img (fileMetaAt fs i))
    (hfirst : Used fs img i → firstDataSector img' (fileMetaAt fs i) = firstDataSector img (fileMetaAt fs i))
    (hsize : Used fs img i → fileSize img' (fileMetaAt fs i) ≤ fs.sectorSize * (chain i).length) :
    OneSector fs chain img' := by
  have hused : ∀ j, Used fs img' j ↔ Used fs img j := fun j => by
    by_cases hj : j = i
    · unfold Used
      rw [hj, hfree]
    · exact used_iff L hch hj
  have htaken : ∀ x, Taken fs img' x ↔ Taken fs img x := fun x => by
    unfold Taken
    refine and_congr_right fun hx => ?_
    rw [hch.fat_eq L hx (by simp)]
  refine ⟨(hch.fsMeta_eq L).trans h.header, ?_, fun j hj => h.length_le j ((hused j).mp hj),
    fun x hx => h.low x ((htaken x).mp hx), fun j hj => ?_⟩
  · refine h.owned.congr (fun x hx => hch.fat_eq L hx.1 (by simp)) htaken hused fun j hj => ?_
    · by_cases hji : j = i
      · rw [hji]
        exact hfirst (hji ▸ hj)
      · exact hch.firstDataSector_eq L hj.1 (by simpa using hji)
  · have hj := (hused j).mp hj
    by_cases hji : j = i
    · rw [hji]
      exact hsize (hji ▸ hj)
    · rw [hch.fileSize_eq L hj.1 (by simpa using hji)]
      exact h.size_le j hj

/-- A file without data, or a new one, gets a chain of at most one free sector. -/
theorem take {sectors l : List Nat} (h : OneSector fs chain img) (L : Layout fs)
    (hch : ChangesOnly fs [i] l sectors img img') (hi : Used fs img i → chain i = []) (hi' : Used fs img' i)
    (hlen : l.length ≤ 1) (hfree : ∀ x ∈ l, fat fs img x = 0) (hlow : ∀ x ∈ l, x < countFileMetaEntries fs)
    (hchain : Chain (fat fs img') (firstDataSector img' (fileMetaAt fs i)) l 0xffff)
    (hsize : fileSize img' (fileMetaAt fs i) ≤ fs.sectorSize * l.length) :
    OneSector fs (Function.update chain i l) img' := by
  have hused : ∀ j, Used fs img' j ↔ Used fs img j ∨ j = i := fun j => by
    by_cases hj : j = i
    · rw [hj]
      simp [hi']
    · rw [used_iff L hch hj]
      simp [hj]
  have hcount := L.fatCount_le
  have hend : ∀ x ∈ l, fat fs img' x = 0xffff := by
    intro x hx
    obtain ⟨y, rfl⟩ : ∃ y, l = [y] := List.length_eq_one_iff.mp (Nat.le_antisymm hlen (List.length_pos_of_mem hx))
    rw [List.mem_singleton.mp hx]
    exact hchain.2
  have htaken : ∀ x, Taken fs img' x ↔ Taken fs img x ∨ x ∈ l := fun x => by
    by_cases hx : x ∈ l
    · have hlt := hch.fats_lt x hx
      simp [Taken, hlt, hend x hx, hx]
    · unfold Taken
      simp only [hx, or_false]
      refine and_congr_right fun hlt => ?_
      rw [hch.fat_eq L hlt hx]
  refine ⟨(hch.fsMeta_eq L).trans h.header, ?_, fun j hj => ?_, fun x hx => ((htaken x).mp hx).elim (h.low x) (hlow x),
    fun j hj => ?_⟩
  · refine h.owned.take (fun x hx hx' => hx'.2 (hfree x hx)) hi (fun hx => ?_) hchain (fun x hx => ?_) htaken
      hused fun j hj hji => ?_
    · have := hch.fats_lt _ hx
      omega
    · exact hch.fat_eq L hx.1 fun hm => hx.2 (hfree x hm)
    · exact hch.firstDataSector_eq L hj.1 (by simpa using hji)
  · by_cases hji : j = i
    · rwa [hji, Function.update_self]
    · rw [Function.update_of_ne hji]
      exact h.length_le j (((hused j).mp hj).resolve_right hji)
  · by_cases hji : j = i
    · rwa [hji, Function.update_self]
    · rw [Function.update_of_ne hji, hch.fileSize_eq L hj.1 (by simpa using hji)]
      exact h.size_le j (((hused j).mp hj).resolve_right hji)

/-- A file goes, with its sectors. -/
theorem drop (h : OneSector fs chain img) (L : Layout fs) (hi : Used fs img i)
    (hch : ChangesOnly fs [i] (chain i) [] img img') (hi' : ¬ Used fs img' i) (hfree : ∀ x ∈ chain i, fat fs img' x = 0) :
    OneSector fs chain img' := by
  have hused : ∀ j, Used fs img' j ↔ Used fs img j ∧ j ≠ i := fun j => by
    by_cases hj : j = i
    · rw [hj]
      simp [hi']
    · rw [used_iff L hch hj]
      simp [hj]
  have htaken : ∀ x, Taken fs img' x ↔ Taken fs img x ∧ x ∉ chain i := fun x => by
    by_cases hx : x ∈ chain i
    · simp [Taken, hfree x hx, hx]
    · unfold Taken
      simp only [hx, not_false_iff, and_true]
      refine and_congr_right fun hlt => ?_
      rw [hch.fat_eq L hlt hx]
  refine ⟨(hch.fsMeta_eq L).trans h.header, ?_, fun j hj => h.length_le j ((hused j).mp hj).1,
    fun x hx => h.low x ((htaken x).mp hx).1, fun j hj => ?_⟩
  · refine h.owned.release hi (fun x hx hxi => hch.fat_eq L hx.1 hxi) htaken hused fun j hj hji => ?_
    exact hch.firstDataSector_eq L hj.1 (by simpa using hji)
  · obtain ⟨hj, hji⟩ := (hused j).mp hj
    rw [hch.fileSize_eq L hj.1 (by simpa using hji)]
    exact h.size_le j hj

end OneSector

/-! ## The calls -/

/-- A file that a name with characters finds is in use. -/
theorem Named.used (h : Named fs img name i) (hname : name.chars ≠ []) : Used fs img i :=
  used_of_name h.lt h.found hname

/-- `tagfs_mknod` keeps the invariant. -/
theorem OneSector.mknod (h : OneSector fs chain img) (L : Layout fs) (name : CStr) (regular : Bool) :
    ∃ chain, OneSector fs chain (tagfsMknod img name regular).2 := by
  rcases tagfsMknod_cases h.header name regular with ⟨e, -, hr⟩ | ⟨-, img', hr, hnew⟩
  · rw [hr]
    exact ⟨chain, h⟩
  · rw [hr]
    have hfree := strcmpEq_first hnew.named
    by_cases hname : name.chars = []
    · -- An empty name leaves the entry free.
      refine ⟨chain, h.resize L hnew.changes ?_ (fun hu => absurd hu hnew.unused) fun hu => absurd hu hnew.unused⟩
      have hbefore : fileMetadataEntryIsFree img (fileMetaAt fs (findFreeFileMeta fs img)) = true := by
        by_contra hne
        exact hnew.unused ⟨hnew.lt, by simpa using hne⟩
      rw [hbefore]
      unfold fileMetadataEntryIsFree
      simp [hfree, hname]
    · refine ⟨_, h.take L hnew.changes (fun hu => absurd hu hnew.unused) ⟨hnew.lt, ?_⟩ (Nat.zero_le _) (by simp) (by simp)
        hnew.first ?_⟩
      · unfold fileMetadataEntryIsFree
        simp [hfree, hname]
      · rw [hnew.size]
        exact Nat.zero_le _

/-- A file without data takes a free sector with its first write. -/
theorem OneSector.writeFresh (h : OneSector fs chain img) (L : Layout fs) (hname : Named fs img name i)
    (hi : Used fs img i) (hfirst : firstDataSector img (fileMetaAt fs i) = 0xffff) (hempty : chain i = [])
    (h0 : fileSize img (fileMetaAt fs i) = 0) (hfree : findFreeFat fs img = some g) (hsize : size ≤ fs.sectorSize) :
    OneSector fs (Function.update chain i [g]) (tagfsWrite img name buf size 0).2 := by
  obtain ⟨-, hgfree⟩ := findFreeFat_some hfree
  have hlt := L.sectorSize_lt (findFreeFat_some hfree).1
  obtain ⟨img', hr, hw⟩ := @tagfsWrite_first fs img name g i size 0 buf L h.header hname hfirst h0 hfree hsize (by omega)
  rw [hr]
  refine h.take L hw.changes (fun _ => hempty) (hw.sameName.used_iff.mpr hi) (Nat.le_refl _) ?_ ?_ hw.isChain.1 ?_
  · intro y hy
    rw [List.mem_singleton.mp hy]
    exact hgfree
  · intro y hy
    rw [List.mem_singleton.mp hy]
    exact h.lt_entries hi.1 (fun _ => hempty) fun z hz =>
      taken_of_lt_free ((findFreeFat_first hfree).symm ▸ hz)
  · rw [hw.size_eq, h0, List.length_singleton]
    omega

/-- A write in the sector of a file, or to its end when no sector is free, keeps the invariant. -/
theorem OneSector.writeOwn (h : OneSector fs chain img) (L : Layout fs) (hname : Named fs img name i)
    (hi : Used fs img i) (hc : chain i = [x]) (hoffset : offset ≤ fileSize img (fileMetaAt fs i))
    (hin : offset < fs.sectorSize) (hok : size ≤ fs.sectorSize - offset ∨ findFreeFat fs img = none) :
    OneSector fs chain (tagfsWrite img name buf size offset).2 := by
  have hchain := h.owned.isChain i hi
  have hsize := h.size_le i hi
  rw [hc] at hchain
  rw [hc, List.length_singleton, Nat.mul_one] at hsize
  obtain ⟨hfirst, -⟩ := hchain
  obtain ⟨hx, hx0⟩ := h.owned.taken_of_mem hi (hc ▸ List.mem_singleton_self x)
  have hne : firstDataSector img (fileMetaAt fs i) ≠ 0xffff := by
    have := L.fatCount_le
    rw [hfirst]
    omega
  have hstart : writeStart img (fileMetaAt fs i) offset = offset := by
    rw [writeStart_eq, Nat.min_eq_left hoffset]
  have hskip : skipSectors fs img (writeStart img (fileMetaAt fs i) offset / fs.sectorSize)
      (firstDataSector img (fileMetaAt fs i)) = some x := by
    rw [hstart, Nat.div_eq_of_lt hin, hfirst]
    rfl
  by_cases hfit : size ≤ fs.sectorSize - offset
  · rw [tagfsWrite_within h.header (hname.fileId L) hne hskip L hx hx0 (by rwa [hstart, Nat.mod_eq_of_lt hin]),
      hstart, Nat.mod_eq_of_lt hin]
    show OneSector fs chain (growFile _ _ _)
    have hcopy : ChangesOnly fs [] [] [x] img (copy img (sectorAt fs x + offset) size buf) :=
      changes_sector hx (by omega)
    refine h.resize L (hcopy.trans (changes_growFile hi.1)) ?_ (fun _ => ?_) fun _ => ?_
    · unfold fileMetadataEntryIsFree
      rw [growFile_out (by unfold nameAt; omega)]
      exact hcopy.isFree_eq L hi.1 (by simp)
    · rw [firstDataSector_growFile]
      exact hcopy.firstDataSector_eq L hi.1 (by simp)
    · have hlt := L.sectorSize_lt hx
      rw [fileSize_growFile (by omega), hcopy.fileSize_eq L hi.1 (by simp), hc, List.length_singleton]
      omega
  · rw [tagfsWrite_full h.header (hname.fileId L) hne hskip L hx (hok.resolve_left hfit)
      (by rw [hstart, Nat.mod_eq_of_lt hin]; omega), hstart, Nat.mod_eq_of_lt hin]
    show OneSector fs chain (copy _ _ _ _)
    have hcopy : ChangesOnly fs [] [] [x] img (copy img (sectorAt fs x + offset) (fs.sectorSize - offset) buf) :=
      changes_sector hx (by omega)
    refine h.resize L (i := i) (hcopy.mono (by simp) (by simp) (fun _ h => h) (by simpa using hi.1) (by simp)
      (by simpa using hx)) ?_ (fun _ => ?_) fun _ => ?_
    · exact hcopy.isFree_eq L hi.1 (by simp)
    · exact hcopy.firstDataSector_eq L hi.1 (by simp)
    · rwa [hcopy.fileSize_eq L hi.1 (by simp), hc, List.length_singleton, Nat.mul_one]

/-- A write that the driver gets right keeps the invariant. -/
theorem OneSector.write (h : OneSector fs chain img) (L : Layout fs) (hname : Named fs img name i)
    (hi : Used fs img i) (hoffset : offset ≤ fileSize img (fileMetaAt fs i))
    (hok : size ≤ fs.sectorSize - writeStart img (fileMetaAt fs i) offset % fs.sectorSize ∨ findFreeFat fs img = none ∨
      fs.sectorSize ≤ writeStart img (fileMetaAt fs i) offset) :
    ∃ chain, OneSector fs chain (tagfsWrite img name buf size offset).2 := by
  have hs := L.sectorSize
  have hchain := h.owned.isChain i hi
  have hlen := h.length_le i hi
  have hsize := h.size_le i hi
  have hstart : writeStart img (fileMetaAt fs i) offset = offset := by
    rw [writeStart_eq, Nat.min_eq_left hoffset]
  rw [hstart] at hok
  cases hc : chain i with
  | nil =>
    rw [hc] at hchain hsize
    have h0 : fileSize img (fileMetaAt fs i) = 0 := Nat.le_zero.mp hsize
    obtain rfl : offset = 0 := by omega
    cases hfree : findFreeFat fs img with
    | none => exact ⟨chain, by rwa [tagfsWrite_noSpace h.header (hname.fileId L) hchain hfree]⟩
    | some g =>
      rw [hfree, Nat.zero_mod] at hok
      have hle : size ≤ fs.sectorSize := by
        rcases hok with hok | hok | hok
        · exact hok
        · cases hok
        · omega
      exact ⟨_, h.writeFresh L hname hi hchain hc h0 hfree hle⟩
  | cons x l =>
    rw [hc, List.length_cons] at hlen hsize
    obtain rfl : l = [] := List.length_eq_zero_iff.mp (by omega)
    refine ⟨chain, ?_⟩
    rcases Nat.lt_or_ge offset fs.sectorSize with hin | hfull
    · rw [Nat.mod_eq_of_lt hin] at hok
      exact h.writeOwn L hname hi hc hoffset hin (hok.imp_right fun hok => hok.resolve_right (Nat.not_le_of_lt hin))
    · -- The file fills its sector: its chain ends before the place of the write.
      rw [hc] at hchain
      obtain ⟨hfirst, hend⟩ := hchain
      rw [List.length_nil, Nat.zero_add, Nat.mul_one] at hsize
      have hlast : fat fs img x = 0xffff := hend
      have hone : offset = fs.sectorSize := by omega
      have hx := (h.owned.taken_of_mem hi (hc ▸ List.mem_singleton_self x)).1
      have hne : firstDataSector img (fileMetaAt fs i) ≠ 0xffff := by
        have := L.fatCount_le
        rw [hfirst]
        omega
      rw [tagfsWrite_bad h.header (hname.fileId L) hne]
      · exact h
      · rw [hstart, hone, Nat.div_self (by omega), hfirst, skipSectors, if_pos hlast]

/-- `tagfs_unlink` of a file keeps the invariant. -/
theorem OneSector.unlink {fuel : Nat} (h : OneSector fs chain img) (L : Layout fs) (hname : Named fs img name i)
    (hi : Used fs img i) (hr : tagfsUnlink fuel img name = .ok img') : OneSector fs chain img' := by
  have hclear : ChangesOnly fs [i] [] [] img (copy img (nameAt (fileMetaAt fs i)) 1 fun _ => 0) :=
    changes_clearName hname.lt
  have hfree : ¬ Used fs (copy img (nameAt (fileMetaAt fs i)) 1 fun _ => 0) i := not_used_clearName
  have hchain := h.owned.isChain i hi
  have hlen := h.length_le i hi
  simp only [tagfsUnlink, h.header, hname.fileId L, fileMetaAt_succ_sub, firstDataSector_clearName] at hr
  split at hr
  · rename_i hnone
    obtain rfl := Res.ok.inj hr
    have hempty : chain i = [] := by
      cases hc : chain i with
      | nil => rfl
      | cons x l =>
        rw [hc] at hchain
        have hmem := h.owned.noStop i hi
        rw [hc, ← hnone, hchain.1] at hmem
        exact absurd List.mem_cons_self hmem
    exact h.drop L hi (hempty ▸ hclear) hfree (by simp [hempty])
  · rename_i hsome
    obtain ⟨x, hx⟩ : ∃ x, chain i = [x] := by
      refine List.length_eq_one_iff.mp (Nat.le_antisymm hlen (List.length_pos_iff.mpr fun hnil => ?_))
      rw [hnil] at hchain
      exact hsome hchain
    rw [hx] at hchain
    obtain ⟨hstart, hend⟩ := hchain
    have hxn : x < fatCount fs := (h.owned.taken_of_mem hi (hx ▸ List.mem_singleton_self x)).1
    have hend' : fat fs (copy img (nameAt (fileMetaAt fs i)) 1 fun _ => 0) x = 0xffff :=
      (hclear.fat_eq L hxn (by simp)).trans hend
    have hset : ChangesOnly fs [] [x] [] (copy img (nameAt (fileMetaAt fs i)) 1 fun _ => 0) _ :=
      changes_setFat (v := 0) hxn
    cases fuel with
    | zero => cases hr
    | succ fuel =>
      rw [unlinkLoop, hstart, if_pos hend'] at hr
      obtain rfl := Res.ok.inj hr
      refine h.drop L hi (hx ▸ hclear.trans hset) (fun hu => hfree ?_) fun y hy => ?_
      · refine ⟨hu.1, ?_⟩
        rw [← hset.isFree_eq L hu.1 (by simp)]
        exact hu.2
      · rw [hx] at hy
        rw [List.mem_singleton.mp hy]
        exact fat_setFat_self (by decide)

/-! ## Runs -/

/-- A call that the driver gets right keeps the invariant. -/
theorem OneSector.step {e : FuseEvent} (h : OneSector fs chain img) (L : Layout fs) (hok : WritesInSector img e)
    (hs : FuseStep img e img') : ∃ chain, OneSector fs chain img' := by
  cases e with
  | mknod name regular =>
    obtain rfl := hs
    exact h.mknod L name regular
  | write name buf size offset =>
    obtain ⟨hoffset, rfl⟩ := hs
    simp only [WritesInSector, h.header] at hok hoffset
    rcases named_or_absent fs img name with ⟨i, hname⟩ | habsent
    · have hid := hname.fileId L
      rw [WriteInSector, hid, Nat.add_sub_cancel] at hok
      rcases hok with hok | ⟨hne, hok⟩
      · cases hok
      · exact h.write L hname (hname.used hne) (hoffset i hname) hok
    · refine ⟨chain, ?_⟩
      unfold tagfsWrite
      simp only [h.header, habsent, if_pos]
      exact h
  | unlink name =>
    obtain ⟨⟨i, hname, hi⟩, fuel, hr⟩ := hs
    rw [h.header] at hname hi
    exact ⟨chain, h.unlink L hname hi hr⟩

/-- In the runs whose writes need no further sector, find none, or begin after a full one, the FAT is well formed. -/
theorem fuseFatOk_of_reachable (options : FormatOptions) (G : Geometry (headerOf options)) (img : Bytes)
    (h : (fuseSystem options).Reachable WritesInSector img) : FuseFatOk (headerOf options) img := by
  have hI : ∃ chain, OneSector (headerOf options) chain img := by
    refine h.invariant (I := fun img => ∃ chain, OneSector (headerOf options) chain img) ?_
      fun img e img' ⟨chain, hI⟩ hok hs => hI.step G.layout hok hs
    rintro img ⟨img₀, rfl⟩
    exact ⟨_, .init G img₀⟩
  obtain ⟨chain, hI⟩ := hI
  exact hI.fuseFatOk G.layout

/-- The file name `a`. -/
def nameA : CStr := ⟨[0x61], by decide⟩

/-- The file name `b`. -/
def nameB : CStr := ⟨[0x62], by decide⟩

/-- A formatted image with the empty file `a`. -/
def newFile : Bytes := (tagfsMknod (formatImage {} fun _ => 0) nameA true).2

/-- The image when 513 bytes are written to the file. -/
def longFile : Bytes := (tagfsWrite newFile nameA (fun _ => 1) 513 0).2

theorem reachable_newFile (ok : Bytes → FuseEvent → Prop) (hok : ok (formatImage {} fun _ => 0) (.mknod nameA true)) :
    (fuseSystem {}).Reachable ok newFile :=
  .step (.init ⟨_, rfl⟩) hok (show FuseStep _ (.mknod nameA true) newFile from rfl)

/-- A run with a write that fits the first sector. -/
theorem fuseFatOk_of_reachable_first : FuseFatOk (headerOf {}) (tagfsWrite newFile nameA (fun _ => 1) 3 0).2 := by
  apply fuseFatOk_of_reachable {} geometry_default
  have hok : WriteInSector (fsMeta newFile) newFile nameA 3 0 := by decide +kernel
  refine .step (reachable_newFile _ trivial) (i := .write nameA (fun _ => 1) 3 0) hok ?_
  exact ⟨fun _ _ => Nat.zero_le _, rfl⟩

/-- A write of two sectors to a new file leaves it without a chain. -/
theorem fuseFatOk_fails : ¬ ∀ img, (fuseSystem {}).Reachable (fun _ _ => True) img → FuseFatOk (headerOf {}) img := by
  intro hall
  have hreach : (fuseSystem {}).Reachable (fun _ _ => True) longFile := by
    refine .step (reachable_newFile _ trivial) (i := .write nameA (fun _ => 1) 513 0) trivial ?_
    exact ⟨fun _ _ => Nat.zero_le _, rfl⟩
  obtain ⟨hused, hsize, hfirst, hlink⟩ : fileMetadataEntryIsFree longFile (fileMetaAt (headerOf {}) 0) = false ∧
      fileSize longFile (fileMetaAt (headerOf {}) 0) = 513 ∧
      firstDataSector longFile (fileMetaAt (headerOf {}) 0) = 0 ∧ fat (headerOf {}) longFile 0 = 0 := by decide +kernel
  obtain ⟨l, hchain, -, -⟩ := (hall longFile hreach).isChain 0 ⟨by decide, hused⟩ (by rw [hsize]; decide)
  rw [hfirst] at hchain
  have hend := hchain.end_of_self hlink
  cases hend

end OSForReal.Proof.TagFS
