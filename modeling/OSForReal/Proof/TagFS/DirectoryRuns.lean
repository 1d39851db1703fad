import OSForReal.Proof.TagFS.Directory
import OSForReal.Proof.TagFS.Unlink

/-!
# The FUSE driver keeps a directory

An image of one-sector files shows a directory (`IsDirectory`), and each call
that keeps the contract returns what the directory says and leaves an image
that shows what it leaves (`fuseDriver_simulates`).
-/

namespace OSForReal.Proof.TagFS

open Framework
open Framework.Bytes
open OSForReal.TagFS

variable {fs : FSMetadata} {img img' : Bytes} {name : CStr} {chain chain' : Nat → List Nat} {d : Directory} {f : File}
  {o : Option File} {files fats sectors : List Nat} {data : List UInt8} {i j x offset size : Nat}

/-! ## Slots -/

/-- The entry `i` is that of the file `f`. -/
structure FileAt (fs : FSMetadata) (img : Bytes) (i : Nat) (f : File) : Prop where
  used : Used fs img i
  named : strcmpEq img (nameAt (fileMetaAt fs i)) f.name = true
  strlen : f.name.strlen < 24
  size : fileSize img (fileMetaAt fs i) = f.bytes.length
  bytes : ∀ k < f.bytes.length, img (sectorAt fs (firstDataSector img (fileMetaAt fs i)) + k) = f.bytes.getD k 0
  placed : f.placed = true ↔ firstDataSector img (fileMetaAt fs i) ≠ 0xffff

/-- The entry `i` is free, or that of a file. -/
def Slot (fs : FSMetadata) (img : Bytes) (i : Nat) : Option File → Prop
  | none => ¬ Used fs img i
  | some f => FileAt fs img i f

/-- The image shows the directory. -/
structure IsDirectory (fs : FSMetadata) (img : Bytes) (d : Directory) : Prop where
  oneSector : ∃ chain, OneSector fs chain img
  slots : ∀ i, Slot fs img i (d i)

/-- The room in an image. -/
def volumeOf (fs : FSMetadata) : Volume where
  entries := countFileMetaEntries fs
  sectors := fatCount fs
  sectorSize := fs.sectorSize

/-- A file without a sector has no bytes; the others have theirs in the one of their chain. -/
theorem FileAt.cases (h : FileAt fs img i f) (hO : OneSector fs chain img) (L : Layout fs) :
    f.placed = false ∧ chain i = [] ∧ firstDataSector img (fileMetaAt fs i) = 0xffff ∧ f.bytes = [] ∨
      f.placed = true ∧ chain i = [firstDataSector img (fileMetaAt fs i)] ∧
        firstDataSector img (fileMetaAt fs i) < fatCount fs ∧ f.bytes.length ≤ fs.sectorSize := by
  have hchain := hO.owned.isChain i h.used
  have hlen := hO.length_le i h.used
  have hsize := hO.size_le i h.used
  rw [h.size] at hsize
  cases hc : chain i with
  | nil =>
    rw [hc] at hchain hsize
    have hfirst : firstDataSector img (fileMetaAt fs i) = 0xffff := hchain
    have hplaced := h.placed
    rw [hfirst] at hplaced
    exact .inl ⟨by simpa using hplaced, rfl, hfirst, List.length_eq_zero_iff.mp (Nat.le_zero.mp hsize)⟩
  | cons x l =>
    rw [hc, List.length_cons] at hlen hsize
    obtain rfl : l = [] := List.length_eq_zero_iff.mp (by omega)
    rw [hc] at hchain
    obtain ⟨rfl, -⟩ := hchain
    have hlt := (hO.owned.taken_of_mem h.used (hc ▸ List.mem_singleton_self _)).1
    have hcount := L.fatCount_le
    exact .inr ⟨h.placed.mpr (by omega), rfl, hlt, by simpa using hsize⟩

theorem SameName.growFile {n : Nat} : SameName fs i img (growFile img (fileMetaAt fs i) n) := fun k _ =>
  growFile_out (by unfold nameAt; omega)

/-- A command that changes the bytes of a file. -/
theorem FileAt.rewrite {bytes : List UInt8} {placed : Bool} (h : FileAt fs img i f) (hn : SameName fs i img img')
    (hsize : fileSize img' (fileMetaAt fs i) = bytes.length)
    (hbytes : ∀ k < bytes.length, img' (sectorAt fs (firstDataSector img' (fileMetaAt fs i)) + k) = bytes.getD k 0)
    (hplaced : placed = true ↔ firstDataSector img' (fileMetaAt fs i) ≠ 0xffff) :
    FileAt fs img' i { f with bytes, placed } where
  used := hn.used_iff.mpr h.used
  named := (hn.strcmpEq_eq h.strlen).trans h.named
  strlen := h.strlen
  size := hsize
  bytes := hbytes
  placed := hplaced

/-- What a command leaves alone of the other slots. -/
theorem Slot.congr (h : Slot fs img j o) (hO : OneSector fs chain img) (L : Layout fs)
    (hch : ChangesOnly fs files fats sectors img img') (hj : j ∉ files)
    (hsec : Used fs img j → ∀ x ∈ chain j, x ∉ sectors) : Slot fs img' j o := by
  cases o with
  | none =>
    rintro ⟨hlt, hu⟩
    rw [hch.isFree_eq L hlt hj] at hu
    exact h ⟨hlt, hu⟩
  | some f =>
    have hf : FileAt fs img j f := h
    have hlt := hf.used.1
    have hfirst := hch.firstDataSector_eq L hlt hj
    refine (⟨⟨hlt, ?_⟩, ?_, hf.strlen, ?_, fun k hk => ?_, ?_⟩ : FileAt fs img' j f)
    · rw [hch.isFree_eq L hlt hj]
      exact hf.used.2
    · rw [hch.strcmpEq_eq L hlt hj hf.strlen]
      exact hf.named
    · rw [hch.fileSize_eq L hlt hj]
      exact hf.size
    · rw [hfirst, ← hf.bytes k hk]
      rcases hf.cases hO L with ⟨-, -, -, hnil⟩ | ⟨-, hc, hx, hle⟩
      · rw [hnil] at hk
        cases hk
      · exact hch.sector L hx (hsec hf.used _ (hc ▸ List.mem_singleton_self _)) ⟨by omega, by omega⟩
    · rw [hfirst]
      exact hf.placed

/-- A command that changes one slot. -/
theorem IsDirectory.update (h : IsDirectory fs img d) (hO : OneSector fs chain img) (hO' : OneSector fs chain' img')
    (L : Layout fs) (hch : ChangesOnly fs [i] fats sectors img img')
    (hsec : ∀ j, Used fs img j → j ≠ i → ∀ x ∈ chain j, x ∉ sectors) (hi : Slot fs img' i o) :
    IsDirectory fs img' (Function.update d i o) := by
  refine ⟨⟨_, hO'⟩, fun j => ?_⟩
  by_cases hj : j = i
  · rw [hj, Function.update_self]
    exact hi
  · rw [Function.update_of_ne hj]
    exact (h.slots j).congr hO L hch (by simpa using hj) fun hu => hsec j hu hj

/-- What `tagfs_mknod` returns. -/
theorem tagfsMknod_status (hfs : fsMeta img = fs) (name : CStr) (regular : Bool) :
    (tagfsMknod img name regular).1 =
      if regular = false then -38
      else if 24 ≤ name.strlen then -enametoolong
      else if findFreeFileMeta fs img = countFileMetaEntries fs then -enospc
      else 0 := by
  cases regular with
  | false => rfl
  | true =>
    simp only [tagfsMknod, hfs, if_true, Bool.true_eq_false, if_false]
    split
    · rfl
    · split <;> rfl

/-- `tagfs_unlink` of a file of one sector returns, with the name and the sector freed. -/
theorem FileAt.unlink (h : FileAt fs img i f) (hO : OneSector fs chain img) (L : Layout fs) (hnamed : Named fs img name i) :
    ∃ img₁, (∀ img', (∃ fuel, tagfsUnlink fuel img name = .ok img') ↔ img' = img₁) ∧
      ∃ fats, ChangesOnly fs [i] fats [] img img₁ ∧ ¬ Used fs img₁ i := by
  have he : fileMetaAt (fsMeta img) (getFileIdFromName (fsMeta img) img name) - sizeofFileMetadata = fileMetaAt fs i := by
    rw [hO.header, hnamed.fileId L, fileMetaAt_succ_sub]
  simp only [tagfsUnlink_ok_iff he, hO.header]
  have hclear : ChangesOnly fs [i] [] [] img (copy img (nameAt (fileMetaAt fs i)) 1 fun _ => 0) :=
    changes_clearName hnamed.lt
  have hfree : ¬ Used fs (copy img (nameAt (fileMetaAt fs i)) 1 fun _ => 0) i := not_used_clearName
  rcases h.cases hO L with ⟨-, -, hfirst, -⟩ | ⟨-, hc, hx, -⟩
  · exact ⟨_, by simp [hfirst], _, hclear, hfree⟩
  · have hcount := L.fatCount_le
    have hne : firstDataSector img (fileMetaAt fs i) ≠ 0xffff := by omega
    have hend := hO.owned.isChain i h.used
    rw [hc] at hend
    have hlast : fat fs (copy img (nameAt (fileMetaAt fs i)) 1 fun _ => 0) (firstDataSector img (fileMetaAt fs i)) =
        0xffff := (hclear.fat_eq L hx (by simp)).trans hend.2
    have hset : ChangesOnly fs [] [firstDataSector img (fileMetaAt fs i)] []
        (copy img (nameAt (fileMetaAt fs i)) 1 fun _ => 0) _ := changes_setFat (v := 0) hx
    refine ⟨_, fun img' => ?_, _, hclear.trans hset, fun hu => hfree ⟨hu.1, ?_⟩⟩
    · rw [unlinkLoop_ok_iff]
      simp [hne, hlast]
    · rw [← hset.isFree_eq L hu.1 (by simp)]
      exact hu.2

/-- `tagfs_unlink`, as a call. -/
theorem fuseDriver_unlink_iff {r : FuseResult} : fuseDriver.call img (.unlink name) r img' ↔
    r = .status 0 ∧ ∃ fuel, tagfsUnlink fuel img name = .ok img' := by
  constructor
  · rintro ⟨fuel, hr⟩
    obtain ⟨p, hp, hr⟩ := Res.bind_eq_ok.mp hr
    obtain ⟨rfl, rfl⟩ := Prod.mk.inj (Res.ok.inj hr)
    obtain ⟨h0, hu⟩ := tagfsUnlinkCall_ok_iff.mp ⟨fuel, hp⟩
    exact ⟨congrArg _ h0, hu⟩
  · rintro ⟨rfl, hu⟩
    obtain ⟨fuel, hp⟩ := tagfsUnlinkCall_ok_iff.mpr ⟨rfl, hu⟩
    exact ⟨fuel, by rw [fuseCall, hp, Res.ok_bind]⟩

/-! ## Looking a name up -/

/-- The entry of a slot has the name that its file has. -/
theorem Slot.strcmpEq_eq (h : Slot fs img i o) (hi : i < countFileMetaEntries fs) (hname : name.strlen ≠ 0) :
    strcmpEq img (nameAt (fileMetaAt fs i)) name = Directory.hasName name o := by
  cases o with
  | none =>
    have hfree : img (nameAt (fileMetaAt fs i)) = 0 := by
      by_contra hne
      exact h ⟨hi, by simpa [fileMetadataEntryIsFree] using hne⟩
    have hno : strcmpEq img (nameAt (fileMetaAt fs i)) name = false := by
      by_contra hne
      have hnil := (strcmpEq_first (Bool.not_eq_false _ ▸ hne)).mp hfree
      exact hname (by simp [CStr.strlen, hnil])
    rw [hno]
    rfl
  | some f =>
    have hf : FileAt fs img i f := h
    rw [Bool.eq_iff_iff]
    simp only [Directory.hasName, Option.any_some, decide_eq_true_eq]
    constructor
    · intro hs
      exact strcmpEq_unique hf.named hs
    · intro hs
      rw [← hs]
      exact hf.named

namespace IsDirectory

variable (h : IsDirectory fs img d)

include h

/-- The search for a name stops at the slot of the first file of the name. -/
theorem scan_eq (hname : name.strlen ≠ 0) :
    scan (fun i => strcmpEq img (nameAt (fileMetaAt fs i)) name) (countFileMetaEntries fs) 0 =
      scan (fun i => Directory.hasName name (d i)) (countFileMetaEntries fs) 0 :=
  scan_congr fun i _ hi => (h.slots i).strcmpEq_eq hi hname

omit h in
theorem getFileIdFromName_eq_zero (hid : ¬ scan (fun i => strcmpEq img (nameAt (fileMetaAt fs i)) name)
    (countFileMetaEntries fs) 0 < countFileMetaEntries fs) : getFileIdFromName fs img name = 0 := by
  simp only [getFileIdFromName]
  rw [if_neg hid]

/-- A name is not found, in the directory and in the image, or is that of the same entry. -/
theorem find_cases (hname : name.strlen ≠ 0) :
    (Directory.find (volumeOf fs) d name = none ∧ ¬ scan (fun i => strcmpEq img (nameAt (fileMetaAt fs i)) name)
      (countFileMetaEntries fs) 0 < countFileMetaEntries fs) ∨
      ∃ i f, Directory.find (volumeOf fs) d name = some (i, f) ∧ Named fs img name i ∧ FileAt fs img i f := by
  have hscan := h.scan_eq hname
  by_cases hlt : scan (fun i => Directory.hasName name (d i)) (countFileMetaEntries fs) 0 < countFileMetaEntries fs
  · have hfound := scan_spec (p := fun i => Directory.hasName name (d i)) hlt
    cases hd : d (scan (fun i => Directory.hasName name (d i)) (countFileMetaEntries fs) 0) with
    | none =>
      rw [hd] at hfound
      cases hfound
    | some f =>
      have hf := h.slots (scan (fun i => Directory.hasName name (d i)) (countFileMetaEntries fs) 0)
      rw [hd] at hf
      refine .inr ⟨_, f, ?_, ⟨hlt, ?_, fun j hj => ?_⟩, hf⟩
      · exact Directory.find_eq_some (V := volumeOf fs) rfl hlt hd
      · rw [(h.slots _).strcmpEq_eq hlt hname]
        exact hfound
      · rw [(h.slots j).strcmpEq_eq (Nat.lt_trans hj hlt) hname]
        exact scan_before (p := fun i => Directory.hasName name (d i)) (Nat.zero_le j) hj
  · exact .inl ⟨Directory.find_eq_none (V := volumeOf fs) hlt, hscan ▸ hlt⟩

theorem header : fsMeta img = fs := by
  obtain ⟨chain, hO⟩ := h.oneSector
  exact hO.header

/-- A slot is used in the image when it is in the directory. -/
theorem isFree_eq (hi : i < countFileMetaEntries fs) :
    fileMetadataEntryIsFree img (fileMetaAt fs i) = (d i).isNone := by
  have hs := h.slots i
  cases hd : d i with
  | none =>
    rw [hd] at hs
    by_contra hne
    exact hs ⟨hi, by simpa using hne⟩
  | some f =>
    rw [hd] at hs
    exact hs.used.2

/-- The first free entry is that of the first slot without a file. -/
theorem freeSlot_eq : findFreeFileMeta fs img = Directory.freeSlot (volumeOf fs) d :=
  scan_congr fun _ _ hi => h.isFree_eq hi

/-- No sector is free when the files hold all of them. -/
theorem full_iff (L : Layout fs) : Directory.Full (volumeOf fs) d ↔ findFreeFat fs img = none := by
  obtain ⟨chain, hO⟩ := h.oneSector
  have hcount := L.fatCount_le
  -- The files with a sector, and the sectors taken.
  have hcard : Nat.count (fun i => (d i).any (·.placed) = true) (countFileMetaEntries fs) =
      ((Finset.range (fatCount fs)).filter fun x => fat fs img x ≠ 0).card := by
    rw [Nat.count_eq_card_filter_range]
    have hmem : ∀ i, (d i).any (·.placed) = true → Used fs img i ∧
        chain i = [firstDataSector img (fileMetaAt fs i)] := fun i hi => by
      obtain ⟨f, hd, hp⟩ : ∃ f, d i = some f ∧ f.placed = true := by simpa [Option.any_eq_true] using hi
      have hf := h.slots i
      rw [hd] at hf
      rcases hf.cases hO L with ⟨hp', -, -, -⟩ | ⟨-, hc, -, -⟩
      · rw [hp'] at hp
        cases hp
      · exact ⟨hf.used, hc⟩
    refine Finset.card_bij (fun i _ => firstDataSector img (fileMetaAt fs i)) (fun i hi => ?_)
      (fun i hi j hj hij => ?_) fun x hx => ?_
    · obtain ⟨hu, hc⟩ := hmem i (Finset.mem_filter.mp hi).2
      have htaken := hO.owned.taken_of_mem hu (hc ▸ List.mem_singleton_self _)
      exact Finset.mem_filter.mpr ⟨Finset.mem_range.mpr htaken.1, htaken.2⟩
    · obtain ⟨hu, hc⟩ := hmem i (Finset.mem_filter.mp hi).2
      obtain ⟨hu', hc'⟩ := hmem j (Finset.mem_filter.mp hj).2
      by_contra hne
      refine hO.owned.disjoint i j hu hu' hne (hc ▸ List.mem_singleton_self _) ?_
      rw [hc', ← hij]
      exact List.mem_singleton_self _
    · obtain ⟨hx, h0⟩ := Finset.mem_filter.mp hx
      obtain ⟨i, hu, hxi⟩ := (hO.owned.taken_iff x).mp ⟨Finset.mem_range.mp hx, h0⟩
      have hs := h.slots i
      cases hd : d i with
      | none =>
        rw [hd] at hs
        exact absurd hu hs
      | some f =>
        rw [hd] at hs
        rcases hs.cases hO L with ⟨-, hc, -, -⟩ | ⟨hp, hc, -, -⟩
        · rw [hc] at hxi
          cases hxi
        · rw [hc] at hxi
          refine ⟨i, Finset.mem_filter.mpr ⟨Finset.mem_range.mpr hu.1, ?_⟩, (List.mem_singleton.mp hxi).symm⟩
          simp [hd, hp]
  show fatCount fs ≤ Nat.count _ (countFileMetaEntries fs) ↔ _
  rw [hcard]
  have hle := Finset.card_filter_le (Finset.range (fatCount fs)) fun x => fat fs img x ≠ 0
  rw [Finset.card_range] at hle
  constructor
  · intro hge
    have hall : (Finset.range (fatCount fs)).filter (fun x => fat fs img x ≠ 0) = Finset.range (fatCount fs) :=
      Finset.eq_of_subset_of_card_le (Finset.filter_subset _ _) (by rwa [Finset.card_range])
    cases hfree : findFreeFat fs img with
    | none => rfl
    | some g =>
      obtain ⟨hg, h0⟩ := findFreeFat_some hfree
      have hmem := Finset.mem_range.mpr hg
      rw [← hall] at hmem
      exact absurd h0 (Finset.mem_filter.mp hmem).2
  · intro hnone
    have hall : (Finset.range (fatCount fs)).filter (fun x => fat fs img x ≠ 0) = Finset.range (fatCount fs) :=
      Finset.filter_true_of_mem fun x hx => findFreeFat_none hnone (Finset.mem_range.mp hx)
    rw [hall, Finset.card_range]

/-! ## The calls -/

/-- The call returns, what the directory says, and leaves an image that shows the directory left. -/
def Answers (fs : FSMetadata) (img : Bytes) (d : Directory) (c : FuseCall) : Prop :=
  ∃ img₁, IsDirectory fs img₁ (Directory.call (volumeOf fs) d c).2 ∧
    ∀ r img', fuseDriver.call img c r img' ↔ r = (Directory.call (volumeOf fs) d c).1 ∧ img' = img₁

omit h in
/-- A call that does not depend on the fuel. -/
theorem answers_of_eq {c : FuseCall} (r : FuseResult) (img₁ : Bytes)
    (hcall : ∀ fuel, fuseCall fuel img c = .ok (r, img₁))
    (hr : r = (Directory.call (volumeOf fs) d c).1) (hd : IsDirectory fs img₁ (Directory.call (volumeOf fs) d c).2) :
    Answers fs img d c := by
  refine ⟨img₁, hd, fun r' img' => ?_⟩
  show (∃ fuel, fuseCall fuel img c = .ok (r', img')) ↔ _
  simp only [hcall, exists_const, Res.ok.injEq, Prod.mk.injEq, hr, eq_comm]

/-- The loop over the files of the root adds their sizes up. -/
theorem foldl_addFile {l : List Nat} (st : Stat) (hl : ∀ i ∈ l, i < countFileMetaEntries fs) (hst : st.blksize = 512) :
    l.foldl (addFile fs img) st =
      { st with
        size := st.size + ((l.filterMap d).map fun f => f.bytes.length).sum
        blocks := st.blocks + ((l.filterMap d).map fun f => ceilDiv f.bytes.length 512).sum } := by
  induction l generalizing st with
  | nil => rfl
  | cons i l ih =>
    have hi := hl i List.mem_cons_self
    have hs := h.slots i
    have hl' := fun j hj => hl j (List.mem_cons_of_mem _ hj)
    rw [List.foldl_cons, addFile, h.isFree_eq hi]
    cases hd : d i with
    | none =>
      rw [List.filterMap_cons_none hd]
      exact ih st hl' hst
    | some f =>
      rw [hd] at hs
      rw [List.filterMap_cons_some hd, if_neg (by simp), ih _ hl' (by exact hst), hs.size, hst]
      simp only [List.map_cons, List.sum_cons, Nat.add_assoc]

theorem getattr (name : CStr) : Answers fs img d (.getattr name) := by
  by_cases hname : name.strlen = 0
  · refine answers_of_eq (.attr 0 (some (Directory.rootStat (volumeOf fs) d))) img (fun fuel => ?_) ?_ ?_
    · simp only [fuseCall, tagfsGetattr, h.header]
      rw [if_pos hname, h.foldl_addFile _ (fun i hi => List.mem_range.mp hi) rfl]
      simp [Directory.rootStat, Directory.files, volumeOf, List.map_filterMap, Function.comp_def]
    · rw [Directory.call, if_pos hname]
    · rw [Directory.call, if_pos hname]
      exact h
  · rcases h.find_cases hname with ⟨hnone, hid⟩ | ⟨i, f, hsome, hnamed, hf⟩
    · refine answers_of_eq (.attr (-enoent) none) img (fun fuel => ?_) ?_ ?_
      · simp only [fuseCall, tagfsGetattr, h.header]
        rw [if_neg hname, if_neg hid]
        rfl
      · rw [Directory.call, if_neg hname, hnone]
      · rw [Directory.call, if_neg hname, hnone]
        exact h
    · refine answers_of_eq (.attr 0 (some (Directory.fileStat i f))) img (fun fuel => ?_) ?_ ?_
      · simp only [fuseCall, tagfsGetattr, h.header]
        rw [if_neg hname, hnamed.scan_eq, if_pos hnamed.lt, hf.size]
        rfl
      · rw [Directory.call, if_neg hname, hsome]
      · rw [Directory.call, if_neg hname, hsome]
        exact h

theorem readdir (name : CStr) : Answers fs img d (.readdir name) := by
  refine answers_of_eq _ img (fun fuel => ?_) rfl h
  simp only [fuseCall, tagfsReaddir, h.header, Directory.call]
  congr 3
  by_cases hname : name.strlen = 0
  · rw [if_pos hname, if_pos hname, Directory.files, List.map_filterMap, List.map_filterMap]
    refine List.filterMap_congr fun i hi => ?_
    have hs := h.slots i
    rw [h.isFree_eq (List.mem_range.mp hi)]
    cases hd : d i with
    | none => rfl
    | some f =>
      rw [hd] at hs
      simp [hs.size, strAt_eq_some.mpr ⟨hs.named, hs.strlen⟩]
  · rw [if_neg hname, if_neg hname]
    rfl

theorem read (L : Layout fs) (hok : Directory.Ok (volumeOf fs) d (.read name size offset)) :
    Answers fs img d (.read name size offset) := by
  obtain ⟨hname, hwindow⟩ := hok
  obtain ⟨chain, hO⟩ := h.oneSector
  rcases h.find_cases hname with ⟨hnone, hid⟩ | ⟨i, f, hsome, hnamed, hf⟩
  · refine answers_of_eq (.bytes (-enoent) []) img (fun fuel => ?_) ?_ ?_
    · simp only [fuseCall, tagfsRead, h.header]
      rw [getFileIdFromName_eq_zero hid, if_pos rfl]
      rfl
    · rw [Directory.call, hnone]
    · rw [Directory.call, hnone]
      exact h
  · have hwindow := hwindow (i, f) hsome
    refine answers_of_eq (.bytes ((f.bytes.drop offset).take size).length ((f.bytes.drop offset).take size)) img
      (fun fuel => ?_) ?_ ?_
    · simp only [fuseCall, tagfsRead, h.header]
      rw [hnamed.fileId L, if_neg (Nat.succ_ne_zero i), Nat.add_sub_cancel, hf.size]
      by_cases hend : f.bytes.length ≤ offset
      · rw [if_pos hend]
        simp [List.drop_eq_nil_of_le hend]
      · rcases hf.cases hO L with ⟨-, -, -, hnil⟩ | ⟨-, -, hx, hle⟩
        · simp [hnil] at hend
        · have hlt := L.sectorSize_lt hx
          have hin : offset + size ≤ f.bytes.length := hwindow.resolve_right hend
          rw [if_neg hend, Nat.div_eq_of_lt (by omega), skipSectors]
          simp only [Nat.mod_eq_of_lt (show offset < fs.sectorSize by omega)]
          rw [if_pos (by omega), toInt_eq (by omega)]
          have hlen : ((f.bytes.drop offset).take size).length = size := by
            rw [List.length_take, List.length_drop]
            omega
          have hdata : (List.range size).map (copy (fun _ => 0) 0 size fun k =>
              img (sectorAt fs (firstDataSector img (fileMetaAt fs i)) + offset + k)) =
              (f.bytes.drop offset).take size := by
            refine List.ext_getElem (by rw [List.length_map, List.length_range, hlen]) fun k hk _ => ?_
            have hk : k < size := by simpa using hk
            rw [List.getElem_map, List.getElem_range, copy_in (Nat.zero_le k) (by omega), List.getElem_take,
              List.getElem_drop, Nat.sub_zero, Nat.add_assoc, hf.bytes _ (by omega), List.getD_eq_getElem]
          simp only [Int.toNat_natCast, hdata, hlen]
    · rw [Directory.call, hsome]
    · rw [Directory.call, hsome]
      exact h

theorem mknod {regular : Bool} (L : Layout fs) (hname : name.strlen ≠ 0) : Answers fs img d (.mknod name regular) := by
  obtain ⟨chain, hO⟩ := h.oneSector
  obtain ⟨chain', hO'⟩ := hO.mknod L name regular
  have hstatus : (tagfsMknod img name regular).1 = Directory.mknodStatus (volumeOf fs) d name regular := by
    rw [tagfsMknod_status h.header name regular, h.freeSlot_eq]
    rfl
  refine answers_of_eq _ _ (fun fuel => fuseCall_mknod fuel img name regular) (congrArg _ hstatus) ?_
  show IsDirectory fs _ (if Directory.mknodStatus (volumeOf fs) d name regular = 0 then _ else d)
  rcases tagfsMknod_cases h.header name regular with ⟨e, he, hfail⟩ | ⟨-, img', hdone, hnew⟩
  · rw [hfail] at hstatus ⊢
    rw [if_neg fun h0 => he (hstatus.trans h0)]
    exact h
  · rw [hdone] at hstatus hO' ⊢
    rw [if_pos hstatus.symm]
    rw [h.freeSlot_eq] at hnew
    have hused : Used fs img' (Directory.freeSlot (volumeOf fs) d) :=
      used_of_name hnew.lt hnew.named fun hnil => hname (by simp [CStr.strlen, hnil])
    refine h.update hO hO' L hnew.changes (fun _ _ _ _ _ => List.not_mem_nil) ?_
    exact ⟨hused, hnew.named, hnew.strlen, hnew.size, fun k hk => absurd hk (Nat.not_lt_zero k), by simp [hnew.first]⟩

theorem unlink (L : Layout fs) (hok : Directory.Ok (volumeOf fs) d (.unlink name)) : Answers fs img d (.unlink name) := by
  obtain ⟨chain, hO⟩ := h.oneSector
  obtain ⟨hname, hsome⟩ := hok
  rcases h.find_cases hname with ⟨hnone, -⟩ | ⟨i, f, hfind, hnamed, hf⟩
  · rw [hnone] at hsome
    cases hsome
  · obtain ⟨img₁, himg, fats, hch, hfree⟩ := hf.unlink hO L hnamed
    obtain ⟨fuel, hu⟩ := (himg img₁).mpr rfl
    refine ⟨img₁, ?_, fun r img' => ?_⟩
    · simp only [Directory.call, hfind]
      exact h.update hO (hO.unlink L hnamed hf.used hu) L hch (fun _ _ _ _ _ => List.not_mem_nil) hfree
    · simp only [Directory.call, hfind]
      rw [fuseDriver_unlink_iff, himg img']

omit h in
/-- A write to a file that is found. -/
theorem answers_of_write {r : Int} {d' : Directory} {img₁ : Bytes} (hfind : Directory.find (volumeOf fs) d name = some (i, f))
    (hwrite : Directory.write (volumeOf fs) d i f data offset = (r, d'))
    (hcall : tagfsWrite img name (fun k => data.getD k 0) data.length offset = (r, img₁)) (hd : IsDirectory fs img₁ d') :
    Answers fs img d (.write name data offset) := by
  have hdir := Directory.call_write_some data offset hfind
  rw [hwrite] at hdir
  refine answers_of_eq _ _ (fun fuel => fuseCall_write fuel img name data offset) ?_ ?_ <;> rw [hcall, hdir]
  exact hd

/-- A write to a file without a sector. -/
theorem write_fresh (L : Layout fs) (hnamed : Named fs img name i) (hf : FileAt fs img i f) (hplaced : f.placed = false)
    (hfind : Directory.find (volumeOf fs) d name = some (i, f)) (hoffset : offset ≤ f.bytes.length)
    (hok : offset + data.length ≤ fs.sectorSize ∨ Directory.Full (volumeOf fs) d ∨ fs.sectorSize ≤ offset) :
    Answers fs img d (.write name data offset) := by
  obtain ⟨chain, hO⟩ := h.oneSector
  obtain ⟨-, hc, hfirst, hnil⟩ : f.placed = false ∧ chain i = [] ∧ firstDataSector img (fileMetaAt fs i) = 0xffff ∧
      f.bytes = [] := (hf.cases hO L).resolve_right fun hp => by
    rw [hp.1] at hplaced
    cases hplaced
  have hs := L.sectorSize
  have hempty : fileSize img (fileMetaAt fs i) = 0 := by rw [hf.size, hnil, List.length_nil]
  obtain rfl : offset = 0 := by simpa [hnil] using hoffset
  cases hfree : findFreeFat fs img with
  | none =>
    have hfull := (h.full_iff L).mpr hfree
    exact answers_of_write hfind (Directory.write_noSpace hplaced hfull)
      (tagfsWrite_noSpace h.header (hnamed.fileId L) hfirst hfree) h
  | some g =>
    have hfull : ¬ Directory.Full (volumeOf fs) d := fun hfull => by
      rw [(h.full_iff L).mp hfull] at hfree
      cases hfree
    have hfit : 0 + data.length ≤ fs.sectorSize := by
      rcases hok with hok | hok | hok
      · exact hok
      · exact absurd hok hfull
      · omega
    have hg := (findFreeFat_some hfree).1
    have hlt := L.sectorSize_lt hg
    have hcount := L.fatCount_le
    obtain ⟨img', hr, hw⟩ := tagfsWrite_first (fun k => data.getD k 0) L h.header hnamed hfirst hempty hfree
      (show data.length ≤ fs.sectorSize by omega) (show 0 + data.length < 2 ^ 32 by omega)
    have hO' := @OneSector.writeFresh _ _ (fun k => data.getD k 0) _ _ _ _ data.length hO L hnamed hf.used hfirst hc
      hempty hfree (by omega)
    rw [hr] at hO'
    rw [toInt_eq (by omega)] at hr
    have hdisjoint : ∀ j, Used fs img j → j ≠ i → ∀ x ∈ chain j, x ∉ [g] := by
      intro j hj _ x hx hxg
      rw [List.mem_singleton.mp hxg] at hx
      exact (hO.owned.taken_of_mem hj hx).2 (findFreeFat_some hfree).2
    refine answers_of_write hfind (Directory.write_fits (fun hp => hfull hp.2) (show 0 < fs.sectorSize by omega) hfit) hr
      (h.update hO hO' L hw.changes hdisjoint (hf.rewrite hw.sameName ?_ (fun k hk => ?_) ?_))
    · rw [hw.size_eq, hempty, length_overwrite hoffset, hnil, List.length_nil]
    · rw [length_overwrite hoffset, hnil, List.length_nil] at hk
      rw [hw.first, hw.written k (by omega), getD_overwrite hoffset, if_pos (by omega), Nat.sub_zero]
    · rw [hw.first]
      simp only [true_iff]
      omega

/-- A write to a file with a sector. -/
theorem write_own (L : Layout fs) (hnamed : Named fs img name i) (hf : FileAt fs img i f) (hplaced : f.placed = true)
    (hfind : Directory.find (volumeOf fs) d name = some (i, f)) (hoffset : offset ≤ f.bytes.length)
    (hok : offset + data.length ≤ fs.sectorSize ∨ Directory.Full (volumeOf fs) d ∨ fs.sectorSize ≤ offset) :
    Answers fs img d (.write name data offset) := by
  obtain ⟨chain, hO⟩ := h.oneSector
  obtain ⟨-, hc, hx, hle⟩ : f.placed = true ∧ chain i = [firstDataSector img (fileMetaAt fs i)] ∧
      firstDataSector img (fileMetaAt fs i) < fatCount fs ∧ f.bytes.length ≤ fs.sectorSize :=
    (hf.cases hO L).resolve_left fun hp => by
      rw [hp.1] at hplaced
      cases hplaced
  have hs := L.sectorSize
  have hlt := L.sectorSize_lt hx
  have hcount := L.fatCount_le
  have hne : firstDataSector img (fileMetaAt fs i) ≠ 0xffff := by omega
  have hend := hO.owned.isChain i hf.used
  rw [hc] at hend
  have hstart : writeStart img (fileMetaAt fs i) offset = offset := by
    rw [writeStart_eq, hf.size, Nat.min_eq_left hoffset]
  rcases Nat.lt_or_ge offset fs.sectorSize with hin | hfill
  · have hi := hf.used.1
    have hskip : skipSectors fs img (writeStart img (fileMetaAt fs i) offset / fs.sectorSize)
        (firstDataSector img (fileMetaAt fs i)) = some (firstDataSector img (fileMetaAt fs i)) := by
      rw [hstart, Nat.div_eq_of_lt hin, skipSectors]
    have hroom : fs.sectorSize - writeStart img (fileMetaAt fs i) offset % fs.sectorSize = fs.sectorSize - offset := by
      rw [hstart, Nat.mod_eq_of_lt hin]
    have hdisjoint : ∀ j, Used fs img j → j ≠ i → ∀ x ∈ chain j, x ∉ [firstDataSector img (fileMetaAt fs i)] := by
      intro j hj hji x hx
      rw [← hc]
      exact hO.owned.disjoint j i hj hf.used hji hx
    by_cases hfit : offset + data.length ≤ fs.sectorSize
    · have hx0 := (hO.owned.taken_of_mem hf.used (hc ▸ List.mem_singleton_self _)).2
      have hr : tagfsWrite img name (fun k => data.getD k 0) data.length offset = _ :=
        tagfsWrite_within h.header (hnamed.fileId L) hne hskip L hx hx0 (by omega)
      have hO' := @OneSector.writeOwn _ _ (fun k => data.getD k 0) _ _ _ _ data.length offset hO L hnamed hf.used hc
        (hf.size ▸ hoffset) hin (.inl (by omega))
      rw [hr] at hO'
      rw [toInt_eq (by omega)] at hr
      rw [hstart, Nat.mod_eq_of_lt hin] at hr hO'
      have hcopy : ChangesOnly fs [] [] [firstDataSector img (fileMetaAt fs i)] img (copy img
          (sectorAt fs (firstDataSector img (fileMetaAt fs i)) + offset) data.length fun k => data.getD k 0) :=
        changes_sector hx hfit
      have hgrow := @changes_growFile _ (copy img (sectorAt fs (firstDataSector img (fileMetaAt fs i)) + offset)
        data.length fun k => data.getD k 0) _ (offset + data.length) hi
      have hname := (SameName.of_changes L hcopy hi (by simp)).trans (SameName.growFile (n := offset + data.length))
      have hfirst := (firstDataSector_growFile (n := offset + data.length)).trans
        (hcopy.firstDataSector_eq L hi (by simp))
      refine answers_of_write hfind (Directory.write_fits (by simp [hplaced]) hin hfit) hr
        (h.update hO hO' L (hcopy.trans hgrow) hdisjoint (hf.rewrite hname ?_ (fun k hk => ?_) ?_))
      · rw [fileSize_growFile (by omega), hcopy.fileSize_eq L hi (by simp), hf.size, length_overwrite hoffset]
      · rw [length_overwrite hoffset] at hk
        rw [hfirst, hgrow.sector L hx (by simp) ⟨by omega, by omega⟩, copy_add, getD_overwrite hoffset]
        split
        · rfl
        · exact hf.bytes k (by omega)
      · rw [hfirst]
        simpa using hne
    · have hfull : findFreeFat fs img = none := (h.full_iff L).mp ((hok.resolve_left hfit).resolve_right (by omega))
      have hr : tagfsWrite img name (fun k => data.getD k 0) data.length offset = _ :=
        tagfsWrite_full h.header (hnamed.fileId L) hne hskip L hx hfull (by omega)
      have hO' := @OneSector.writeOwn _ _ (fun k => data.getD k 0) _ _ _ _ data.length offset hO L hnamed hf.used hc
        (hf.size ▸ hoffset) hin (.inr hfull)
      rw [hr] at hO'
      rw [toInt_eq (by omega)] at hr
      rw [hstart, Nat.mod_eq_of_lt hin] at hr hO'
      have hcopy : ChangesOnly fs [] [] [firstDataSector img (fileMetaAt fs i)] img (copy img
          (sectorAt fs (firstDataSector img (fileMetaAt fs i)) + offset) (fs.sectorSize - offset) fun k => data.getD k 0) :=
        changes_sector hx (by omega)
      have hfirst := hcopy.firstDataSector_eq L hi (by simp)
      have htaken : (data.take (fs.sectorSize - offset)).length = fs.sectorSize - offset :=
        List.length_take_of_le (by omega)
      have hlen : ((overwrite f.bytes offset (data.take (fs.sectorSize - offset))).take f.bytes.length).length =
          f.bytes.length := by
        rw [List.length_take, length_overwrite hoffset]
        omega
      refine answers_of_write hfind (Directory.write_short hplaced hin (Nat.lt_of_not_le hfit)) hr
        (h.update hO hO' L (hcopy.mono (by simp) (List.nil_subset []) (fun _ hm => hm) (by simpa using hi) (by simp)
          (by simpa using hx)) hdisjoint (hf.rewrite (.of_changes L hcopy hi (by simp)) ?_ (fun k hk => ?_) ?_))
      · exact (hcopy.fileSize_eq L hi (by simp)).trans (hf.size.trans hlen.symm)
      · have hsize : (volumeOf fs).sectorSize = fs.sectorSize := rfl
        rw [hsize, hlen] at hk
        rw [hfirst, copy_add, hsize, getD_take hk, getD_overwrite hoffset, htaken]
        split
        · exact (getD_take (by omega)).symm
        · exact hf.bytes k hk
      · rw [hfirst]
        exact hf.placed
  · -- The file fills its sector.
    refine answers_of_write hfind (Directory.write_end hplaced hfill) (tagfsWrite_bad h.header (hnamed.fileId L) hne ?_) h
    have hone : offset = fs.sectorSize := by omega
    have hlast : fat fs img (firstDataSector img (fileMetaAt fs i)) = 0xffff := hend.2
    rw [hstart, hone, Nat.div_self (by omega), skipSectors, if_pos hlast]

theorem write (L : Layout fs) (hok : Directory.Ok (volumeOf fs) d (.write name data offset)) :
    Answers fs img d (.write name data offset) := by
  obtain ⟨hname, hwindow⟩ := hok
  rcases h.find_cases hname with ⟨hnone, hid⟩ | ⟨i, f, hsome, hnamed, hf⟩
  · have hdir := Directory.call_write_none data offset hnone
    have hcall : tagfsWrite img name (fun k => data.getD k 0) data.length offset = (-enoent, img) := by
      simp only [tagfsWrite, h.header, getFileIdFromName_eq_zero hid, if_true]
    refine answers_of_eq _ _ (fun fuel => fuseCall_write fuel img name data offset) ?_ ?_ <;> rw [hcall, hdir]
    exact h
  · obtain ⟨hoffset, hok⟩ := hwindow (i, f) hsome
    cases hplaced : f.placed with
    | false => exact h.write_fresh L hnamed hf hplaced hsome hoffset hok
    | true => exact h.write_own L hnamed hf hplaced hsome hoffset hok

/-- Every call that keeps the contract. -/
theorem call (L : Layout fs) {c : FuseCall} (hok : Directory.Ok (volumeOf fs) d c) : Answers fs img d c := by
  cases c with
  | getattr name => exact h.getattr name
  | readdir name => exact h.readdir name
  | read name size offset => exact h.read L hok
  | mknod name regular => exact h.mknod L hok
  | write name data offset => exact h.write L hok
  | unlink name => exact h.unlink L hok

end IsDirectory

/-- A formatted image shows the directory without files. -/
theorem isDirectory_formatImage {options : FormatOptions} (G : Geometry (headerOf options)) (img : Bytes) :
    IsDirectory (headerOf options) (formatImage options img) Directory.empty :=
  ⟨⟨_, .init G img⟩, not_used_formatImage G img⟩

/-- The driver on images with the header `fs` is a directory, as long as the contract is kept. -/
theorem fuseDriver_simulates (L : Layout fs) :
    Simulation fuseDriver (Directory.call (volumeOf fs)) (Directory.Ok (volumeOf fs)) (IsDirectory fs) where
  returns img d c h hok := by
    obtain ⟨img₁, -, hcall⟩ := h.call L hok
    exact ⟨_, img₁, (hcall _ _).mpr ⟨rfl, rfl⟩⟩
  agrees img d c r img' h hok hr := by
    obtain ⟨img₁, hd, hcall⟩ := h.call L hok
    obtain ⟨rfl, rfl⟩ := (hcall _ _).mp hr
    exact ⟨rfl, hd⟩

end OSForReal.Proof.TagFS
