import OSForReal.Proof.Tfs.Memory

/-!
# The routes through `tfs_write`

`viewWrite_eq` says what a call on a file does to the image: it writes data
(`viewData`) and the file's entry, and never the FAT. The data goes to the
sector where the write begins, and what does not fit there to the first entry
that is free in memory, over and over (`viewWriteRest_some`).
-/

namespace OSForReal.Proof.Tfs

open Framework
open Framework.Bytes
open OSForReal.TagFS
open OSForReal.Proof.TagFS

variable {fs : FSMetadata} {img img' view buf fats m : Bytes} {name : CStr} {l : List Nat}
  {e g i k n o r v x size offset : Nat}

/-! ## A file entry in memory -/

/-- The bytes of the entry at `e` are those of `m`. -/
def SameEntry (img : Bytes) (e : Nat) (m : Bytes) : Prop := ∀ k < 32, img (e + k) = m k

namespace SameEntry

theorem u32_eq (h : SameEntry img e m) (ho : o + 4 ≤ 32) : u32 img (e + o) = u32 m o := by
  unfold u32 u16
  rw [h o (by omega), Nat.add_assoc e o 1, Nat.add_assoc e o 2, Nat.add_assoc e (o + 2) 1, h (o + 1) (by omega),
    h (o + 2) (by omega), h (o + 2 + 1) (by omega)]

theorem setU32 (h : SameEntry img e m) : SameEntry (setU32 img (e + o) v) e (setU32 m o v) := fun k hk => by
  by_cases hin : o ≤ k ∧ k < o + 4
  · unfold Bytes.setU32
    rw [copy_in (by omega) (by omega), copy_in (by omega) (by omega)]
    congr 1
    omega
  · rw [setU32_out (by omega), setU32_out (by omega)]
    exact h k hk

theorem setFirstDataSector (h : SameEntry img e m) :
    SameEntry (setFirstDataSector img e v) e (setFirstDataSector m 0 v) := h.setU32 (o := 0)

theorem growFile (h : SameEntry img e m) : SameEntry (growFile img e n) e (growFile m 0 n) := by
  have hsize : fileSize img e = fileSize m 0 := h.u32_eq (o := 4) (by decide)
  unfold OSForReal.TagFS.growFile
  rw [hsize]
  split
  · exact h.setU32 (o := 4)
  · exact h

/-- Writing the entry back gives the image that has its bytes. -/
theorem copy_eq (h : SameEntry img' e m) (hout : ∀ a, a < e ∨ e + 32 ≤ a → img' a = img a) : copy img e 32 m = img' := by
  funext a
  by_cases ha : e ≤ a ∧ a < e + 32
  · obtain ⟨k, rfl⟩ := Nat.exists_eq_add_of_le ha.1
    rw [copy_in (by omega) (by omega), Nat.add_sub_cancel_left, h k (by omega)]
  · rw [copy_out (by omega), hout a (by omega)]

end SameEntry

/-! ## Data -/

/-- Only bytes of the data section change. -/
def DataOnly (fs : FSMetadata) (img img' : Bytes) : Prop := ∀ a < getData fs, img' a = img a

namespace DataOnly

theorem trans {img'' : Bytes} (h : DataOnly fs img img') (h' : DataOnly fs img' img'') : DataOnly fs img img'' :=
  fun a ha => (h' a ha).trans (h a ha)

theorem of_copy {src : Nat → UInt8} : DataOnly fs img (copy img (sectorAt fs x + o) n src) := fun a ha =>
  copy_out (by have := Layout.getData_le fs x; omega)

theorem entry (h : DataOnly fs img img') (L : Layout fs) (hi : i < countFileMetaEntries fs) :
    ∀ k < 32, img' (fileMetaAt fs i + k) = img (fileMetaAt fs i + k) := fun k hk => by
  have hfiles := L.files; have htags := L.tags; have hlinks := L.links; have hfats := L.fats
  exact h _ (by rw [Layout.fileMetaAt_eq]; omega)

theorem fat_eq (h : DataOnly fs img img') (L : Layout fs) (hx : x < fatCount fs) : fat fs img' x = fat fs img x := by
  have hfats := L.fats
  exact u16_congr fun a ha ha' => h a (by rw [Layout.fatAt_eq] at ha'; omega)

theorem fsMeta_eq (h : DataOnly fs img img') (L : Layout fs) : fsMeta img' = fsMeta img := by
  have hs := L.sectorSize; have hfiles := L.files; have htags := L.tags; have hlinks := L.links; have hfats := L.fats
  exact fsMeta_congr fun a _ => h a (by omega)

end DataOnly

/-- The loop, when no entry is free in memory. -/
theorem viewWriteRest_none {fuel bufIndex : Nat} (hfree : tfsFindFreeFat fs fats = none) :
    viewWriteRest fs fats buf size fuel img bufIndex = (img, bufIndex) := by
  cases fuel with
  | zero => rfl
  | succ fuel =>
    rw [viewWriteRest, hfree]
    split <;> rfl

/-- A pass of the loop. -/
theorem viewWriteRest_step (K : KernelImage fs) {fuel bufIndex : Nat} (hfree : tfsFindFreeFat fs fats = some g)
    (h : bufIndex < size) : viewWriteRest fs fats buf size (fuel + 1) img bufIndex = viewWriteRest fs fats buf size fuel
      (copy img (sectorAt fs g) (chunk fs size bufIndex) fun k => buf (bufIndex + k)) (bufIndex + chunk fs size bufIndex) := by
  have hg := (tfsFindFreeFat_some K hfree).1
  have hchunk : chunk fs size bufIndex ≤ 512 := K.sectorSize_eq ▸ chunk_le_sectorSize
  rw [viewWriteRest, if_pos h, hfree]
  show viewWriteRest fs fats buf size fuel (patchedSector img (tfsSectorLba fs g) 0 (chunk fs size bufIndex) _)
    (bufIndex + chunk fs size bufIndex) = _
  rw [patchedSector_eq (by omega), K.sectorLba (by omega), Nat.add_zero]

/-- The loop writes to the first free sector only, and all of the buffer. -/
theorem viewWriteRest_some (K : KernelImage fs) (buf : Bytes) (size fuel bufIndex : Nat)
    (hfree : tfsFindFreeFat fs fats = some g) (h : bufIndex ≤ size) (hfuel : size ≤ bufIndex + fuel) :
    ∃ img', viewWriteRest fs fats buf size fuel img bufIndex = (img', size) ∧ ChangesOnly fs [] [] [g] img img' := by
  have hg : g < fatCount fs := by
    rw [K.fatCount_eq]
    exact (tfsFindFreeFat_some K hfree).1
  induction fuel generalizing img bufIndex with
  | zero =>
    obtain rfl : bufIndex = size := by omega
    exact ⟨img, rfl, by simp, by simp, by simpa using hg, fun _ _ _ _ _ => rfl⟩
  | succ fuel ih =>
    rcases Nat.eq_or_lt_of_le h with rfl | hlt
    · refine ⟨img, ?_, by simp, by simp, by simpa using hg, fun _ _ _ _ _ => rfl⟩
      rw [viewWriteRest, if_neg (Nat.lt_irrefl _)]
    · have hchunk : 1 ≤ chunk fs size bufIndex := chunk_pos (by rw [K.sectorSize_eq]; decide) hlt
      have hle : bufIndex + chunk fs size bufIndex ≤ size := chunk_le h
      have hch := changes_chunk img size bufIndex (fun k => buf (bufIndex + k)) hg
      obtain ⟨img', hr, hch'⟩ := @ih (copy img (sectorAt fs g) (chunk fs size bufIndex) fun k => buf (bufIndex + k))
        _ hle (by omega)
      refine ⟨img', ?_, (hch.trans hch').mono (by simp) (by simp) (by simp) (by simp) (by simp) (by simpa using hg)⟩
      rw [viewWriteRest_step K hfree hlt, hr]

/-- The loop writes data only. -/
theorem viewWriteRest_dataOnly (K : KernelImage fs) (buf : Bytes) (size fuel bufIndex : Nat) :
    DataOnly fs img (viewWriteRest fs fats buf size fuel img bufIndex).1 := by
  induction fuel generalizing img bufIndex with
  | zero => exact fun _ _ => rfl
  | succ fuel ih =>
    cases hfree : tfsFindFreeFat fs fats with
    | none =>
      rw [viewWriteRest_none hfree]
      exact fun _ _ => rfl
    | some g =>
      by_cases hlt : bufIndex < size
      · rw [viewWriteRest_step K hfree hlt]
        exact DataOnly.trans (DataOnly.of_copy (o := 0)) (ih _)
      · rw [viewWriteRest, if_neg hlt]
        exact fun _ _ => rfl

/-- The data that a write puts in the sector `x` from its byte `r` on, and
elsewhere: the image, and the number of bytes written. -/
def viewData (fs : FSMetadata) (fats img buf : Bytes) (size x r : Nat) : Bytes × Nat :=
  if size ≤ 512 - r then (copy img (sectorAt fs x + r) size buf, size)
  else viewWriteRest fs fats buf size size (copy img (sectorAt fs x + r) (512 - r) buf) (512 - r)

theorem viewData_dataOnly (K : KernelImage fs) : DataOnly fs img (viewData fs fats img buf size x r).1 := by
  unfold viewData
  split
  · exact .of_copy
  · exact DataOnly.trans .of_copy (viewWriteRest_dataOnly K _ _ _ _)

/-! ## The routes -/

/-- The first sector of the file at `e`, a free one for a file without data. -/
def viewStart (fs : FSMetadata) (fats img : Bytes) (e : Nat) : Option Nat :=
  if firstDataSector img e = 0xffff then tfsFindFreeFat fs fats else some (firstDataSector img e)

/-- The image with the entry at `e` as a write leaves it. -/
def viewEntry (img₀ img : Bytes) (e g n : Nat) : Bytes :=
  growFile (if firstDataSector img₀ e = 0xffff then setFirstDataSector img e g else img) e n

theorem viewEntry_out {img₀ : Bytes} {a : Nat} (h : a < e ∨ e + 8 ≤ a) : viewEntry img₀ img e g n a = img a := by
  unfold viewEntry
  rw [growFile_out h]
  split
  · exact setU32_out (by omega)
  · rfl

/-- The entry of a file, as it is found on the disk. -/
theorem sameEntry_disk (K : KernelImage fs) :
    SameEntry img (fileMetaAt fs i) (diskSector img (1 + i / 16) <| 32 * (i % 16) + ·) := fun k _ => by
  show img _ = img (512 * (1 + i / 16) + (32 * (i % 16) + k))
  rw [← Nat.add_assoc, K.metaAt]

/-- The data is written through the cached sectors. -/
theorem viewData_eq (K : KernelImage fs) (hx : x < 2 ^ 16) (hr : r < 512) :
    (if size ≤ 512 - r then (patchedSector img (tfsSectorLba fs x) r size buf, size)
      else viewWriteRest fs fats buf size size (patchedSector img (tfsSectorLba fs x) r (512 - r) buf) (512 - r)) =
      viewData fs fats img buf size x r := by
  unfold viewData
  split
  · rw [patchedSector_eq (by omega), K.sectorLba hx]
  · rw [patchedSector_eq (by omega), K.sectorLba hx]

/-- The end of a call, from the first sector `g` on. The entry `m` in memory has become `m'`, and is
written back last. -/
theorem viewWrite_rest {m m' : Bytes} {g : Nat} (K : KernelImage fs) (hi : i < countFileMetaEntries fs)
    (hentry : SameEntry img (fileMetaAt fs i) m) (hg : g < 2 ^ 16) (hsize : fileSize m' 0 = fileSize m 0)
    (hset : ∀ img', SameEntry img' (fileMetaAt fs i) m → SameEntry (if firstDataSector img (fileMetaAt fs i) = 0xffff then
      setFirstDataSector img' (fileMetaAt fs i) g else img') (fileMetaAt fs i) m') :
    (match skipFats fats (writeStart m' 0 offset / fs.sectorSize) g with
      | none => (false, img)
      | some x =>
        let (disk, written) :=
          if size ≤ fs.sectorSize - writeStart m' 0 offset % fs.sectorSize then
            (patchedSector img (tfsSectorLba fs x) (writeStart m' 0 offset % fs.sectorSize) size buf, size)
          else viewWriteRest fs fats buf size size
            (patchedSector img (tfsSectorLba fs x) (writeStart m' 0 offset % fs.sectorSize)
              (fs.sectorSize - writeStart m' 0 offset % fs.sectorSize) buf)
            (fs.sectorSize - writeStart m' 0 offset % fs.sectorSize)
        (true, patchedSector disk (1 + i / 16) (32 * (i % 16)) sizeofFileMetadata (growFile m' 0 ((offset + written) % 2 ^ 32)))) =
    match skipFats fats (writeStart img (fileMetaAt fs i) offset / 512) g with
      | none => (false, img)
      | some x =>
        let (img', written) := viewData fs fats img buf size x (writeStart img (fileMetaAt fs i) offset % 512)
        (true, viewEntry img img' (fileMetaAt fs i) g ((offset + written) % 2 ^ 32)) := by
  have hstart : writeStart m' 0 offset = writeStart img (fileMetaAt fs i) offset := by
    have hm_size : fileSize m 0 = fileSize img (fileMetaAt fs i) := (hentry.u32_eq (o := 4) (by decide)).symm
    unfold writeStart
    rw [hsize, hm_size]
  rw [hstart, K.sectorSize_eq]
  cases hskip : skipFats fats (writeStart img (fileMetaAt fs i) offset / 512) g with
  | none => rfl
  | some x =>
    have hdata : DataOnly fs img (viewData fs fats img buf size x (writeStart img (fileMetaAt fs i) offset % 512)).1 :=
      viewData_dataOnly K
    simp only [viewData_eq K (skipFats_lt hg hskip) (Nat.mod_lt _ (by decide))]
    generalize viewData fs fats img buf size x (writeStart img (fileMetaAt fs i) offset % 512) = d at hdata
    obtain ⟨img', written⟩ := d
    have hsame : SameEntry img' (fileMetaAt fs i) m := fun k hk => (hdata.entry K.layout hi k hk).trans (hentry k hk)
    rw [patchedSector_eq (by have : sizeofFileMetadata = 32 := rfl; omega), K.metaAt]
    congr 2
    exact (hset img' hsame).growFile.copy_eq fun a ha => viewEntry_out (by omega)

/-- What a call does to a file. -/
theorem viewWrite_eq (K : KernelImage fs) (hname : OnlyNamed fs img name i)
    (hfirst : firstDataSector img (fileMetaAt fs i) < 2 ^ 16) :
    viewWrite fs img view name buf size offset =
      match viewStart fs (viewFats fs img view) img (fileMetaAt fs i) with
      | none => (false, img)
      | some g =>
        match skipFats (viewFats fs img view) (writeStart img (fileMetaAt fs i) offset / 512) g with
        | none => (false, img)
        | some x =>
          let (img', written) :=
            viewData fs (viewFats fs img view) img buf size x (writeStart img (fileMetaAt fs i) offset % 512)
          (true, viewEntry img img' (fileMetaAt fs i) g ((offset + written) % 2 ^ 32)) := by
  -- The entry in memory is the one on the disk.
  have hentry := @sameEntry_disk fs img i K
  generalize hm : (diskSector img (1 + i / 16) <| 32 * (i % 16) + · : Bytes) = m at hentry
  have hm_first : firstDataSector m 0 = firstDataSector img (fileMetaAt fs i) := (hentry.u32_eq (o := 0) (by decide)).symm
  simp only [viewWrite, metadata_found K hname, hm, viewStartOfFile, hm_first, viewStart]
  -- Whichever way the entry gets its first sector, the rest is the same.
  by_cases hf : firstDataSector img (fileMetaAt fs i) = 0xffff
  · simp only [if_pos hf]
    cases hfree : tfsFindFreeFat fs (viewFats fs img view) with
    | none => rfl
    | some g =>
      have hg := (tfsFindFreeFat_some K hfree).1
      have hsize : fileSize (setFirstDataSector m 0 g) 0 = fileSize m 0 := fileSize_setFirstDataSector
      refine viewWrite_rest K hname.lt hentry (by omega) hsize fun img' h => ?_
      rw [if_pos hf]
      exact h.setFirstDataSector
  · simp only [if_neg hf]
    refine viewWrite_rest K hname.lt hentry hfirst rfl fun img' h => ?_
    rwa [if_neg hf]

/-- A write in the file begins at its offset. -/
theorem writeStart_of_le (h : offset ≤ fileSize img e) : writeStart img e offset = offset := by
  rw [writeStart_eq, Nat.min_eq_left h]

/-- What a call does to a file with a chain. -/
theorem viewWrite_chain (K : KernelImage fs) (hname : OnlyNamed fs img name i)
    (hchain : FatChain fs img (firstDataSector img (fileMetaAt fs i)) l) (hl : l ≠ []) :
    viewWrite fs img view name buf size offset =
      match skipFats (viewFats fs img view) (writeStart img (fileMetaAt fs i) offset / 512)
        (firstDataSector img (fileMetaAt fs i)) with
      | none => (false, img)
      | some x =>
        let (img', written) :=
          viewData fs (viewFats fs img view) img buf size x (writeStart img (fileMetaAt fs i) offset % 512)
        (true, growFile img' (fileMetaAt fs i) ((offset + written) % 2 ^ 32)) := by
  have hlt := first_lt K hchain hl
  have hne : firstDataSector img (fileMetaAt fs i) ≠ 0xffff := by omega
  cases hskip : skipFats (viewFats fs img view) (writeStart img (fileMetaAt fs i) offset / 512)
      (firstDataSector img (fileMetaAt fs i)) with
  | none => simp only [viewWrite_eq K hname (by omega), viewStart, if_neg hne, hskip]
  | some x => simp only [viewWrite_eq K hname (by omega), viewStart, if_neg hne, hskip, viewEntry]

/-- Where it arrives at the sector `x`. -/
theorem viewWrite_chain_some (K : KernelImage fs) (hname : OnlyNamed fs img name i)
    (hchain : FatChain fs img (firstDataSector img (fileMetaAt fs i)) l) (hl : l ≠ [])
    (hskip : skipFats (viewFats fs img view) (writeStart img (fileMetaAt fs i) offset / 512)
      (firstDataSector img (fileMetaAt fs i)) = some x) :
    viewWrite fs img view name buf size offset = (true,
      growFile (viewData fs (viewFats fs img view) img buf size x (writeStart img (fileMetaAt fs i) offset % 512)).1
        (fileMetaAt fs i) ((offset + (viewData fs (viewFats fs img view) img buf size x
          (writeStart img (fileMetaAt fs i) offset % 512)).2) % 2 ^ 32)) := by
  have h := @viewWrite_chain fs img view buf name l i size offset K hname hchain hl
  rw [hskip] at h
  exact h

/-- What a call does to a file without data. -/
theorem viewWrite_new (K : KernelImage fs) (hname : OnlyNamed fs img name i)
    (hfirst : firstDataSector img (fileMetaAt fs i) = 0xffff) (hempty : fileSize img (fileMetaAt fs i) = 0) :
    viewWrite fs img view name buf size offset =
      match tfsFindFreeFat fs (viewFats fs img view) with
      | none => (false, img)
      | some g =>
        let (img', written) := viewData fs (viewFats fs img view) img buf size g 0
        (true, growFile (setFirstDataSector img' (fileMetaAt fs i) g) (fileMetaAt fs i)
          ((offset + written) % 2 ^ 32)) := by
  have hstart : writeStart img (fileMetaAt fs i) offset = 0 := by
    rw [writeStart_eq, hempty, Nat.min_zero]
  cases hfree : tfsFindFreeFat fs (viewFats fs img view) with
  | none => simp only [viewWrite_eq K hname (by omega), viewStart, if_pos hfirst, hfree]
  | some g =>
    simp only [viewWrite_eq K hname (by omega), viewStart, if_pos hfirst, hfree, hstart, Nat.zero_div, Nat.zero_mod,
      skipFats, viewEntry]

/-! ## Where a write begins -/

/-- It begins where skipping from the first sector arrives. -/
theorem Arrives.skip (K : KernelImage fs) (hname : OnlyNamed fs img name i) (h : Arrives fs img view name offset x) : ∃ g,
    viewStart fs (viewFats fs img view) img (fileMetaAt fs i) = some g ∧
      skipFats (viewFats fs img view) (writeStart img (fileMetaAt fs i) offset / 512) g = some x := by
  obtain ⟨e, entry, g, he, hstart, hskip⟩ := h
  rw [metadata_found K hname] at he
  obtain rfl := Option.some.inj he
  have hentry := @sameEntry_disk fs img i K
  generalize (diskSector img (1 + i / 16) <| 32 * (i % 16) + · : Bytes) = m at hstart hentry
  have hfirst : firstDataSector m 0 = firstDataSector img (fileMetaAt fs i) := (hentry.u32_eq (o := 0) (by decide)).symm
  have hsize : fileSize m 0 = fileSize img (fileMetaAt fs i) := (hentry.u32_eq (o := 4) (by decide)).symm
  unfold viewStartOfFile at hstart
  unfold viewStart
  rw [hfirst] at hstart
  rw [K.sectorSize_eq] at hskip
  split at hstart
  · rename_i hnew
    obtain ⟨g', hfree, hg⟩ := Option.map_eq_some_iff.mp hstart
    obtain ⟨rfl, rfl⟩ := Prod.mk.inj hg
    refine ⟨g', by rw [if_pos hnew, hfree], ?_⟩
    unfold writeStart at hskip ⊢
    rwa [fileSize_setFirstDataSector, hsize] at hskip
  · rename_i hold
    obtain ⟨rfl, rfl⟩ := Prod.mk.inj (Option.some.inj hstart)
    refine ⟨_, if_neg hold, ?_⟩
    unfold writeStart at hskip ⊢
    rwa [hsize] at hskip

/-- Of a file with a chain. -/
theorem Arrives.of_chain (K : KernelImage fs) (hname : OnlyNamed fs img name i)
    (hchain : FatChain fs img (firstDataSector img (fileMetaAt fs i)) l) (hl : l ≠ []) (h : Arrives fs img view name offset x) :
    skipFats (viewFats fs img view) (writeStart img (fileMetaAt fs i) offset / 512) (firstDataSector img (fileMetaAt fs i)) =
      some x := by
  have hlt := first_lt K hchain hl
  obtain ⟨g, hstart, hskip⟩ := h.skip K hname
  rw [viewStart, if_neg (by omega)] at hstart
  obtain rfl := Option.some.inj hstart
  exact hskip

/-- Of a file without data, in the first sector that is free in memory. -/
theorem Arrives.of_new (K : KernelImage fs) (hname : OnlyNamed fs img name i)
    (hfirst : firstDataSector img (fileMetaAt fs i) = 0xffff) (hempty : fileSize img (fileMetaAt fs i) = 0)
    (h : Arrives fs img view name offset x) : tfsFindFreeFat fs (viewFats fs img view) = some x := by
  obtain ⟨g, hstart, hskip⟩ := h.skip K hname
  rw [viewStart, if_pos hfirst] at hstart
  rw [writeStart_eq, hempty, Nat.min_zero, Nat.zero_div] at hskip
  obtain rfl : g = x := Option.some.inj hskip
  exact hstart

/-- Where the entries on the way are in the first FAT sector, it is a sector of the FAT. -/
theorem Arrives.lt_of_low (K : KernelImage fs) (hname : OnlyNamed fs img name i)
    (hchain : FatChain fs img (firstDataSector img (fileMetaAt fs i)) l) (hl : l ≠ [])
    (hq : writeStart img (fileMetaAt fs i) offset / 512 ≤ l.length)
    (hlow : ∀ j < writeStart img (fileMetaAt fs i) offset / 512, l.getD j 0 < 256) (h : Arrives fs img view name offset x) :
    x < 512 := by
  have hskip := h.of_chain K hname hchain hl
  rcases Nat.eq_or_lt_of_le hq with hq | hq
  · rw [hq, skipFats_length K hchain hl fun j hj => hlow j (by omega)] at hskip
    cases hskip
  · rw [skipFats_low K hchain hq hlow] at hskip
    rw [← Option.some.inj hskip]
    exact getD_lt K hchain hq

theorem Arrives.lt_of_new (K : KernelImage fs) (hname : OnlyNamed fs img name i)
    (hfirst : firstDataSector img (fileMetaAt fs i) = 0xffff) (hempty : fileSize img (fileMetaAt fs i) = 0)
    (h : Arrives fs img view name offset x) : x < 512 :=
  (tfsFindFreeFat_some K (h.of_new K hname hfirst hempty)).1

/-- A name that no entry has does not arrive anywhere. -/
theorem not_arrives (hnone : viewMetadata fs img name = none) : ¬ Arrives fs img view name offset x := fun h => by
  obtain ⟨e, -, -, he, -⟩ := h
  rw [hnone] at he
  cases he

/-! ## What a call keeps -/

/-- Before the data section, only the first sector and the size of file `i` change. -/
def FileOnly (fs : FSMetadata) (i : Nat) (img img' : Bytes) : Prop :=
  ∀ a < getData fs, a < fileMetaAt fs i ∨ fileMetaAt fs i + 8 ≤ a → img' a = img a

namespace FileOnly

variable {j : Nat}

theorem refl (fs : FSMetadata) (i : Nat) (img : Bytes) : FileOnly fs i img img := fun _ _ _ => rfl

theorem fat_eq (h : FileOnly fs i img img') (L : Layout fs) (hi : i < countFileMetaEntries fs) (hx : x < fatCount fs) :
    fat fs img' x = fat fs img x := by
  have hfiles := L.files; have htags := L.tags; have hlinks := L.links; have hfats := L.fats
  refine u16_congr fun a ha ha' => h a ?_ (.inr ?_) <;> rw [Layout.fatAt_eq] at ha ha'
  · omega
  · rw [Layout.fileMetaAt_eq]
    omega

theorem sameName (h : FileOnly fs i img img') (L : Layout fs) (hj : j < countFileMetaEntries fs) :
    SameName fs j img img' := fun k hk => by
  have hfiles := L.files; have htags := L.tags; have hlinks := L.links; have hfats := L.fats
  refine h _ ?_ ?_ <;> simp only [nameAt, Layout.fileMetaAt_eq] <;> omega

theorem fsMeta_eq (h : FileOnly fs i img img') (L : Layout fs) : fsMeta img' = fsMeta img := by
  have hs := L.sectorSize; have hfiles := L.files; have htags := L.tags; have hlinks := L.links; have hfats := L.fats
  exact fsMeta_congr fun a _ => h a (by omega) (.inl (by rw [Layout.fileMetaAt_eq]; omega))

theorem firstDataSector_eq (h : FileOnly fs i img img') (L : Layout fs) (hj : j < countFileMetaEntries fs) (hji : j ≠ i) :
    firstDataSector img' (fileMetaAt fs j) = firstDataSector img (fileMetaAt fs j) := by
  have hfiles := L.files; have htags := L.tags; have hlinks := L.links; have hfats := L.fats
  exact u32_congr fun a ha ha' => h a (by rw [Layout.fileMetaAt_eq] at ha'; omega) (by
    rw [Layout.fileMetaAt_eq] at ha ha' ⊢
    omega)

theorem fileSize_eq (h : FileOnly fs i img img') (L : Layout fs) (hj : j < countFileMetaEntries fs) (hji : j ≠ i) :
    fileSize img' (fileMetaAt fs j) = fileSize img (fileMetaAt fs j) := by
  have hfiles := L.files; have htags := L.tags; have hlinks := L.links; have hfats := L.fats
  exact u32_congr fun a ha ha' => h a (by rw [Layout.fileMetaAt_eq] at ha'; omega) (by
    rw [Layout.fileMetaAt_eq] at ha ha' ⊢
    omega)

theorem used_iff (h : FileOnly fs i img img') (L : Layout fs) : Used fs img' j ↔ Used fs img j := by
  by_cases hj : j < countFileMetaEntries fs
  · exact (h.sameName L hj).used_iff
  · exact iff_of_false (fun hu => hj hu.1) fun hu => hj hu.1

theorem onlyNamed (h : FileOnly fs i img img') (L : Layout fs) (hlen : name.strlen < 24) (hname : OnlyNamed fs img name j) :
    OnlyNamed fs img' name j := by
  refine ⟨hname.lt, ?_, fun k hk hfound => hname.only k hk ?_⟩
  · rw [(h.sameName L hname.lt).strcmpEq_eq hlen]
    exact hname.found
  · rwa [← (h.sameName L hk).strcmpEq_eq hlen]

theorem distinctNames (h : FileOnly fs i img img') (L : Layout fs) (hnames : DistinctNames fs img) : DistinctNames fs img' :=
  hnames.congr fun _ hj => h.sameName L hj

/-- A chain stays. -/
theorem fatChain (h : FileOnly fs i img img') (L : Layout fs) (hi : i < countFileMetaEntries fs)
    (hchain : FatChain fs img g l) : FatChain fs img' g l :=
  ⟨hchain.1.frame fun x hx => h.fat_eq L hi (hchain.2 x hx), hchain.2⟩

end FileOnly

/-- Data, and the entry of the file. -/
theorem fileOnly_tfsEntry (h : DataOnly fs img img') : FileOnly fs i img (viewEntry img img' (fileMetaAt fs i) g n) :=
  fun a ha hout => (viewEntry_out hout).trans (h a ha)

/-- The call does not write the FAT, nor another file's entry. -/
theorem viewWrite_fileOnly (K : KernelImage fs) (hname : OnlyNamed fs img name i)
    (hfirst : firstDataSector img (fileMetaAt fs i) < 2 ^ 16) {b : Bool}
    (hr : viewWrite fs img view name buf size offset = (b, img')) : FileOnly fs i img img' := by
  rw [viewWrite_eq K hname hfirst] at hr
  split at hr
  · obtain ⟨-, rfl⟩ := Prod.mk.inj hr
    exact .refl fs i img
  · split at hr
    · obtain ⟨-, rfl⟩ := Prod.mk.inj hr
      exact .refl fs i img
    · obtain ⟨-, rfl⟩ := Prod.mk.inj hr
      exact fileOnly_tfsEntry (viewData_dataOnly K)

/-- The first sector of the file is an index after it, too. -/
theorem firstDataSector_viewWrite (K : KernelImage fs) (hname : OnlyNamed fs img name i)
    (hfirst : firstDataSector img (fileMetaAt fs i) < 2 ^ 16) {b : Bool}
    (hr : viewWrite fs img view name buf size offset = (b, img')) : firstDataSector img' (fileMetaAt fs i) < 2 ^ 16 := by
  rw [viewWrite_eq K hname hfirst] at hr
  split at hr
  · obtain ⟨-, rfl⟩ := Prod.mk.inj hr
    exact hfirst
  · rename_i g hstart
    split at hr
    · obtain ⟨-, rfl⟩ := Prod.mk.inj hr
      exact hfirst
    · rename_i x _
      have hdata : DataOnly fs img (viewData fs (viewFats fs img view) img buf size x
        (writeStart img (fileMetaAt fs i) offset % 512)).1 := viewData_dataOnly K
      generalize viewData fs (viewFats fs img view) img buf size x (writeStart img (fileMetaAt fs i) offset % 512) = d at hr hdata
      have hsame : firstDataSector d.1 (fileMetaAt fs i) = firstDataSector img (fileMetaAt fs i) := u32_congr fun a ha ha' => by
        obtain ⟨k, rfl⟩ := Nat.exists_eq_add_of_le ha
        exact hdata.entry K.layout hname.lt k (by omega)
      obtain ⟨-, rfl⟩ := Prod.mk.inj hr
      unfold viewStart at hstart
      rw [viewEntry, firstDataSector_growFile]
      split at hstart
      · rename_i hnew
        have hg := (tfsFindFreeFat_some K hstart).1
        rw [if_pos hnew, firstDataSector_setFirstDataSector (by omega)]
        omega
      · rename_i hold
        rwa [if_neg hold, hsame]

end OSForReal.Proof.Tfs
