import OSForReal.Proof.TagFS.EndOfFile
import OSForReal.Proof.TagFS.Lawful

/-!
# `tagfs_unlink`

The loop of `tagfs_unlink` follows the FAT entry that it has just cleared, so
that after the first entry it goes on at entry 0 (`unlinkLoop_ok_iff`). It frees
the sectors of the file, and no others, when the file has at most one, or when
entry 0 is the last of two, or of three (`tagfsUnlink_freesOne`). For a name that
is not found it returns 0, as for one that is, after clearing the bytes before
the first entry (`tagfsUnlink_notFound`).
-/

namespace OSForReal.Proof.TagFS

open Framework
open Framework.Bytes
open OSForReal.TagFS

variable {fs : FSMetadata} {img img' buf : Bytes} {name : CStr} {chain : Nat → List Nat} {l : List Nat}
  {e g i j x fuel size offset : Nat} {r : Int}

/-! ## The loop -/

/-- From an entry that is free, the loop does not return. -/
theorem unlinkLoop_zero (h : fat fs img 0 = 0) : unlinkLoop fs fuel img 0 = .timeout := by
  induction fuel generalizing img with
  | zero => rfl
  | succ fuel ih =>
    have hnext : fat fs (setFat fs img 0 0) 0 = 0 := fat_setFat_self (by decide)
    rw [unlinkLoop, h, if_neg (by decide), hnext]
    exact ih hnext

/-- The loop returns from the last entry of a chain; and, through entry 0, where that is the last of one. -/
theorem unlinkLoop_ok_iff : (∃ fuel, unlinkLoop fs fuel img x = .ok img') ↔
    fat fs img x = 0xffff ∧ img' = setFat fs img x 0 ∨
      fat fs img x ≠ 0xffff ∧ x ≠ 0 ∧ fat fs img 0 = 0xffff ∧ img' = setFat fs (setFat fs img x 0) 0 0 := by
  have hself : fat fs (setFat fs img x 0) x = 0 := fat_setFat_self (by decide)
  constructor
  · rintro ⟨fuel, hr⟩
    cases fuel with
    | zero => cases hr
    | succ fuel =>
      rw [unlinkLoop] at hr
      split at hr
      · rename_i hend
        exact .inl ⟨hend, (Res.ok.inj hr).symm⟩
      · rename_i hmore
        rw [hself] at hr
        have hx : x ≠ 0 := by
          rintro rfl
          rw [unlinkLoop_zero hself] at hr
          cases hr
        have hzero : fat fs (setFat fs img x 0) 0 = fat fs img 0 := fat_setFat_ne (Ne.symm hx)
        cases fuel with
        | zero => cases hr
        | succ fuel =>
          rw [unlinkLoop, hzero] at hr
          split at hr
          · rename_i hend
            exact .inr ⟨hmore, hx, hend, (Res.ok.inj hr).symm⟩
          · have hself' : fat fs (setFat fs (setFat fs img x 0) 0 0) 0 = 0 := fat_setFat_self (by decide)
            rw [hself', unlinkLoop_zero hself'] at hr
            cases hr
  · rintro (⟨hend, rfl⟩ | ⟨hmore, hx, hend, rfl⟩)
    · exact ⟨1, by rw [unlinkLoop, if_pos hend]⟩
    · have hzero : fat fs (setFat fs img x 0) 0 = 0xffff := (fat_setFat_ne (Ne.symm hx)).trans hend
      refine ⟨2, ?_⟩
      rw [unlinkLoop, if_neg hmore, hself, unlinkLoop, if_pos hzero]

/-- The call on the entry `e`. -/
theorem tagfsUnlink_ok_iff (he : fileMetaAt (fsMeta img) (getFileIdFromName (fsMeta img) img name) - sizeofFileMetadata = e) :
    (∃ fuel, tagfsUnlink fuel img name = .ok img') ↔
      firstDataSector img e = 0xffff ∧ img' = copy img (nameAt e) 1 (fun _ => 0) ∨
        firstDataSector img e ≠ 0xffff ∧ ∃ fuel,
          unlinkLoop (fsMeta img) fuel (copy img (nameAt e) 1 fun _ => 0) (firstDataSector img e) = .ok img' := by
  simp only [tagfsUnlink, he, firstDataSector_clearName]
  split
  · rename_i hend
    constructor
    · rintro ⟨_, hr⟩
      exact .inl ⟨hend, (Res.ok.inj hr).symm⟩
    · rintro (⟨-, rfl⟩ | ⟨hne, -⟩)
      · exact ⟨0, rfl⟩
      · exact absurd hend hne
  · rename_i hmore
    exact ⟨fun hr => .inr ⟨hmore, hr⟩, fun h => (h.resolve_left fun h => hmore h.1).2⟩

/-- The call returns 0 or does not return: no index is −1. -/
theorem tagfsUnlinkCall_ok_iff :
    (∃ fuel, tagfsUnlinkCall fuel img name = .ok (r, img')) ↔ r = 0 ∧ ∃ fuel, tagfsUnlink fuel img name = .ok img' := by
  have hne : ¬ (getFileIdFromName (fsMeta img) img name : Int) = -1 := by omega
  simp only [tagfsUnlinkCall, if_neg hne]
  constructor
  · rintro ⟨fuel, hcall⟩
    obtain ⟨img₁, hr, hret⟩ := Res.bind_eq_ok.mp hcall
    obtain ⟨rfl, rfl⟩ := Prod.mk.inj (Res.ok.inj hret)
    exact ⟨rfl, fuel, hr⟩
  · rintro ⟨rfl, fuel, hr⟩
    exact ⟨fuel, by rw [hr, Res.ok_bind]⟩

/-! ## A file that exists -/

/-- The used file entries have chains, with sectors for all their bytes, and no sector in two. -/
structure ChainsApart (fs : FSMetadata) (img : Bytes) (chain : Nat → List Nat) : Prop where
  isChain : ∀ i, Used fs img i → FatChain fs img (firstDataSector img (fileMetaAt fs i)) (chain i)
  long : ∀ i, Used fs img i → fileSize img (fileMetaAt fs i) ≤ fs.sectorSize * (chain i).length
  disjoint : ∀ i j, Used fs img i → Used fs img j → i ≠ j → (chain i).Disjoint (chain j)

/-- What unlinking the file `i` is to leave: its entry and its sectors free,
everything else as before, and the other files with the bytes that they had. -/
structure Freed (fs : FSMetadata) (img : Bytes) (chain : Nat → List Nat) (i : Nat) (img' : Bytes) : Prop where
  isFree : fileMetadataEntryIsFree img' (fileMetaAt fs i) = true
  cleared : ∀ x ∈ chain i, fat fs img' x = 0
  kept : ∀ a, ¬ InFile fs i a → (∀ x ∈ chain i, ¬ InFat fs x a) → img' a = img a
  others : ∀ j, Used fs img j → j ≠ i → ∀ name, strcmpEq img (nameAt (fileMetaAt fs j)) name = true →
    ∀ buf size offset, 0 < size → offset + size ≤ fileSize img (fileMetaAt fs j) →
      (tagfsRead img' name buf size offset).1 = (tagfsRead img name buf size offset).1 ∧
        ∀ k < size, (tagfsRead img' name buf size offset).2 k = (tagfsRead img name buf size offset).2 k

/-- The call returns 0 and frees the file, and nothing else. -/
def FreesOne (fs : FSMetadata) (img : Bytes) (chain : Nat → List Nat) (i : Nat) (name : CStr) : Prop :=
  ∃ img', (∃ fuel, tagfsUnlinkCall fuel img name = .ok (0, img')) ∧ Freed fs img chain i img'

/-- The name of a used entry is that of no entry before it. -/
theorem DistinctNames.isNamed (h : DistinctNames fs img) (hi : Used fs img i)
    (hname : strcmpEq img (nameAt (fileMetaAt fs i)) name = true) : Named fs img name i := by
  refine ⟨hi.1, hname, fun j hj => ?_⟩
  by_contra hfound
  have hfound : strcmpEq img (nameAt (fileMetaAt fs j)) name = true := by simpa using hfound
  have hused : Used fs img j := used_of_name (Nat.lt_trans hj hi.1) hfound (hi.name_ne hname)
  exact absurd (h.distinct j i name hused hi hfound hname) (Nat.ne_of_lt hj)

/-- A file that is kept is read as before. -/
theorem read_kept {files fats : List Nat} (L : Layout fs) (hfs : fsMeta img = fs)
    (hch : ChangesOnly fs files fats [] img img') (hjf : j ∉ files) (hname : Named fs img name j)
    (hname' : Named fs img' name j) (hchain : FatChain fs img (firstDataSector img (fileMetaAt fs j)) l)
    (hl : fileSize img (fileMetaAt fs j) ≤ fs.sectorSize * l.length) (hdisj : ∀ x ∈ l, x ∉ fats) (hpos : 0 < size)
    (hin : offset + size ≤ fileSize img (fileMetaAt fs j)) (buf : Bytes) :
    (tagfsRead img' name buf size offset).1 = (tagfsRead img name buf size offset).1 ∧
      ∀ k < size, (tagfsRead img' name buf size offset).2 k = (tagfsRead img name buf size offset).2 k := by
  have hdata := L.data
  have hlen : fs.sectorSize * l.length ≤ fs.sectorSize * fatCount fs := Nat.mul_le_mul_left _ (hchain.length_le L)
  have hsize' := hch.fileSize_eq L hname.lt hjf
  have hchain' : FatChain fs img' (firstDataSector img' (fileMetaAt fs j)) l := by
    rw [hch.firstDataSector_eq L hname.lt hjf]
    exact ⟨hchain.1.frame fun x hx => hch.fat_eq L (hchain.2 x hx) (hdisj x hx), hchain.2⟩
  obtain ⟨out, hr, hbytes⟩ := tagfsRead_spec L hfs hname hchain hl hpos hin (by omega) buf
  obtain ⟨out', hr', hbytes'⟩ := tagfsRead_spec L ((hch.fsMeta_eq L).trans hfs) hname' hchain' (by rwa [hsize']) hpos
    (by rwa [hsize']) (by omega) buf
  rw [hr, hr']
  refine ⟨rfl, fun k hk => ?_⟩
  show out' k = out k
  rw [hbytes k hk, hbytes' k hk, hch.byteAt_eq L (fun x hx => ⟨hchain.2 x hx, List.not_mem_nil⟩) (by omega)]

/-- Clearing the name of a file and the entries of its chain frees it. -/
theorem freed_of_clears (L : Layout fs) (hfs : fsMeta img = fs) (hnames : DistinctNames fs img)
    (hchains : ChainsApart fs img chain) (hi : Used fs img i)
    (hfree : fileMetadataEntryIsFree img' (fileMetaAt fs i) = true) (hcleared : ∀ x ∈ chain i, fat fs img' x = 0)
    (hkept : ∀ a, ¬ InFile fs i a → (∀ x ∈ chain i, ¬ InFat fs x a) → img' a = img a) : Freed fs img chain i img' := by
  refine ⟨hfree, hcleared, hkept, fun j hj hji name hname buf size offset hpos hin => ?_⟩
  have hch : ChangesOnly fs [i] (chain i) [] img img' :=
    ⟨by simpa using hi.1, (hchains.isChain i hi).2, by simp, fun a hf _ hx _ => hkept a (hf i List.mem_cons_self) hx⟩
  have hnamed := hnames.isNamed hj hname
  obtain ⟨name', hlen, hname'⟩ := hnames.terminated j hj
  obtain rfl := strcmpEq_unique hname hname'
  have hne := hj.name_ne hname
  refine read_kept L hfs hch (by simpa using hji) hnamed ⟨hj.1, ?_, fun k hk => ?_⟩ (hchains.isChain j hj)
    (hchains.long j hj) (fun x hx hx' => hchains.disjoint j i hj hi hji hx hx') hpos hin buf
  · rw [hch.strcmpEq_eq L hj.1 (by simpa using hji) hlen]
    exact hname
  · by_cases hki : k = i
    · rw [hki]
      by_contra hfound
      exact hne ((strcmpEq_first (by simpa using hfound)).mp (beq_iff_eq.mp hfree))
    · rw [hch.strcmpEq_eq L (Nat.lt_trans hk hj.1) (by simpa using hki) hlen]
      exact hnamed.first k hk

/-- The call for the name of a used entry. -/
theorem freesOne_iff (L : Layout fs) (hfs : fsMeta img = fs) (hname : Named fs img name i) :
    FreesOne fs img chain i name ↔ ∃ img', Freed fs img chain i img' ∧
      (firstDataSector img (fileMetaAt fs i) = 0xffff ∧ img' = copy img (nameAt (fileMetaAt fs i)) 1 (fun _ => 0) ∨
        firstDataSector img (fileMetaAt fs i) ≠ 0xffff ∧ ∃ fuel,
          unlinkLoop fs fuel (copy img (nameAt (fileMetaAt fs i)) 1 fun _ => 0)
            (firstDataSector img (fileMetaAt fs i)) = .ok img') := by
  have hentry : fileMetaAt (fsMeta img) (getFileIdFromName (fsMeta img) img name) - sizeofFileMetadata =
      fileMetaAt fs i := by
    rw [hfs, hname.fileId L, fileMetaAt_succ_sub]
  have hcall (img' : Bytes) := @tagfsUnlink_ok_iff img img' name _ hentry
  rw [hfs] at hcall
  simp only [FreesOne, tagfsUnlinkCall_ok_iff, hcall, true_and, and_comm]

theorem FatChain.eq_nil (h : FatChain fs img 0xffff l) (L : Layout fs) : l = [] := by
  by_contra hne
  exact h.ne_end L hne rfl

/-- The chains that the loop clears: at most one sector; or entry 0 is the last of two, or of three. -/
def ClearsChain (l : List Nat) : Prop := l.length ≤ 1 ∨ (∃ x, l = [x, 0]) ∨ ∃ x y, l = [x, y, 0]

/-- A chain of which the loop clears the first entry and entry 0, and whose other entries are 0. -/
theorem clearsChain_of_zeroes (L : Layout fs) (h : FatChain fs img x l) (hzero : 0 ∈ l) (hx : x ≠ 0)
    (hend : fat fs img 0 = 0xffff) (hother : ∀ y ∈ l, y ≠ x → y ≠ 0 → fat fs img y = 0) : ClearsChain l := by
  -- After entry 0 the chain ends.
  have hlast : ∀ {l}, FatChain fs img 0 l → l = [0] := fun {l} h => by
    cases l with
    | nil => exact absurd h.1 (show (0 : Nat) ≠ 0xffff by decide)
    | cons y l =>
      obtain rfl := h.cons_inv
      have htail := h.tail
      rw [hend] at htail
      rw [htail.eq_nil L]
  cases l with
  | nil => cases hzero
  | cons y l =>
    obtain rfl := h.cons_inv
    cases l with
    | nil => exact .inl (Nat.le_refl _)
    | cons z l =>
      have htail := h.tail
      obtain rfl := htail.cons_inv
      by_cases hz : fat fs img y = 0
      · rw [hz] at htail ⊢
        rw [hlast htail]
        exact .inr (.inl ⟨y, rfl⟩)
      · have hne : fat fs img y ≠ y := fun heq => by
          have hnodup := h.nodup L
          rw [heq] at hnodup
          exact (List.nodup_cons.mp hnodup).1 List.mem_cons_self
        have hnext := htail.tail
        rw [hother _ (List.mem_cons_of_mem _ List.mem_cons_self) hne hz] at hnext
        rw [hlast hnext]
        exact .inr (.inr ⟨y, _, rfl⟩)

/-- The file is freed only where the loop clears its chain. -/
theorem clearsChain_of_freesOne (L : Layout fs) (hfs : fsMeta img = fs) (hchains : ChainsApart fs img chain)
    (hi : Used fs img i) (hname : Named fs img name i) (h : FreesOne fs img chain i name) : ClearsChain (chain i) := by
  have hchain := hchains.isChain i hi
  have hclear : ChangesOnly fs [i] [] [] img (copy img (nameAt (fileMetaAt fs i)) 1 fun _ => 0) := changes_clearName hi.1
  obtain ⟨img', hfreed, ⟨hend, -⟩ | ⟨hne, hr⟩⟩ := (freesOne_iff L hfs hname).mp h
  · rw [hend] at hchain
    rw [hchain.eq_nil L]
    exact .inl (Nat.zero_le _)
  · have hl : chain i ≠ [] := fun h0 => by
      rw [h0] at hchain
      exact hne hchain.1
    obtain ⟨x, l, hxl⟩ := List.exists_cons_of_ne_nil hl
    have hchain' := hchain
    rw [hxl] at hchain'
    have hx := hchain'.2 x List.mem_cons_self
    have hfirst := hchain'.cons_inv
    rw [← hfirst] at hr hchain'
    have hfat : ∀ y < fatCount fs, fat fs (copy img (nameAt (fileMetaAt fs i)) 1 fun _ => 0) y = fat fs img y :=
      fun y hy => hclear.fat_eq L hy (by simp)
    have h0 : 0 < fatCount fs := Nat.zero_lt_of_lt hx
    rcases unlinkLoop_ok_iff.mp hr with ⟨hend, -⟩ | ⟨-, hx0, hend, himg⟩
    · have htail := hchain'.tail
      rw [hfat x hx] at hend
      rw [hend] at htail
      rw [hxl, htail.eq_nil L]
      exact .inl (Nat.le_refl _)
    · rw [hfat 0 h0] at hend
      have hafter : ∀ y < fatCount fs, y ≠ x → y ≠ 0 → fat fs img' y = fat fs img y := fun y hy hyx hy0 => by
        rw [himg, fat_setFat_ne hy0, fat_setFat_ne hyx, hfat y hy]
      have hzero : 0 ∈ chain i := by
        by_contra hm
        have hkept : fat fs img' 0 = fat fs img 0 := by
          have hch : ChangesOnly fs [i] (chain i) [] img img' := ⟨by simpa using hi.1, hchain.2, by simp,
            fun a hf _ hxs _ => hfreed.kept a (hf i List.mem_cons_self) hxs⟩
          exact hch.fat_eq L h0 hm
        rw [himg, fat_setFat_self (by decide), hend] at hkept
        exact absurd hkept (by decide)
      rw [← hfirst] at hchain
      exact clearsChain_of_zeroes L hchain hzero hx0 hend fun y hy hyx hy0 => by
        rw [← hafter y (hchain.2 y hy) hyx hy0]
        exact hfreed.cleared y hy

/-- Such a chain is one entry, or leads to entry 0 by entries that are 0. -/
theorem ClearsChain.cases (L : Layout fs) (h : FatChain fs img x (x :: l)) (hl : ClearsChain (x :: l)) :
    (l = [] ∧ fat fs img x = 0xffff) ∨ 0 ∈ l ∧ x ≠ 0 ∧ fat fs img x ≠ 0xffff ∧ fat fs img 0 = 0xffff ∧
      ∀ y ∈ l, y ≠ 0 → fat fs img y = 0 := by
  have hnodup := h.nodup L
  rcases hl with hone | ⟨_, htwo⟩ | ⟨_, y, hthree⟩
  · have hnil : l = [] := List.eq_nil_of_length_eq_zero (by simpa using hone)
    rw [hnil] at h
    exact .inl ⟨hnil, h.1.2⟩
  · obtain ⟨-, rfl⟩ := List.cons.inj htwo
    obtain ⟨-, hx, h0⟩ := h.1
    refine .inr ⟨List.mem_singleton_self 0, fun hx0 => ?_, by rw [hx]; decide, h0, fun y hy hy0 => ?_⟩
    · rw [hx0] at hnodup
      exact (List.nodup_cons.mp hnodup).1 List.mem_cons_self
    · exact absurd (List.mem_singleton.mp hy) hy0
  · obtain ⟨-, rfl⟩ := List.cons.inj hthree
    obtain ⟨-, hx, hy, h0⟩ := h.1
    have hlt := h.2 y (List.mem_cons_of_mem _ List.mem_cons_self)
    have hcount := L.fatCount_le
    refine .inr ⟨List.mem_cons_of_mem _ (List.mem_singleton_self 0), fun hx0 => ?_, by omega, h0, fun z hz hz0 => ?_⟩
    · rw [hx0] at hnodup
      exact (List.nodup_cons.mp hnodup).1 (List.mem_cons_of_mem _ List.mem_cons_self)
    · rcases List.mem_cons.mp hz with rfl | hz
      · exact hy
      · exact absurd (List.mem_singleton.mp hz) hz0

/-- What differs from the image: the file entry is free, and FAT entries of its chain may have changed. -/
structure Clearing (fs : FSMetadata) (img : Bytes) (i : Nat) (l : List Nat) (m : Bytes) : Prop where
  isFree : fileMetadataEntryIsFree m (fileMetaAt fs i) = true
  kept : ∀ a, ¬ InFile fs i a → (∀ x ∈ l, ¬ InFat fs x a) → m a = img a

theorem clearing_name : Clearing fs img i l (copy img (nameAt (fileMetaAt fs i)) 1 fun _ => 0) := by
  refine ⟨?_, fun a ha _ => copy_out ?_⟩
  · rw [fileMetadataEntryIsFree, copy_in (Nat.le_refl _) (Nat.lt_succ_self _)]
    rfl
  · unfold InFile at ha
    unfold nameAt
    omega

theorem Clearing.setFat {m : Bytes} (h : Clearing fs img i l m) (L : Layout fs) (hi : i < countFileMetaEntries fs)
    (hx : x ∈ l) (hlt : x < fatCount fs) : Clearing fs img i l (setFat fs m x 0) := by
  refine ⟨?_, fun a ha hxs => ?_⟩
  · rw [(changes_setFat hlt).isFree_eq L hi List.not_mem_nil]
    exact h.isFree
  · have hxa := hxs x hx
    unfold InFat at hxa
    unfold OSForReal.TagFS.setFat
    rw [setU16_out (by omega), h.kept a ha hxs]

/-- The file is freed where the loop clears its chain. -/
theorem freesOne_of_clearsChain (L : Layout fs) (hfs : fsMeta img = fs) (hnames : DistinctNames fs img)
    (hchains : ChainsApart fs img chain) (hi : Used fs img i) (hname : Named fs img name i)
    (h : ClearsChain (chain i)) : FreesOne fs img chain i name := by
  have hchain := hchains.isChain i hi
  have hclear : Clearing fs img i (chain i) (copy img (nameAt (fileMetaAt fs i)) 1 fun _ => 0) := clearing_name
  have hfat : ∀ y < fatCount fs, fat fs (copy img (nameAt (fileMetaAt fs i)) 1 fun _ => 0) y = fat fs img y :=
    fun y hy => (changes_clearName hi.1).fat_eq L hy List.not_mem_nil
  have hfreed {m : Bytes} (hm : Clearing fs img i (chain i) m) (hcleared : ∀ x ∈ chain i, fat fs m x = 0) :
      Freed fs img chain i m := freed_of_clears L hfs hnames hchains hi hm.isFree hcleared hm.kept
  rw [freesOne_iff L hfs hname]
  cases hl : chain i with
  | nil =>
    rw [hl] at hchain
    exact ⟨_, hfreed hclear (by simp [hl]), .inl ⟨hchain.1, rfl⟩⟩
  | cons x l =>
    have hne := hchain.ne_end L (hl ▸ List.cons_ne_nil x l)
    have hx : x ∈ chain i := hl ▸ List.mem_cons_self
    have hlt := hchain.2 x hx
    have hchain' := hchain
    rw [hl] at hchain' h
    have hfirst := hchain'.cons_inv
    rw [← hfirst] at hchain' hne ⊢
    have hclear₁ := hclear.setFat L hi.1 hx hlt
    rcases h.cases L hchain' with ⟨rfl, hend⟩ | ⟨hzero, hx0, hmore, hend, hother⟩
    · -- One sector.
      refine ⟨_, hfreed hclear₁ fun y hy => ?_, .inr ⟨hne, unlinkLoop_ok_iff.mpr (.inl ⟨?_, rfl⟩)⟩⟩
      · rw [hl, List.mem_singleton] at hy
        rw [hy]
        exact fat_setFat_self (by decide)
      · rw [hfat x hlt, hend]
    · -- The entry, and entry 0.
      have hzero : 0 ∈ chain i := hl ▸ List.mem_cons_of_mem _ hzero
      have hlt0 := hchain.2 0 hzero
      refine ⟨_, hfreed (hclear₁.setFat L hi.1 hzero hlt0) fun y hy => ?_,
        .inr ⟨hne, unlinkLoop_ok_iff.mpr (.inr ⟨?_, hx0, ?_, rfl⟩)⟩⟩
      · by_cases hy0 : y = 0
        · rw [hy0]
          exact fat_setFat_self (by decide)
        · rw [fat_setFat_ne hy0]
          by_cases hyx : y = x
          · rw [hyx]
            exact fat_setFat_self (by decide)
          · rw [fat_setFat_ne hyx, hfat y (hchain.2 y hy)]
            rw [hl] at hy
            exact hother y ((List.mem_cons.mp hy).resolve_left hyx) hy0
      · rwa [hfat x hlt]
      · rwa [hfat 0 hlt0]

/-- The call frees one file when the loop clears its chain. -/
theorem tagfsUnlink_freesOne (img : Bytes) (G : Geometry (fsMeta img)) (hnames : DistinctNames (fsMeta img) img)
    (chain : Nat → List Nat) (hchains : ChainsApart (fsMeta img) img chain) (i : Nat) (hi : Used (fsMeta img) img i)
    (name : CStr) (hname : strcmpEq img (nameAt (fileMetaAt (fsMeta img) i)) name = true) :
    FreesOne (fsMeta img) img chain i name ↔ ClearsChain (chain i) :=
  have hnamed := hnames.isNamed hi hname
  ⟨clearsChain_of_freesOne G.layout rfl hchains hi hnamed,
    freesOne_of_clearsChain G.layout rfl hnames hchains hi hnamed⟩

/-- A file of one sector, beside another one. -/
theorem tagfsUnlink_freesOne_besides : FreesOne (headerOf {}) filesAB (fun i => [i]) 0 nameA := by
  have hI := namesInv_filesAB
  have hheader := hI.inRange.header
  have hfiles : ∀ j < 2, fileMetadataEntryIsFree filesAB (fileMetaAt (headerOf {}) j) = false ∧
      firstDataSector filesAB (fileMetaAt (headerOf {}) j) = j ∧ fat (headerOf {}) filesAB j = 0xffff ∧
      fileSize filesAB (fileMetaAt (headerOf {}) j) ≤ 512 := by decide +kernel
  have hname : strcmpEq filesAB (nameAt (fileMetaAt (headerOf {}) 0)) nameA = true := by decide +kernel
  have hothers : ∀ j < countFileMetaEntries (headerOf {}),
      fileMetadataEntryIsFree filesAB (fileMetaAt (headerOf {}) j) = false → j < 2 := by decide +kernel
  have hchains : ChainsApart (headerOf {}) filesAB fun i => [i] := by
    refine ⟨fun j hj => ?_, fun j hj => ?_, fun j k _ _ hjk => List.disjoint_singleton.mpr ?_⟩
    · have hlt := hothers j hj.1 hj.2
      obtain ⟨-, hfirst, hend, -⟩ := hfiles j hlt
      refine ⟨⟨hfirst, hend⟩, fun x hx => ?_⟩
      rw [List.mem_singleton.mp hx]
      exact Nat.lt_trans hlt (by decide)
    · obtain ⟨-, -, -, hsize⟩ := hfiles j (hothers j hj.1 hj.2)
      exact hsize
    · simpa using hjk.symm
  have h := tagfsUnlink_freesOne filesAB (by rw [hheader]; exact geometry_default) (by rw [hheader]; exact hI.names) _
    (by rw [hheader]; exact hchains) 0 (by rw [hheader]; exact ⟨by decide, (hfiles 0 (by decide)).1⟩) nameA
    (by rw [hheader]; exact hname)
  rw [hheader] at h
  exact h.mpr (.inl (Nat.le_refl 1))

/-- A file of the sectors 4 and 2 is not freed. -/
theorem tagfsUnlink_freesOne_fails : ¬ ∀ img, Geometry (fsMeta img) → DistinctNames (fsMeta img) img → ∀ chain,
    ChainsApart (fsMeta img) img chain → ∀ i name, Used (fsMeta img) img i →
      strcmpEq img (nameAt (fileMetaAt (fsMeta img) i)) name = true → FreesOne (fsMeta img) img chain i name := by
  intro hall
  obtain ⟨hheader, hname, hchain, hsize, hused, hone⟩ := twoSectorFile_file
  have hchains : ChainsApart (headerOf {}) twoSectorFile fun _ => [4, 2] := by
    refine ⟨fun j hj => ?_, fun j hj => ?_, fun j k hj hk hjk => absurd ((hone j hj).trans (hone k hk).symm) hjk⟩
    · rw [hone j hj]
      exact hchain
    · rw [hone j hj, hsize]
      decide
  have h := hall twoSectorFile (by rw [hheader]; exact geometry_default)
    (by rw [hheader]; exact distinctNames_of_one (by decide) hname.found hone) _ (by rw [hheader]; exact hchains) 0 nameA
    (by rw [hheader]; exact hused) (by rw [hheader]; exact hname.found)
  rw [hheader] at h
  rcases clearsChain_of_freesOne geometry_default.layout hheader hchains hused hname h with hlen | ⟨x, hx⟩ | ⟨x, y, hxy⟩
  · exact absurd hlen (by decide)
  · exact absurd (List.cons.inj (List.cons.inj hx).2).1 (by decide)
  · exact absurd (congrArg List.length hxy) (show (2 : Nat) ≠ 3 by decide)

/-! ## A name that is not found -/

/-- No used entry has the name. -/
def NoFile (fs : FSMetadata) (img : Bytes) (name : CStr) : Prop :=
  ∀ i, Used fs img i → strcmpEq img (nameAt (fileMetaAt fs i)) name = false

/-- The call returns −`ENOENT` and leaves the image. -/
def CleanError (img : Bytes) (name : CStr) : Prop := ∃ fuel, tagfsUnlinkCall fuel img name = .ok (-enoent, img)

/-- No call is a clean error. -/
theorem not_cleanError (img : Bytes) (name : CStr) : ¬ CleanError img name := fun h =>
  absurd (tagfsUnlinkCall_ok_iff.mp h).1 (by decide)

/-- The loop ends with an entry that was the end of a chain, and is 0 after it. -/
theorem unlinkLoop_clears {m : Bytes} (h : ∃ fuel, unlinkLoop fs fuel m x = .ok img') : ∃ a, m a ≠ 0 ∧ img' a = 0 := by
  have hend {y : Nat} (hy : fat fs m y = 0xffff) : m (fatAt fs y) ≠ 0 := fun h0 => by
    unfold fat u16 at hy
    rw [h0, UInt8.toNat_zero] at hy
    omega
  have hzero {m : Bytes} {y : Nat} : setFat fs m y 0 (fatAt fs y) = 0 := by
    unfold setFat setU16
    rw [copy_in (Nat.le_refl _) (by omega), Nat.sub_self]
    decide
  rcases unlinkLoop_ok_iff.mp h with ⟨hx, rfl⟩ | ⟨-, -, h0, rfl⟩
  · exact ⟨_, hend hx, hzero⟩
  · exact ⟨_, hend h0, hzero⟩

/-- The image stays as it is only where the entry before the one that is found has no name and no data. -/
theorem tagfsUnlinkCall_unchanged_iff
    (he : fileMetaAt (fsMeta img) (getFileIdFromName (fsMeta img) img name) - sizeofFileMetadata = e) :
    (∃ fuel, tagfsUnlinkCall fuel img name = .ok (r, img)) ↔
      r = 0 ∧ firstDataSector img e = 0xffff ∧ img (nameAt e) = 0 := by
  rw [tagfsUnlinkCall_ok_iff, tagfsUnlink_ok_iff he]
  apply and_congr_right
  intro _
  constructor
  · rintro (⟨hend, himg⟩ | ⟨-, hloop⟩)
    · refine ⟨hend, ?_⟩
      rw [himg]
      exact copy_in (Nat.le_refl _) (Nat.lt_succ_self _)
    · -- The byte that the loop clears was not 0 before the name was cleared.
      obtain ⟨a, ha, ha0⟩ := unlinkLoop_clears hloop
      refine absurd ?_ ha
      by_cases hin : nameAt e ≤ a ∧ a < nameAt e + 1
      · exact copy_in hin.1 hin.2
      · rw [copy_out (by omega), ha0]
  · rintro ⟨hend, hname⟩
    refine .inl ⟨hend, funext fun a => ?_⟩
    by_cases hin : nameAt e ≤ a ∧ a < nameAt e + 1
    · rw [copy_in hin.1 hin.2, show a = nameAt e by omega, hname]
    · rw [copy_out (by omega)]

/-- A name of no file is not found, or is the empty name of a free entry. -/
theorem NoFile.absent (h : NoFile fs img name) : getFileIdFromName fs img name = 0 ∨ name.chars = [] := by
  rcases named_or_absent fs img name with ⟨i, hname⟩ | habsent
  · right
    by_contra hne
    have hmiss := h i (hname.used hne)
    rw [hname.found] at hmiss
    cases hmiss
  · exact .inl habsent

/-- Unlinking a name of no file is no clean error: the entry before the index that is
found, which is 0 if none is, is taken for the file, and the image stays as it
is only where that is one without a name and without data. -/
theorem tagfsUnlink_notFound (img : Bytes) (name : CStr) (h : NoFile (fsMeta img) img name) :
    ¬ CleanError img name ∧ (getFileIdFromName (fsMeta img) img name = 0 ∨ name.chars = []) ∧
      ∀ e, fileMetaAt (fsMeta img) (getFileIdFromName (fsMeta img) img name) - sizeofFileMetadata = e →
        ∀ r, (∃ fuel, tagfsUnlinkCall fuel img name = .ok (r, img)) ↔
          r = 0 ∧ firstDataSector img e = 0xffff ∧ img (nameAt e) = 0 :=
  ⟨not_cleanError img name, h.absent, fun _ he _ => tagfsUnlinkCall_unchanged_iff he⟩

/-- A formatted image has no files. -/
theorem noFile_formatImage (name : CStr) : NoFile (headerOf {}) (formatImage {} fun _ => 0) name :=
  fun i hi => absurd hi (not_used_formatImage geometry_default _ i)

/-- The file `a` in a formatted image. -/
theorem tagfsUnlink_notFound_first : ¬ CleanError (formatImage {} fun _ => 0) nameA := by
  have hheader := @fsMeta_formatImage {} (fun _ => 0) geometry_default
  exact (tagfsUnlink_notFound (formatImage {} fun _ => 0) nameA (by rw [hheader]; exact noFile_formatImage nameA)).1

/-- It is not reported as missing. -/
theorem tagfsUnlink_notFound_fails : ¬ ∀ img name, NoFile (fsMeta img) img name → CleanError img name := fun hall => by
  have hheader := @fsMeta_formatImage {} (fun _ => 0) geometry_default
  exact not_cleanError _ _ (hall (formatImage {} fun _ => 0) nameA (by rw [hheader]; exact noFile_formatImage nameA))

end OSForReal.Proof.TagFS
