import Mathlib.Data.List.Perm.Subperm
import OSForReal.Framework.Chain
import OSForReal.Proof.TagFS.Layout
import OSForReal.TagFS.FuseDriver

/-!
# Reading a file through its chain

`byteAt` is byte `k` of the file whose sectors are listed. `tagfsRead_spec`
says that `tagfs_read` returns the bytes of a window in the file, given the
chain of its entry.
-/

namespace OSForReal.Proof.TagFS

open Framework
open Framework.Bytes
open OSForReal.TagFS

variable {fs : FSMetadata} {img : Bytes} {g : Nat} {l : List Nat}

/-- Byte `k` of the file in the sectors `l`. -/
def byteAt (fs : FSMetadata) (img : Bytes) (l : List Nat) (k : Nat) : UInt8 :=
  img (sectorAt fs (l.getD (k / fs.sectorSize) 0) + k % fs.sectorSize)

/-- The first sector holds the first bytes. -/
theorem byteAt_first {k : Nat} (hk : k < fs.sectorSize) : byteAt fs img (g :: l) k = img (sectorAt fs g + k) := by
  unfold byteAt
  rw [Nat.div_eq_of_lt hk, Nat.mod_eq_of_lt hk, List.getD_cons_zero]

/-- The other sectors hold the bytes after them. -/
theorem byteAt_cons {k : Nat} (hs : 0 < fs.sectorSize) :
    byteAt fs img (g :: l) (k + fs.sectorSize) = byteAt fs img l k := by
  unfold byteAt
  rw [Nat.add_div_right _ hs, Nat.add_mod_right, List.getD_cons_succ]

/-- Whole sectors before a window. -/
theorem byteAt_drop {q k : Nat} (hs : 0 < fs.sectorSize) :
    byteAt fs img (l.drop q) k = byteAt fs img l (k + fs.sectorSize * q) := by
  unfold byteAt
  rw [Nat.add_mul_div_left _ _ hs, Nat.add_mul_mod_self_left, List.getD_eq_getElem?_getD, List.getD_eq_getElem?_getD,
    List.getElem?_drop, Nat.add_comm q]

/-! ## Walking the chain -/

/-- A chain of FAT entries, from `g` to the marker. -/
def FatChain (fs : FSMetadata) (img : Bytes) (g : Nat) (l : List Nat) : Prop :=
  Chain (fat fs img) g l 0xffff ∧ ∀ x ∈ l, x < fatCount fs

namespace FatChain

theorem tail (h : FatChain fs img g (g :: l)) : FatChain fs img (fat fs img g) l :=
  ⟨h.1.2, fun x hx => h.2 x (List.mem_cons_of_mem _ hx)⟩

/-- A chain that goes on begins with its entry. -/
theorem cons_inv {x : Nat} (h : FatChain fs img g (x :: l)) : x = g := h.1.1.symm

/-- The entry before the end of a chain is not the marker. -/
theorem ne_end (h : FatChain fs img g l) (L : Layout fs) (hl : l ≠ []) : g ≠ 0xffff := by
  obtain ⟨x, l, rfl⟩ := List.exists_cons_of_ne_nil hl
  have := L.fatCount_le
  have := h.2 x List.mem_cons_self
  rw [h.cons_inv] at this
  omega

/-- The sectors of a chain are different. -/
theorem nodup (h : FatChain fs img g l) (L : Layout fs) : l.Nodup :=
  h.1.nodup fun hm => by
    have := h.2 _ hm
    have := L.fatCount_le
    omega

/-- A chain has at most as many sectors as there are FAT entries. -/
theorem length_le (h : FatChain fs img g l) (L : Layout fs) : l.length ≤ fatCount fs := by
  have hsub : l ⊆ List.range (fatCount fs) := fun x hx => List.mem_range.mpr (h.2 x hx)
  have hle := (List.subperm_of_subset (h.nodup L) hsub).length_le
  rwa [List.length_range] at hle

end FatChain

/-- An entry of a list that goes on with it. -/
theorem getD_of_drop {q x : Nat} (hq : q < l.length) (hdrop : l.drop q = x :: l.drop (q + 1)) : l.getD q 0 = x := by
  rw [List.drop_eq_getElem_cons hq] at hdrop
  rw [List.getD_eq_getElem _ _ hq]
  exact (List.cons.inj hdrop).1

theorem getD_mem_of_lt {q : Nat} (hq : q < l.length) : l.getD q 0 ∈ l := by
  rw [List.getD_eq_getElem _ _ hq]
  exact List.getElem_mem hq

theorem FatChain.getD_lt {q : Nat} (h : FatChain fs img g l) (hq : q < l.length) : l.getD q 0 < fatCount fs :=
  h.2 _ (getD_mem_of_lt hq)

theorem getD_inj {q q' : Nat} (h : l.Nodup) (hq : q < l.length) (hq' : q' < l.length) (he : l.getD q 0 = l.getD q' 0) :
    q = q' := by
  rw [List.getD_eq_getElem _ _ hq, List.getD_eq_getElem _ _ hq'] at he
  exact (h.getElem_inj_iff).mp he

/-- Skipping `k` sectors of a longer chain arrives at its entry `k`. -/
theorem skipSectors_spec {k : Nat} (L : Layout fs) (h : FatChain fs img g l) (hk : k < l.length) :
    ∃ x, skipSectors fs img k g = some x ∧ FatChain fs img x (l.drop k) ∧ l.drop k = x :: l.drop (k + 1) := by
  induction k generalizing g l with
  | zero =>
    obtain ⟨x, l, rfl⟩ := List.exists_cons_of_length_pos hk
    obtain rfl := h.cons_inv
    exact ⟨x, rfl, h, rfl⟩
  | succ k ih =>
    obtain ⟨x, l, rfl⟩ := List.exists_cons_of_length_pos (Nat.zero_lt_of_lt hk)
    obtain rfl := h.cons_inv
    have hk : k < l.length := by simpa using hk
    have hne := h.tail.ne_end L (List.ne_nil_of_length_pos (by omega))
    obtain ⟨y, hskip, hchain, hdrop⟩ := ih h.tail hk
    refine ⟨y, ?_, hchain, hdrop⟩
    rw [skipSectors, if_neg hne, hskip]

theorem skipSectors_getD {k : Nat} (L : Layout fs) (h : FatChain fs img g l) (hk : k < l.length) :
    skipSectors fs img k g = some (l.getD k 0) := by
  obtain ⟨x, hskip, -, hdrop⟩ := skipSectors_spec L h hk
  rw [hskip, getD_of_drop hk hdrop]

/-- What follows a sector of a chain. -/
theorem FatChain.next {q : Nat} (h : FatChain fs img g l) (L : Layout fs) (hq : q < l.length) :
    (q + 1 < l.length ∧ l.getD (q + 1) 0 = fat fs img (l.getD q 0)) ∨
      (q + 1 = l.length ∧ fat fs img (l.getD q 0) = 0xffff) := by
  obtain ⟨x, -, hx, hdrop⟩ := skipSectors_spec L h hq
  rw [getD_of_drop hq hdrop]
  rw [hdrop] at hx
  have htail := hx.tail
  rcases Nat.lt_or_ge (q + 1) l.length with hlt | hge
  · obtain ⟨y, -, -, hdrop'⟩ := skipSectors_spec L h hlt
    rw [hdrop'] at htail
    exact .inl ⟨hlt, (getD_of_drop hlt hdrop').trans htail.cons_inv⟩
  · rw [List.drop_eq_nil_of_le hge] at htail
    exact .inr ⟨Nat.le_antisymm hq hge, htail.1⟩

/-- A sector of a chain does not lead to itself. -/
theorem FatChain.next_ne {q : Nat} (h : FatChain fs img g l) (L : Layout fs) (hq : q < l.length) :
    fat fs img (l.getD q 0) ≠ l.getD q 0 := by
  rcases h.next L hq with ⟨hlt, hnext⟩ | ⟨-, hend⟩
  · intro heq
    exact absurd (getD_inj (h.nodup L) hlt hq (hnext.trans heq)) (Nat.succ_ne_self q)
  · have := h.getD_lt hq
    have := L.fatCount_le
    omega

/-- A chain that a command cuts after a sector. -/
theorem FatChain.cut {img' : Bytes} {q : Nat} (h : FatChain fs img g l) (L : Layout fs) (hq : q < l.length)
    (hfat : ∀ y ∈ l, y ≠ l.getD q 0 → fat fs img' y = fat fs img y) (hend : fat fs img' (l.getD q 0) = 0xffff) :
    FatChain fs img' g (l.take (q + 1)) := by
  refine ⟨?_, fun y hy => h.2 y (List.mem_of_mem_take hy)⟩
  rw [← hend]
  refine h.1.take_succ hq fun y hy => hfat y (List.mem_of_mem_take hy) ?_
  rintro rfl
  have hnodup := h.nodup L
  rw [← List.take_append_drop q l] at hnodup
  have hmem : l.getD q 0 ∈ l.drop q := by
    rw [List.drop_eq_getElem_cons hq, List.getElem_eq_getD 0]
    exact List.mem_cons_self
  exact (List.nodup_append.mp hnodup).2.2 _ hy _ hmem rfl

/-- Skipping all the sectors of a chain fails at its end. -/
theorem skipSectors_length (h : FatChain fs img g l) (hl : l ≠ []) : skipSectors fs img l.length g = none := by
  induction l generalizing g with
  | nil => exact absurd rfl hl
  | cons x l ih =>
    obtain rfl := h.cons_inv
    rw [List.length_cons, skipSectors]
    split
    · rfl
    · rename_i hne
      refine ih h.tail fun h0 => hne ?_
      have htail := h.tail.1
      rw [h0] at htail
      exact htail

/-- Copying to a sector of a chain writes the bytes of the file there. -/
theorem byteAt_copy {q r n k : Nat} {src : Nat → UInt8} (L : Layout fs) (h : FatChain fs img g l) (hq : q < l.length)
    (hn : r + n ≤ fs.sectorSize) (m : Bytes) (hk : k < fs.sectorSize * l.length) :
    byteAt fs (copy m (sectorAt fs (l.getD q 0) + r) n src) l k =
      if fs.sectorSize * q + r ≤ k ∧ k < fs.sectorSize * q + r + n then src (k - (fs.sectorSize * q + r))
      else byteAt fs m l k := by
  have hs := L.sectorSize
  have hk' : k / fs.sectorSize < l.length := Nat.div_lt_of_lt_mul hk
  have hx := h.getD_lt hq
  have hy := h.getD_lt hk'
  have hdiv := Nat.div_add_mod k fs.sectorSize
  have hmod : k % fs.sectorSize < fs.sectorSize := Nat.mod_lt _ (by omega)
  unfold byteAt
  by_cases hqk : k / fs.sectorSize = q
  · rw [hqk] at hdiv ⊢
    split
    · rw [copy_in (by omega) (by omega)]
      exact congrArg src (by omega)
    · exact copy_out (by omega)
  · have hne : l.getD (k / fs.sectorSize) 0 ≠ l.getD q 0 := fun he => hqk (getD_inj (h.nodup L) hk' hq he)
    rw [if_neg fun hin => hqk (Nat.div_eq_of_lt_le (by rw [Nat.mul_comm]; omega) (by
      rw [Nat.succ_mul, Nat.mul_comm]
      omega))]
    rcases Nat.lt_or_gt_of_ne hne with hlt | hgt
    · have := L.sector_lt hlt hx
      exact copy_out (by omega)
    · have := L.sector_lt hgt hy
      exact copy_out (by omega)

/-! ## The loop of `tagfs_read` -/

/-- The loop fills the buffer with the bytes of the sectors after `g`. -/
theorem readRest_spec (size fileSize fuel bufIndex : Nat) (buf : Bytes) (L : Layout fs)
    (h : FatChain fs img g (g :: l)) (hsize : size ≤ fileSize) (hidx : bufIndex ≤ size)
    (hl : size ≤ bufIndex + fs.sectorSize * l.length) (hfuel : size ≤ bufIndex + fuel) :
    ∃ buf', readRest fs img size fileSize fuel buf bufIndex g = (size, buf') ∧ (∀ k < bufIndex, buf' k = buf k) ∧
      ∀ k, bufIndex + k < size → buf' (bufIndex + k) = byteAt fs img l k := by
  have hs := L.sectorSize
  induction fuel generalizing g l buf bufIndex with
  | zero =>
    obtain rfl : bufIndex = size := by omega
    exact ⟨buf, rfl, fun _ _ => rfl, fun k hk => by omega⟩
  | succ fuel ih =>
    unfold readRest
    split
    · rename_i hlt
      rw [if_neg (by omega)]
      have hne : l ≠ [] := by
        rintro rfl
        rw [List.length_nil, Nat.mul_zero] at hl
        omega
      obtain ⟨x, l, rfl⟩ := List.exists_cons_of_ne_nil hne
      have htail := h.tail
      obtain rfl := htail.cons_inv
      rw [List.length_cons, Nat.mul_add, Nat.mul_one] at hl
      simp only
      split
      · rename_i hlast
        -- The last sector: the rest of the window lies in it.
        obtain ⟨buf', hr, hlow, -⟩ := ih (bufIndex + (size - bufIndex))
          (copy buf bufIndex (size - bufIndex) fun k => img (sectorAt fs (fat fs img g) + k)) htail (by omega)
          (by omega) (by omega)
        refine ⟨buf', hr, fun k hk => ?_, fun k hk => ?_⟩
        · rw [hlow k (by omega), copy_out (by omega)]
        · rw [hlow _ (by omega), copy_in (by omega) (by omega), Nat.add_sub_cancel_left, byteAt_first (by omega)]
      · rename_i hmore
        obtain ⟨buf', hr, hlow, hhigh⟩ := ih (bufIndex + fs.sectorSize)
          (copy buf bufIndex fs.sectorSize fun k => img (sectorAt fs (fat fs img g) + k)) htail (by omega)
          (by omega) (by omega)
        refine ⟨buf', hr, fun k hk => ?_, fun k hk => ?_⟩
        · rw [hlow k (by omega), copy_out (by omega)]
        · rcases Nat.lt_or_ge k fs.sectorSize with hk' | hk'
          · rw [hlow _ (by omega), copy_in (by omega) (by omega), Nat.add_sub_cancel_left, byteAt_first hk']
          · obtain ⟨j, rfl⟩ : ∃ j, k = j + fs.sectorSize := ⟨k - fs.sectorSize, by omega⟩
            rw [byteAt_cons (by omega), ← hhigh j (by omega)]
            congr 1
            omega
    · obtain rfl : bufIndex = size := by omega
      exact ⟨buf, rfl, fun _ _ => rfl, fun k hk => by omega⟩

/-! ## `tagfs_read` -/

/-- The name is that of entry `i`, and of no entry before it. -/
structure Named (fs : FSMetadata) (img : Bytes) (name : CStr) (i : Nat) : Prop where
  lt : i < countFileMetaEntries fs
  found : strcmpEq img (nameAt (fileMetaAt fs i)) name = true
  first : ∀ j < i, strcmpEq img (nameAt (fileMetaAt fs j)) name = false

theorem Named.scan_eq {name : CStr} {i : Nat} (h : Named fs img name i) :
    scan (fun i => strcmpEq img (nameAt (fileMetaAt fs i)) name) (countFileMetaEntries fs) 0 = i :=
  (scan_eq_iff (Nat.zero_le _) h.lt (Nat.zero_le _)).mpr ⟨h.found, fun k _ hk => h.first k hk⟩

theorem Named.fileId {name : CStr} {i : Nat} (h : Named fs img name i) (L : Layout fs) :
    getFileIdFromName fs img name = i + 1 := by
  have hcount := L.fileMetas
  have hlt := h.lt
  simp only [getFileIdFromName, h.scan_eq, if_pos h.lt]
  omega

/-- A name is that of an entry, or is not found. -/
theorem named_or_absent (fs : FSMetadata) (img : Bytes) (name : CStr) :
    (∃ i, Named fs img name i) ∨ getFileIdFromName fs img name = 0 := by
  by_cases h : scan (fun i => strcmpEq img (nameAt (fileMetaAt fs i)) name) (countFileMetaEntries fs) 0 <
      countFileMetaEntries fs
  · refine .inl ⟨_, h, scan_spec (p := fun i => strcmpEq img (nameAt (fileMetaAt fs i)) name) h, fun j hj => ?_⟩
    exact scan_before (p := fun i => strcmpEq img (nameAt (fileMetaAt fs i)) name) (Nat.zero_le _) hj
  · refine .inr ?_
    simp only [getFileIdFromName]
    rw [if_neg h]

theorem toInt_eq {n : Nat} (h : n < 2 ^ 31) : toInt n = n := by
  unfold toInt
  rw [Int.bmod_def]
  omega

/-- `tagfs_read` of a window in a file returns its bytes. -/
theorem tagfsRead_spec {name : CStr} {i size offset : Nat} (L : Layout fs) (hfs : fsMeta img = fs)
    (hname : Named fs img name i) (hchain : FatChain fs img (firstDataSector img (fileMetaAt fs i)) l)
    (hl : fileSize img (fileMetaAt fs i) ≤ fs.sectorSize * l.length) (hpos : 0 < size)
    (hin : offset + size ≤ fileSize img (fileMetaAt fs i)) (hsize : size < 2 ^ 31) (buf : Bytes) :
    ∃ buf', tagfsRead img name buf size offset = ((size : Int), buf') ∧
      ∀ k < size, buf' k = byteAt fs img l (offset + k) := by
  have hs := L.sectorSize
  have hoffset : fs.sectorSize * (offset / fs.sectorSize) + offset % fs.sectorSize = offset := Nat.div_add_mod _ _
  have hmod : offset % fs.sectorSize < fs.sectorSize := Nat.mod_lt _ (by omega)
  have hq : offset / fs.sectorSize < l.length := Nat.div_lt_of_lt_mul (by omega)
  obtain ⟨x, hskip, hx, hdrop⟩ := skipSectors_spec L hchain hq
  -- The window begins in the sector that the walk arrives at.
  have hbyte : ∀ k, byteAt fs img (x :: l.drop (offset / fs.sectorSize + 1)) (offset % fs.sectorSize + k) =
      byteAt fs img l (offset + k) := fun k => by
    rw [← hdrop, byteAt_drop (by omega)]
    congr 1
    omega
  rw [hdrop] at hx
  simp only [tagfsRead, hfs, hname.fileId L, Nat.add_sub_cancel, if_neg (Nat.succ_ne_zero i),
    if_neg (show ¬ offset ≥ fileSize img (fileMetaAt fs i) by omega), hskip]
  split
  · rename_i hone
    refine ⟨_, by rw [toInt_eq hsize], fun k hk => ?_⟩
    rw [copy_in (by omega) (by omega), ← hbyte, byteAt_first (by omega), Nat.sub_zero, Nat.add_assoc]
  · rename_i hmany
    have hlen : (l.drop (offset / fs.sectorSize + 1)).length = l.length - (offset / fs.sectorSize + 1) := List.length_drop
    have hroom : fs.sectorSize * l.length = fs.sectorSize * (offset / fs.sectorSize) + fs.sectorSize +
        fs.sectorSize * (l.drop (offset / fs.sectorSize + 1)).length := by
      rw [hlen, ← Nat.mul_add_one, ← Nat.mul_add]
      congr 1
      omega
    obtain ⟨buf', hr, hlow, hhigh⟩ := readRest_spec size (fileSize img (fileMetaAt fs i)) size
      (fs.sectorSize - offset % fs.sectorSize) (copy buf 0 (fs.sectorSize - offset % fs.sectorSize)
        fun k => img (sectorAt fs x + offset % fs.sectorSize + k)) L hx (by omega) (by omega) (by omega) (by omega)
    rw [hr]
    refine ⟨buf', by rw [toInt_eq hsize], fun k hk => ?_⟩
    rw [← hbyte]
    rcases Nat.lt_or_ge k (fs.sectorSize - offset % fs.sectorSize) with hk' | hk'
    · rw [hlow k hk', copy_in (by omega) (by omega), byteAt_first (by omega), Nat.sub_zero, Nat.add_assoc]
    · obtain ⟨j, rfl⟩ : ∃ j, k = fs.sectorSize - offset % fs.sectorSize + j :=
        ⟨k - (fs.sectorSize - offset % fs.sectorSize), by omega⟩
      rw [hhigh j hk, show offset % fs.sectorSize + (fs.sectorSize - offset % fs.sectorSize + j) = j + fs.sectorSize by
        omega, byteAt_cons (by omega)]

end OSForReal.Proof.TagFS
