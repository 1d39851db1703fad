import OSForReal.Proof.TagFS.FuseRuns
import OSForReal.TagFS.Accesses

/-!
# `tagfs_read` at the end of a file

The loop of `tagfs_read` compares the bytes read with the size of the file, and
not with what is left of it after `offset`. So a window is read right when the
file ends before it or after it (`withinFile_of_window`); a window that crosses
the end is cut there only if it begins with the file and the file fills its last
sector (`tagfsRead_endOfFile`).
-/

namespace OSForReal.Proof.TagFS

open Framework
open Framework.Bytes
open OSForReal.TagFS

variable {fs : FSMetadata} {img buf : Bytes} {name : CStr} {next : Nat → Nat} {data : Nat → Bytes} {l : List Nat}
  {g i k size fileLength bufIndex sectorSize offset : Nat} {P : Access → Prop}

/-! ## One step of each loop -/

theorem skipTraced_succ_val : (skipTraced next (k + 1) g).val =
    if next g = 0xffff then none else (skipTraced next k (next g)).val := by
  show (if next g = 0xffff then (pure none : Traced Access _) else skipTraced next k (next g)).val = _
  split <;> rfl

theorem skipTraced_succ_all : (skipTraced next (k + 1) g).All P ↔
    P (.fatEntry g) ∧ (next g ≠ 0xffff → (skipTraced next k (next g)).All P) := by
  refine Traced.all_bind.trans (and_congr Traced.all_record ?_)
  show (if next g = 0xffff then (pure none : Traced Access _) else skipTraced next k (next g)).All P ↔ _
  split
  · rename_i hend
    exact ⟨fun _ hne => absurd hend hne, fun _ => Traced.all_pure⟩
  · rename_i hne
    exact ⟨fun h _ => h, fun h => h hne⟩

theorem restTraced_done {fuel : Nat} (h : size ≤ bufIndex ∨ fileLength ≤ bufIndex) :
    (restTraced next data sectorSize size fileLength fuel buf bufIndex g).All P := by
  cases fuel with
  | zero => exact Traced.all_pure
  | succ fuel =>
    rw [restTraced]
    split
    · rw [if_pos (by omega)]
      exact Traced.all_pure
    · exact Traced.all_pure

theorem restTraced_pass_all (hidx : bufIndex < size) (hfile : bufIndex < fileLength) (fuel : Nat) :
    (restTraced next data sectorSize size fileLength (fuel + 1) buf bufIndex g).All P ↔
      P (.fatEntry g) ∧ P (.dataSector (next g)) ∧
        (restTraced next data sectorSize size fileLength fuel
          (copy buf bufIndex (min (size - bufIndex) sectorSize) (data (next g)))
          (bufIndex + min (size - bufIndex) sectorSize) (next g)).All P := by
  have hmin : (if size ≤ bufIndex + sectorSize then size - bufIndex else sectorSize) = min (size - bufIndex) sectorSize := by
    split <;> omega
  rw [restTraced, if_pos hidx, if_neg (by omega), hmin]
  exact Traced.all_bind.trans (and_congr Traced.all_record (Traced.all_bind.trans (and_congr Traced.all_record Iff.rfl)))

/-! ## The calls without their accesses -/

theorem skipTraced_val (fs : FSMetadata) (img : Bytes) (k g : Nat) :
    (skipTraced (fat fs img) k g).val = skipSectors fs img k g := by
  induction k generalizing g with
  | zero => rfl
  | succ k ih => rw [skipTraced_succ_val, skipSectors, ih]

theorem restTraced_val (fs : FSMetadata) (img : Bytes) (size fileLength fuel : Nat) (buf : Bytes) (bufIndex g : Nat) :
    (restTraced (fat fs img) (fun i k => img (sectorAt fs i + k)) fs.sectorSize size fileLength fuel buf bufIndex g).val =
      readRest fs img size fileLength fuel buf bufIndex g := by
  induction fuel generalizing buf bufIndex g with
  | zero => rfl
  | succ fuel ih =>
    rw [restTraced, readRest]
    split
    · split
      · rfl
      · exact ih _ _ _
    · rfl

/-- The call without its accesses. -/
theorem tagfsReadTraced_val (img : Bytes) (name : CStr) (buf : Bytes) (size offset : Nat) :
    (tagfsReadTraced img name buf size offset).val = tagfsRead img name buf size offset := by
  unfold tagfsReadTraced tagfsRead
  simp only
  split
  · rfl
  · split
    · rfl
    · rw [Traced.val_bind, skipTraced_val]
      cases skipSectors (fsMeta img) img (offset / (fsMeta img).sectorSize) _ with
      | none => rfl
      | some x =>
        simp only [Traced.val_bind, readData, Traced.val_record, ← Nat.add_assoc]
        split
        · rfl
        · simp only [Traced.val_bind, restTraced_val, Traced.val_pure]

/-! ## Accesses on a chain -/

/-- The entry or the sector is on the chain. -/
def OnChain (l : List Nat) : Access → Prop
  | .fatEntry i => i ∈ l
  | .dataSector i => i ∈ l

theorem OnChain.cons {a : Access} (h : OnChain l a) : OnChain (g :: l) a := by
  cases a <;> exact List.mem_cons_of_mem _ h

/-- Skipping sectors stays on the chain, and stops at its end. -/
theorem skipTraced_all (h : Chain next g l 0xffff) (hl : l ≠ []) (k : Nat) : (skipTraced next k g).All (OnChain l) := by
  induction k generalizing g l with
  | zero => exact Traced.all_pure
  | succ k ih =>
    obtain ⟨x, l, rfl⟩ := List.exists_cons_of_ne_nil hl
    obtain ⟨rfl, htail⟩ := h
    refine skipTraced_succ_all.mpr ⟨List.mem_cons_self, fun hne => ?_⟩
    have hl : l ≠ [] := by
      rintro rfl
      exact hne htail
    exact (ih htail hl).mono fun _ => OnChain.cons

/-- The loop stays on the chain, when it has as many sectors as the window or the file. -/
theorem restTraced_all {b : Nat} (h : Chain next g (g :: l) b) (fuel : Nat) (buf : Bytes) (bufIndex : Nat)
    (hl : min size fileLength ≤ bufIndex + sectorSize * l.length) :
    (restTraced next data sectorSize size fileLength fuel buf bufIndex g).All (OnChain (g :: l)) := by
  induction fuel generalizing g l buf bufIndex with
  | zero => exact Traced.all_pure
  | succ fuel ih =>
    by_cases hdone : size ≤ bufIndex ∨ fileLength ≤ bufIndex
    · exact restTraced_done hdone
    · have hne : l ≠ [] := by
        rintro rfl
        rw [List.length_nil, Nat.mul_zero] at hl
        omega
      obtain ⟨x, l, rfl⟩ := List.exists_cons_of_ne_nil hne
      obtain ⟨-, rfl, htail⟩ := h
      rw [List.length_cons, Nat.mul_succ] at hl
      refine (restTraced_pass_all (by omega) (by omega) fuel).mpr ⟨List.mem_cons_self, ?_, ?_⟩
      · exact List.mem_cons_of_mem _ List.mem_cons_self
      · exact Traced.All.mono (ih ⟨rfl, htail⟩ _ _ (by omega)) fun _ => OnChain.cons

/-! ## What the loop returns -/

theorem readRest_done {fuel : Nat} (h : size ≤ bufIndex ∨ fileLength ≤ bufIndex) :
    readRest fs img size fileLength fuel buf bufIndex g = (bufIndex, buf) := by
  cases fuel with
  | zero => rfl
  | succ fuel =>
    rw [readRest]
    split
    · rw [if_pos (by omega)]
    · rfl

/-- A pass reads the next sector, or what is left of the window. -/
theorem readRest_pass (hidx : bufIndex < size) (hfile : bufIndex < fileLength) (fuel : Nat) :
    readRest fs img size fileLength (fuel + 1) buf bufIndex g =
      readRest fs img size fileLength fuel
        (copy buf bufIndex (min (size - bufIndex) fs.sectorSize) fun k => img (sectorAt fs (fat fs img g) + k))
        (bufIndex + min (size - bufIndex) fs.sectorSize) (fat fs img g) := by
  have hmin : (if size ≤ bufIndex + fs.sectorSize then size - bufIndex else fs.sectorSize) =
      min (size - bufIndex) fs.sectorSize := by
    split <;> omega
  rw [readRest, if_pos hidx, if_neg (by omega), ← hmin]

/-- The loop ends at the end of the window, or before the first sector that begins after the end of the file. -/
theorem readRest_end (hs : 0 < fs.sectorSize) (fileLength fuel : Nat) (buf : Bytes) (bufIndex : Nat)
    (hidx : bufIndex ≤ size) (hfuel : size ≤ bufIndex + fuel) :
    ∃ b buf', readRest fs img size fileLength fuel buf bufIndex g = (b, buf') ∧
      b ≤ max bufIndex (fileLength + fs.sectorSize) ∧
        (b = size ∨ fileLength ≤ b ∧ ∃ j, b = bufIndex + fs.sectorSize * j) := by
  induction fuel generalizing g buf bufIndex with
  | zero => exact ⟨bufIndex, buf, rfl, Nat.le_max_left _ _, .inl (by omega)⟩
  | succ fuel ih =>
    by_cases hdone : size ≤ bufIndex ∨ fileLength ≤ bufIndex
    · refine ⟨bufIndex, buf, readRest_done hdone, Nat.le_max_left _ _, ?_⟩
      rcases hdone with hsize | hfile
      · exact .inl (Nat.le_antisymm hidx hsize)
      · exact .inr ⟨hfile, 0, rfl⟩
    · obtain ⟨b, buf', hr, hle, hend⟩ := ih (g := fat fs img g)
        (copy buf bufIndex (min (size - bufIndex) fs.sectorSize) fun k => img (sectorAt fs (fat fs img g) + k))
        (bufIndex + min (size - bufIndex) fs.sectorSize) (by omega) (by omega)
      refine ⟨b, buf', (readRest_pass (by omega) (by omega) fuel).trans hr, by omega, ?_⟩
      rcases hend with hsize | ⟨hfile, j, hj⟩
      · exact .inl hsize
      · rcases Nat.le_total (size - bufIndex) fs.sectorSize with hlast | hmore
        · -- The last pass of the window.
          rw [Nat.min_eq_left hlast, Nat.add_sub_of_le hidx, readRest_done (.inl (Nat.le_refl _))] at hr
          exact .inl (Prod.mk.inj hr).1.symm
        · rw [Nat.min_eq_right hmore] at hj
          exact .inr ⟨hfile, j + 1, by rw [hj, Nat.mul_succ]; omega⟩

/-- Where the file ends with a sector, a longer window is read like one that ends there. -/
theorem readRest_aligned {n : Nat} (hs : 0 < fs.sectorSize) (fuel : Nat) (buf : Bytes) (bufIndex : Nat)
    (hfile : fileLength = bufIndex + fs.sectorSize * n) (hsize : fileLength < size) :
    readRest fs img size fileLength fuel buf bufIndex g = readRest fs img fileLength fileLength fuel buf bufIndex g := by
  induction fuel generalizing g buf bufIndex n with
  | zero => rfl
  | succ fuel ih =>
    cases n with
    | zero => rw [readRest_done (.inr (by omega)), readRest_done (.inr (by omega))]
    | succ n =>
      rw [Nat.mul_succ] at hfile
      rw [readRest_pass (by omega) (by omega), readRest_pass (by omega) (by omega), Nat.min_eq_right (by omega),
        Nat.min_eq_right (by omega)]
      exact ih (n := n) _ _ (by omega)

/-! ## The call -/

/-- What `tagfs_read` does with a window: it returns the number of bytes that the
file has there, and the bytes, and accesses only what is on the chain. -/
structure WithinFile (fs : FSMetadata) (img : Bytes) (l : List Nat) (fileLength size offset : Nat)
    (r : Traced Access (Int × Bytes)) : Prop where
  returns : r.val.1 = (min size (fileLength - offset) : Nat)
  bytes : ∀ k < min size (fileLength - offset), r.val.2 k = byteAt fs img l (offset + k)
  onChain : r.All (OnChain l)

/-- Where the chain has a sector for every one that the window or the file has after
`offset`, the call stays on it. -/
theorem tagfsReadTraced_all (L : Layout fs) (hfs : fsMeta img = fs) (hname : Named fs img name i)
    (hchain : FatChain fs img (firstDataSector img (fileMetaAt fs i)) l) (buf : Bytes)
    (hl : offset < fileSize img (fileMetaAt fs i) →
      offset < fs.sectorSize * l.length ∧ offset + min size (fileSize img (fileMetaAt fs i)) ≤ fs.sectorSize * l.length) :
    (tagfsReadTraced img name buf size offset).All (OnChain l) := by
  have hs := L.sectorSize
  simp only [tagfsReadTraced, hfs, hname.fileId L, Nat.add_sub_cancel, if_neg (Nat.succ_ne_zero i)]
  split
  · exact Traced.all_pure
  · rename_i hlt
    obtain ⟨hoff, hlen⟩ := hl (Nat.lt_of_not_le hlt)
    have hoffset : fs.sectorSize * (offset / fs.sectorSize) + offset % fs.sectorSize = offset := Nat.div_add_mod _ _
    have hmod : offset % fs.sectorSize < fs.sectorSize := Nat.mod_lt _ (by omega)
    have hq : offset / fs.sectorSize < l.length := Nat.div_lt_of_lt_mul hoff
    obtain ⟨x, hskip, hx, hdrop⟩ := skipSectors_spec L hchain hq
    have hne : l ≠ [] := List.ne_nil_of_length_pos (Nat.zero_lt_of_lt hq)
    have hsub : ∀ a, OnChain (l.drop (offset / fs.sectorSize)) a → OnChain l a := fun a ha => by
      cases a <;> exact List.mem_of_mem_drop ha
    refine Traced.all_bind.mpr ⟨skipTraced_all hchain.1 hne _, ?_⟩
    rw [skipTraced_val, hskip]
    refine Traced.all_bind.mpr ⟨Traced.all_record.mpr (hsub (.dataSector x) ?_), ?_⟩
    · rw [hdrop]
      exact List.mem_cons_self
    · split
      · exact Traced.all_pure
      · rw [hdrop] at hx
        have hroom : fs.sectorSize * l.length = fs.sectorSize * (offset / fs.sectorSize) + fs.sectorSize +
            fs.sectorSize * (l.drop (offset / fs.sectorSize + 1)).length := by
          rw [List.length_drop, ← Nat.mul_add_one, ← Nat.mul_add]
          congr 1
          omega
        have hrest (buf : Bytes) : (restTraced (fat fs img) (fun i k => img (sectorAt fs i + k)) fs.sectorSize size
            (fileSize img (fileMetaAt fs i)) size buf (fs.sectorSize - offset % fs.sectorSize) x).All
            (OnChain (x :: l.drop (offset / fs.sectorSize + 1))) := restTraced_all hx.1 _ _ _ (by omega)
        rw [← hdrop] at hrest
        exact Traced.all_bind.mpr ⟨(hrest _).mono hsub, Traced.all_pure⟩

/-- A size that is returned as a number of bytes is that number. -/
theorem eq_of_toInt_eq {b n : Nat} (hb : b < 2 ^ 32) (h : toInt b = (n : Int)) : b = n := by
  unfold toInt at h
  rw [Int.bmod_def] at h
  split at h <;> omega

/-- Nothing is read from the end of the file on. -/
theorem tagfsRead_past (L : Layout fs) (hfs : fsMeta img = fs) (hname : Named fs img name i)
    (h : fileSize img (fileMetaAt fs i) ≤ offset) : tagfsRead img name buf size offset = (0, buf) := by
  simp only [tagfsRead, hfs, hname.fileId L, Nat.add_sub_cancel, if_neg (Nat.succ_ne_zero i), if_pos h]

/-- Where the call does not read a part of one sector, it returns what the loop does. -/
theorem tagfsRead_many (L : Layout fs) (hfs : fsMeta img = fs) (hname : Named fs img name i)
    (hchain : FatChain fs img (firstDataSector img (fileMetaAt fs i)) l)
    (hlt : offset < fileSize img (fileMetaAt fs i)) (hl : offset < fs.sectorSize * l.length)
    (hmany : fs.sectorSize - offset % fs.sectorSize < size) :
    tagfsRead img name buf size offset =
      let r := readRest fs img size (fileSize img (fileMetaAt fs i)) size
        (copy buf 0 (fs.sectorSize - offset % fs.sectorSize) fun k =>
          img (sectorAt fs (l.getD (offset / fs.sectorSize) 0) + offset % fs.sectorSize + k))
        (fs.sectorSize - offset % fs.sectorSize) (l.getD (offset / fs.sectorSize) 0)
      (toInt r.1, r.2) := by
  simp only [tagfsRead, hfs, hname.fileId L, Nat.add_sub_cancel, if_neg (Nat.succ_ne_zero i), if_neg (Nat.not_le_of_lt hlt),
    skipSectors_getD L hchain (Nat.div_lt_of_lt_mul hl), if_neg (Nat.not_le_of_lt hmany)]

/-- A file that ends with a sector is read to its end from its beginning. -/
theorem tagfsRead_whole {n : Nat} (L : Layout fs) (hfs : fsMeta img = fs) (hname : Named fs img name i)
    (hchain : FatChain fs img (firstDataSector img (fileMetaAt fs i)) l)
    (hl : fileSize img (fileMetaAt fs i) ≤ fs.sectorSize * l.length)
    (hfile : fileSize img (fileMetaAt fs i) = fs.sectorSize * (n + 1)) (hsize : fileSize img (fileMetaAt fs i) < size) :
    ∃ buf', tagfsRead img name buf size 0 = (toInt (fileSize img (fileMetaAt fs i)), buf') ∧
      ∀ k < fileSize img (fileMetaAt fs i), buf' k = byteAt fs img l k := by
  have hs := L.sectorSize
  rw [Nat.mul_succ] at hfile
  obtain ⟨x, l, rfl⟩ : ∃ x l', l = x :: l' := List.exists_cons_of_ne_nil (by
    rintro rfl
    rw [List.length_nil, Nat.mul_zero] at hl
    omega)
  obtain rfl := hchain.cons_inv
  have hmany := @tagfsRead_many fs img buf name _ i size 0 L hfs hname hchain (by omega)
    (by omega) (by rw [Nat.zero_mod]; omega)
  rw [Nat.zero_mod, Nat.zero_div, List.getD_cons_zero, Nat.sub_zero, Nat.add_zero] at hmany
  rw [List.length_cons, Nat.mul_succ] at hl
  obtain ⟨buf', hr, hlow, hhigh⟩ := readRest_spec (fileSize img (fileMetaAt fs i)) (fileSize img (fileMetaAt fs i)) size
    fs.sectorSize (copy buf 0 fs.sectorSize fun k => img (sectorAt fs (firstDataSector img (fileMetaAt fs i)) + k)) L
    hchain (Nat.le_refl _) (by omega) (by omega) (by omega)
  rw [← readRest_aligned (n := n) (by omega) size _ _ (by omega) hsize] at hr
  refine ⟨buf', by rw [hmany]; simp only [hr], fun k hk => ?_⟩
  rcases Nat.lt_or_ge k fs.sectorSize with hfirst | hrest
  · rw [hlow k hfirst, copy_in (by omega) (by omega), Nat.sub_zero, byteAt_first hfirst]
  · obtain ⟨j, rfl⟩ := Nat.exists_eq_add_of_le hrest
    rw [hhigh j hk, Nat.add_comm, byteAt_cons (by omega)]

/-- The windows that are read right. -/
theorem window_of_withinFile (L : Layout fs) (hfs : fsMeta img = fs) (hname : Named fs img name i)
    (hchain : FatChain fs img (firstDataSector img (fileMetaAt fs i)) l)
    (hl : fileSize img (fileMetaAt fs i) ≤ fs.sectorSize * l.length)
    (h : WithinFile fs img l (fileSize img (fileMetaAt fs i)) size offset (tagfsReadTraced img name buf size offset)) :
    fileSize img (fileMetaAt fs i) ≤ offset ∨ offset + size ≤ fileSize img (fileMetaAt fs i) ∨
      offset = 0 ∧ fs.sectorSize ∣ fileSize img (fileMetaAt fs i) := by
  have hs := L.sectorSize
  have hdata := L.data
  have hlen : fs.sectorSize * l.length ≤ fs.sectorSize * fatCount fs := Nat.mul_le_mul_left _ (hchain.length_le L)
  by_contra hbad
  rw [not_or, not_or] at hbad
  obtain ⟨hlt, hcross, hwhole⟩ := hbad
  have hmod : offset % fs.sectorSize < fs.sectorSize := Nat.mod_lt _ (by omega)
  have hpos : 0 < fatCount fs := Nat.pos_of_ne_zero fun h0 => by
    rw [h0, Nat.mul_zero] at hlen
    omega
  have hsector := L.sectorSize_lt hpos
  have hreturns := h.returns
  rw [tagfsReadTraced_val, Nat.min_eq_right (by omega)] at hreturns
  rcases Nat.lt_or_ge (fs.sectorSize - offset % fs.sectorSize) size with hmany | hone
  · obtain ⟨b, buf', hr, hle, hend⟩ := @readRest_end fs img (l.getD (offset / fs.sectorSize) 0) size (by omega)
      (fileSize img (fileMetaAt fs i)) size
      (copy buf 0 (fs.sectorSize - offset % fs.sectorSize) fun k =>
        img (sectorAt fs (l.getD (offset / fs.sectorSize) 0) + offset % fs.sectorSize + k))
      (fs.sectorSize - offset % fs.sectorSize) (by omega) (by omega)
    rw [tagfsRead_many L hfs hname hchain (by omega) (by omega) hmany] at hreturns
    simp only [hr] at hreturns
    have hb := eq_of_toInt_eq (by omega) hreturns
    rcases hend with rfl | ⟨hge, j, hj⟩
    · omega
    · -- The loop stops at a sector, which the file ends before.
      have hoffset : offset = 0 := by omega
      rw [hoffset, Nat.zero_mod, Nat.sub_zero] at hj
      refine hwhole ⟨hoffset, j + 1, ?_⟩
      rw [Nat.mul_succ]
      omega
  · have hskip := skipSectors_getD L hchain (k := offset / fs.sectorSize) (Nat.div_lt_of_lt_mul (by omega))
    simp only [tagfsRead, hfs, hname.fileId L, Nat.add_sub_cancel, if_neg (Nat.succ_ne_zero i), if_neg hlt, hskip, if_pos hone]
      at hreturns
    have hb := eq_of_toInt_eq (by omega) hreturns
    omega

/-- A window after the file, in the file, or over all of a file that fills its last sector. -/
theorem withinFile_of_window (L : Layout fs) (hfs : fsMeta img = fs) (hname : Named fs img name i)
    (hchain : FatChain fs img (firstDataSector img (fileMetaAt fs i)) l)
    (hl : fileSize img (fileMetaAt fs i) ≤ fs.sectorSize * l.length) (hpos : 0 < size)
    (h : fileSize img (fileMetaAt fs i) ≤ offset ∨ offset + size ≤ fileSize img (fileMetaAt fs i) ∨
      offset = 0 ∧ fs.sectorSize ∣ fileSize img (fileMetaAt fs i)) :
    WithinFile fs img l (fileSize img (fileMetaAt fs i)) size offset (tagfsReadTraced img name buf size offset) := by
  have hdata := L.data
  have hlen : fs.sectorSize * l.length ≤ fs.sectorSize * fatCount fs := Nat.mul_le_mul_left _ (hchain.length_le L)
  have hall : (tagfsReadTraced img name buf size offset).All (OnChain l) :=
    tagfsReadTraced_all L hfs hname hchain buf fun hlt => by omega
  rcases Nat.lt_or_ge offset (fileSize img (fileMetaAt fs i)) with hlt | hpast
  · rcases Nat.lt_or_ge (fileSize img (fileMetaAt fs i)) (offset + size) with hcross | hin
    · obtain ⟨rfl, n, hn⟩ := h.resolve_left (Nat.not_le_of_lt hlt) |>.resolve_left (Nat.not_le_of_lt hcross)
      obtain ⟨n, rfl⟩ : ∃ m, n = m + 1 := Nat.exists_eq_succ_of_ne_zero fun h0 => by
        rw [h0, Nat.mul_zero] at hn
        omega
      obtain ⟨buf', hr, hbytes⟩ := @tagfsRead_whole fs img buf name l i size n L hfs hname hchain hl hn (by omega)
      have hmin : min size (fileSize img (fileMetaAt fs i) - 0) = fileSize img (fileMetaAt fs i) := by omega
      refine ⟨?_, fun k hk => ?_, hall⟩
      · rw [tagfsReadTraced_val, hr, hmin, toInt_eq (by omega)]
      · rw [hmin] at hk
        rw [tagfsReadTraced_val, hr, Nat.zero_add]
        exact hbytes k hk
    · obtain ⟨buf', hr, hbytes⟩ := tagfsRead_spec L hfs hname hchain hl hpos hin (by omega) buf
      refine ⟨?_, fun k hk => ?_, hall⟩
      · rw [tagfsReadTraced_val, hr, Nat.min_eq_left (by omega)]
      · rw [tagfsReadTraced_val, hr]
        exact hbytes k (by omega)
  · refine ⟨?_, fun k hk => by omega, hall⟩
    rw [tagfsReadTraced_val, tagfsRead_past L hfs hname hpast, Nat.sub_eq_zero_of_le hpast, Nat.min_zero]
    rfl

/-- A window is read right when it lies after the file or in it, or when it begins
with the file and the file fills its last sector. -/
theorem tagfsRead_endOfFile (img : Bytes) (G : Geometry (fsMeta img)) (i : Nat) (name : CStr)
    (hname : Named (fsMeta img) img name i) (l : List Nat)
    (hchain : FatChain (fsMeta img) img (firstDataSector img (fileMetaAt (fsMeta img) i)) l)
    (hl : fileSize img (fileMetaAt (fsMeta img) i) ≤ (fsMeta img).sectorSize * l.length) (buf : Bytes)
    (size offset : Nat) (hpos : 0 < size) :
    WithinFile (fsMeta img) img l (fileSize img (fileMetaAt (fsMeta img) i)) size offset
        (tagfsReadTraced img name buf size offset) ↔
      fileSize img (fileMetaAt (fsMeta img) i) ≤ offset ∨ offset + size ≤ fileSize img (fileMetaAt (fsMeta img) i) ∨
        offset = 0 ∧ (fsMeta img).sectorSize ∣ fileSize img (fileMetaAt (fsMeta img) i) :=
  ⟨window_of_withinFile G.layout rfl hname hchain hl, withinFile_of_window G.layout rfl hname hchain hl hpos⟩

/-- A formatted image with the file `a` of 700 bytes, in the sectors 4 and 2. -/
def twoSectorFile : Bytes :=
  let e := fileMetaAt (headerOf {}) 0
  setName (setFileSize (setFirstDataSector
    (setFat (headerOf {}) (setFat (headerOf {}) (formatImage {} fun _ => 0) 4 2) 2 0xffff) e 4) e 700) e nameA

theorem twoSectorFile_file : fsMeta twoSectorFile = headerOf {} ∧ Named (headerOf {}) twoSectorFile nameA 0 ∧
    FatChain (headerOf {}) twoSectorFile (firstDataSector twoSectorFile (fileMetaAt (headerOf {}) 0)) [4, 2] ∧
    fileSize twoSectorFile (fileMetaAt (headerOf {}) 0) = 700 ∧ Used (headerOf {}) twoSectorFile 0 ∧
    ∀ j, Used (headerOf {}) twoSectorFile j → j = 0 := by
  have hch : ChangesOnly (headerOf {}) [0] [4, 2] [] (formatImage {} fun _ => 0) twoSectorFile :=
    (((changes_setFat (by decide)).trans (changes_setFat (by decide))).trans ((changes_setFirstDataSector (by decide)).trans
      ((changes_setFileSize (by decide)).trans (changes_setName (by decide) (by decide))))).mono (by simp) (by simp)
      (by simp) (by decide) (by decide) (by decide)
  have hfile : firstDataSector twoSectorFile (fileMetaAt (headerOf {}) 0) = 4 ∧ fat (headerOf {}) twoSectorFile 4 = 2 ∧
      fat (headerOf {}) twoSectorFile 2 = 0xffff ∧ fileSize twoSectorFile (fileMetaAt (headerOf {}) 0) = 700 := by
    decide +kernel
  obtain ⟨hfirst, hfat, hfat', hsize⟩ := hfile
  have hname : Named (headerOf {}) twoSectorFile nameA 0 :=
    ⟨by decide, strcmpEq_strcpy, fun j hj => absurd hj (Nat.not_lt_zero j)⟩
  refine ⟨(hch.fsMeta_eq geometry_default.layout).trans (fsMeta_formatImage geometry_default), hname, ?_, hsize,
    hname.used (by decide), fun j hj => ?_⟩
  · rw [hfirst]
    exact ⟨⟨rfl, hfat, hfat'⟩, by decide⟩
  · by_contra hne
    exact not_used_formatImage geometry_default _ j ((used_iff geometry_default.layout hch hne).mp hj)

/-- A window over the two sectors. -/
theorem tagfsRead_endOfFile_first :
    WithinFile (headerOf {}) twoSectorFile [4, 2] 700 100 500 (tagfsReadTraced twoSectorFile nameA (fun _ => 0) 100 500) := by
  obtain ⟨hheader, hname, hchain, hsize, -⟩ := twoSectorFile_file
  have h := tagfsRead_endOfFile twoSectorFile (by rw [hheader]; exact geometry_default) 0 nameA (by rw [hheader]; exact hname)
    [4, 2] (by rw [hheader]; exact hchain) (by rw [hheader, hsize]; decide) (fun _ => 0) 100 500 (by decide)
  rw [hheader, hsize] at h
  exact h.mpr (.inr (.inl (by decide)))

/-- Of a window that begins 100 bytes before the end, 300 bytes are returned. -/
theorem tagfsRead_endOfFile_fails : ¬ ∀ img, Geometry (fsMeta img) → ∀ i name, Named (fsMeta img) img name i → ∀ l,
    FatChain (fsMeta img) img (firstDataSector img (fileMetaAt (fsMeta img) i)) l →
    fileSize img (fileMetaAt (fsMeta img) i) ≤ (fsMeta img).sectorSize * l.length → ∀ buf size offset, 0 < size →
      WithinFile (fsMeta img) img l (fileSize img (fileMetaAt (fsMeta img) i)) size offset
        (tagfsReadTraced img name buf size offset) := by
  intro hall
  obtain ⟨hheader, hname, hchain, hsize, -⟩ := twoSectorFile_file
  have h := hall twoSectorFile (by rw [hheader]; exact geometry_default) 0 nameA (by rw [hheader]; exact hname)
    [4, 2] (by rw [hheader]; exact hchain) (by rw [hheader, hsize]; decide) (fun _ => 0) 300 600 (by decide)
  rw [hheader] at h
  have hwindow := window_of_withinFile geometry_default.layout hheader hname hchain (by rw [hsize]; decide) h
  rw [hsize] at hwindow
  revert hwindow
  decide

end OSForReal.Proof.TagFS
