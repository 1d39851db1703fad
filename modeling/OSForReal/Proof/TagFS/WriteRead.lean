import Mathlib.Data.Nat.Factorization.Basic
import Mathlib.Tactic.Ring
import OSForReal.Proof.TagFS.Lawful

/-!
# `tagfs_read` after `tagfs_write`

The writes that the driver does not get right, and why. A first write in more
sectors than one puts all of them in the first (`fresh_one_of_law`), and any
first write begins at the start of the file (`fresh_start_of_law`). One that
begins after the end of the file puts its bytes at the end
(`not_after_of_law`); one that needs another sector writes it where the chain
does not lead (`across_of_law`); one that stops early leaves the size
(`full_of_law`). `tagfsWriteRead_iff` puts these and `lawful_of_writesBack`
together.
-/

namespace OSForReal.Proof.TagFS

open Framework
open Framework.Bytes
open OSForReal.TagFS

variable {fs : FSMetadata} {img img' buf : Bytes} {name : CStr} {chain : Nat → List Nat} {l : List Nat}
  {e g i k n q r x size offset : Nat}

/-! ## What a lawful write has written -/

/-- A file that ends at or before the place of a read. -/
theorem skipSectors_of_le (h : FatChain fs img g l) (hl : l ≠ []) (hk : l.length ≤ k) : skipSectors fs img k g = none := by
  induction l generalizing g k with
  | nil => exact absurd rfl hl
  | cons x l ih =>
    obtain rfl := h.cons_inv
    obtain ⟨k, rfl⟩ : ∃ m, k = m + 1 := ⟨k - 1, by rw [List.length_cons] at hk; omega⟩
    rw [skipSectors]
    split
    · rfl
    · rename_i hne
      refine ih h.tail (fun h0 => hne ?_) (by simpa using hk)
      have htail := h.tail.1
      rw [h0] at htail
      exact htail

/-- The bytes that a read returns of the sector where it begins, and the first of the next. -/
theorem tagfsRead_some (L : Layout fs) (hfs : fsMeta img = fs) (hname : Named fs img name i)
    (hoff : offset < fileSize img (fileMetaAt fs i))
    (hskip : skipSectors fs img (offset / fs.sectorSize) (firstDataSector img (fileMetaAt fs i)) = some x) (out : Bytes) :
    (0 < size → (tagfsRead img name out size offset).2 0 = img (sectorAt fs x + offset % fs.sectorSize)) ∧
      (fs.sectorSize - offset % fs.sectorSize < size →
        fs.sectorSize - offset % fs.sectorSize < fileSize img (fileMetaAt fs i) →
          (tagfsRead img name out size offset).2 (fs.sectorSize - offset % fs.sectorSize) =
            img (sectorAt fs (fat fs img x))) := by
  have hs := L.sectorSize
  have hmod : offset % fs.sectorSize < fs.sectorSize := Nat.mod_lt _ (by omega)
  have hbelow : ∀ {fuel bufIndex g fileLength k : Nat} {buf : Bytes}, k < bufIndex →
      (readRest fs img size fileLength fuel buf bufIndex g).2 k = buf k := by
    intro fuel
    induction fuel with
    | zero => intros; rfl
    | succ fuel ih =>
      intro bufIndex g fileLength k buf hk
      rw [readRest]
      split
      · split
        · rfl
        · rw [ih (by omega), copy_out (by omega)]
      · rfl
  simp only [tagfsRead, hfs, hname.fileId L, Nat.add_sub_cancel, if_neg (Nat.succ_ne_zero i),
    if_neg (Nat.not_le_of_lt hoff), hskip]
  split
  · refine ⟨fun hpos => ?_, fun hlt => absurd hlt (by omega)⟩
    dsimp only
    rw [copy_in (Nat.le_refl 0) (by omega), Nat.sub_zero, Nat.add_zero]
  · refine ⟨fun _ => ?_, fun hlt hsize => ?_⟩
    · rw [hbelow (by omega), copy_in (Nat.le_refl 0) (by omega), Nat.sub_zero, Nat.add_zero]
    · obtain ⟨fuel, rfl⟩ : ∃ n, size = n + 1 := ⟨size - 1, by omega⟩
      rw [readRest, if_pos hlt, if_neg (by omega)]
      dsimp only
      rw [hbelow, copy_in (Nat.le_refl _), Nat.sub_self, Nat.add_zero]
      all_goals split <;> omega

/-- The buffer's first byte is where a read finds the first, and its first byte
for the next sector where a read that goes on finds that one. -/
theorem Lawful.bytes (h : Lawful fs img i name l buf size offset n img') (L : Layout fs) (hfs : fsMeta img' = fs)
    (hname : Named fs img' name i) (hpos : 0 < n) : ∃ x,
      skipSectors fs img' (offset / fs.sectorSize) (firstDataSector img' (fileMetaAt fs i)) = some x ∧
      img' (sectorAt fs x + offset % fs.sectorSize) = buf 0 ∧
      (fs.sectorSize - offset % fs.sectorSize < n →
        img' (sectorAt fs (fat fs img' x)) = buf (fs.sectorSize - offset % fs.sectorSize)) := by
  obtain ⟨out', hr, hbytes⟩ := h.read fun _ => 0
  have hsize := h.size hpos
  have hoff : offset < fileSize img' (fileMetaAt fs i) := by omega
  cases hskip : skipSectors fs img' (offset / fs.sectorSize) (firstDataSector img' (fileMetaAt fs i)) with
  | none =>
    have hbad : tagfsRead img' name (fun _ => 0) n offset = (-ebadfd, fun _ => 0) := by
      simp only [tagfsRead, hfs, hname.fileId L, Nat.add_sub_cancel, if_neg (Nat.succ_ne_zero i),
        if_neg (Nat.not_le_of_lt hoff), hskip]
    have hneg : ((n : Nat) : Int) = -ebadfd := (Prod.mk.inj (hr.symm.trans hbad)).1
    have : (-ebadfd : Int) < 0 := by decide
    omega
  | some x =>
    obtain ⟨hfirst, hnext⟩ := @tagfsRead_some fs img' name i x n offset L hfs hname hoff hskip fun _ => 0
    rw [hr] at hfirst hnext
    exact ⟨x, rfl, (hfirst hpos).symm.trans (hbytes 0 hpos), fun hlt =>
      (hnext hlt (by omega)).symm.trans (hbytes _ hlt)⟩

/-- A write within the sector where it begins, when the FAT entry is that of a free one. -/
theorem tagfsWrite_unmarked (hfs : fsMeta img = fs) (hid : getFileIdFromName fs img name = i + 1)
    (hfirst : firstDataSector img (fileMetaAt fs i) ≠ 0xffff)
    (hskip : skipSectors fs img (writeStart img (fileMetaAt fs i) offset / fs.sectorSize)
      (firstDataSector img (fileMetaAt fs i)) = some x) (L : Layout fs) (hx : x < fatCount fs) (hfat : fat fs img x = 0)
    (hsize : size ≤ fs.sectorSize - writeStart img (fileMetaAt fs i) offset % fs.sectorSize) :
    tagfsWrite img name buf size offset = (toInt size,
      growFile (setFat fs (copy img (sectorAt fs x + writeStart img (fileMetaAt fs i) offset % fs.sectorSize) size buf) x
        0xffff) (fileMetaAt fs i) (offset + size)) := by
  have hch : ChangesOnly fs [] [] [x] img
      (copy img (sectorAt fs x + writeStart img (fileMetaAt fs i) offset % fs.sectorSize) size buf) :=
    changes_fromStart L hx hsize
  have hfat' := (hch.fat_eq L hx (by simp)).trans hfat
  simp only [tagfsWrite, hfs, hid, Nat.add_sub_cancel, if_neg (Nat.succ_ne_zero i), startOfFile, if_neg hfirst, hskip,
    if_pos hsize, if_pos hfat']

/-! ## What the loop writes -/

/-- A byte is left, or is one of the buffer's after the first that the loop takes. -/
theorem writeRest_other {v : UInt8} {a fuel bufIndex : Nat} (L : Layout fs) (hfree : findFreeFat fs img = some g)
    (hbuf : ∀ k, bufIndex < k → buf k = v) (ha : a ≠ sectorAt fs g ∨ buf bufIndex = v) :
    (writeRest fs buf size fuel img bufIndex).2.1 a = img a ∨ (writeRest fs buf size fuel img bufIndex).2.1 a = v := by
  have hs := L.sectorSize
  induction fuel generalizing img bufIndex with
  | zero => exact .inl rfl
  | succ fuel ih =>
    by_cases hlt : bufIndex < size
    · have hchunk : 1 ≤ chunk fs size bufIndex := chunk_pos (by omega) hlt
      have hch := changes_chunk img size bufIndex (fun k => buf (bufIndex + k)) (findFreeFat_some hfree).1
      rw [writeRest_step hfree hlt]
      rcases @ih (copy img (sectorAt fs g) (chunk fs size bufIndex) fun k => buf (bufIndex + k))
        (bufIndex + chunk fs size bufIndex) ((findFreeFat_congr fun x hx => hch.fat_eq L hx (by simp)).trans hfree)
        (fun k hk => hbuf k (by omega)) (.inr (hbuf _ (by omega))) with hleft | hv
      · rw [hleft]
        by_cases hin : sectorAt fs g ≤ a ∧ a < sectorAt fs g + chunk fs size bufIndex
        · refine .inr ?_
          rw [copy_in hin.1 hin.2]
          rcases Nat.eq_or_lt_of_le hin.1 with heq | hlt'
          · rw [← heq, Nat.sub_self, Nat.add_zero]
            exact ha.resolve_left fun hne => hne heq.symm
          · exact hbuf _ (by omega)
        · exact .inl (copy_out (by omega))
      · exact .inr hv
    · rw [writeRest, if_neg hlt]
      exact .inl rfl

/-- The first byte of the sector that takes the rest is that of the last chunk. -/
theorem writeRest_first {v : UInt8} {fuel bufIndex : Nat} (L : Layout fs) (hfree : findFreeFat fs img = some g)
    (hbuf : ∀ k, bufIndex ≤ k → buf k = v) (h : bufIndex < size) (hfuel : 0 < fuel) :
    (writeRest fs buf size fuel img bufIndex).2.1 (sectorAt fs g) = v := by
  have hs := L.sectorSize
  obtain ⟨fuel, rfl⟩ : ∃ n, fuel = n + 1 := ⟨fuel - 1, by omega⟩
  have hchunk : 1 ≤ chunk fs size bufIndex := chunk_pos (by omega) h
  have hch := changes_chunk img size bufIndex (fun k => buf (bufIndex + k)) (findFreeFat_some hfree).1
  rw [writeRest_step hfree h]
  rcases @writeRest_other fs (copy img (sectorAt fs g) (chunk fs size bufIndex) fun k => buf (bufIndex + k)) buf g size v
    (sectorAt fs g) fuel (bufIndex + chunk fs size bufIndex) L
    ((findFreeFat_congr fun x hx => hch.fat_eq L hx (by simp)).trans hfree) (fun k hk => hbuf k (by omega))
    (.inr (hbuf _ (by omega))) with hleft | hv
  · rw [hleft, copy_in (Nat.le_refl _) (by omega)]
    exact hbuf _ (by omega)
  · exact hv

/-- A loop of more than one pass writes over what the first has written. -/
theorem writeRest_again {v : UInt8} {fuel bufIndex : Nat} (L : Layout fs) (hfree : findFreeFat fs img = some g)
    (hbuf : ∀ k, bufIndex + fs.sectorSize ≤ k → buf k = v) (h : bufIndex + fs.sectorSize < size) (hfuel : 1 < fuel) :
    (writeRest fs buf size fuel img bufIndex).2.1 (sectorAt fs g) = v := by
  obtain ⟨fuel, rfl⟩ : ∃ n, fuel = n + 1 := ⟨fuel - 1, by omega⟩
  have hch := changes_chunk img size bufIndex (fun k => buf (bufIndex + k)) (findFreeFat_some hfree).1
  have hfree' := (findFreeFat_congr fun x hx => hch.fat_eq L hx (by simp)).trans hfree
  have hchunk : chunk fs size bufIndex = fs.sectorSize := if_neg (Nat.not_le_of_lt h)
  rw [writeRest_step hfree (by omega)]
  rw [hchunk] at hfree' ⊢
  exact writeRest_first L hfree' hbuf h (by omega)

/-- The loop reads the rest of the buffer only. -/
theorem writeRest_congr {buf' : Bytes} {fuel bufIndex : Nat} (hbuf : ∀ k, bufIndex ≤ k → buf' k = buf k) :
    writeRest fs buf' size fuel img bufIndex = writeRest fs buf size fuel img bufIndex := by
  induction fuel generalizing img bufIndex with
  | zero => rfl
  | succ fuel ih =>
    have hsrc : (fun k => buf' (bufIndex + k)) = fun k => buf (bufIndex + k) := funext fun k => hbuf _ (by omega)
    simp only [writeRest, hsrc]
    split
    · split
      · rfl
      · exact ih fun k hk => hbuf k (by omega)
    · rfl

/-- The loop writes over the first byte of the sector that takes the rest. -/
theorem writeRest_forget {fuel bufIndex : Nat} (L : Layout fs) (hfree : findFreeFat fs img = some g)
    (hfree' : findFreeFat fs img' = some g) (h : bufIndex < size) (hfuel : 0 < fuel)
    (himg : ∀ a, a ≠ sectorAt fs g → img' a = img a) :
    writeRest fs buf size fuel img' bufIndex = writeRest fs buf size fuel img bufIndex := by
  have hs := L.sectorSize
  obtain ⟨fuel, rfl⟩ : ∃ n, fuel = n + 1 := ⟨fuel - 1, by omega⟩
  have hchunk : 1 ≤ chunk fs size bufIndex := chunk_pos (by omega) h
  rw [writeRest_step hfree h, writeRest_step hfree' h]
  congr 1
  funext a
  by_cases hin : sectorAt fs g ≤ a ∧ a < sectorAt fs g + chunk fs size bufIndex
  · rw [copy_in hin.1 hin.2, copy_in hin.1 hin.2]
  · rw [copy_out (by omega), copy_out (by omega)]
    exact himg a (by omega)

/-- What the loop changes, when its result is known. -/
theorem changes_writeRest {bufIndex : Nat} (L : Layout fs) (hfree : findFreeFat fs img = some g) (h : bufIndex ≤ size)
    (hr : writeRest fs buf size size img bufIndex = (true, img', size)) : ChangesOnly fs [] [] [g] img img' := by
  obtain ⟨img'', hr', hch⟩ := writeRest_some buf size size bufIndex L hfree h (by omega)
  rw [hr] at hr'
  rwa [(Prod.mk.inj (Prod.mk.inj hr').2).1]

/-- A first write across sectors does not depend on the first byte of the buffer. -/
theorem tagfsWrite_forgets (L : Layout fs) (hfs : fsMeta img = fs) (hname : Named fs img name i) (hi : i < countFileMetaEntries fs)
    (hfirst : firstDataSector img (fileMetaAt fs i) = 0xffff) (hempty : fileSize img (fileMetaAt fs i) = 0)
    (hfree : findFreeFat fs img = some g) (hmany : fs.sectorSize < size) (c c' : UInt8) :
    ∃ img', tagfsWrite img name (fun k => if k = 0 then c else 0) size offset = (toInt size, img') ∧
      tagfsWrite img name (fun k => if k = 0 then c' else 0) size offset = (toInt size, img') := by
  have hs := L.sectorSize
  have hid := hname.fileId L
  have hsector : ∀ buf : Bytes, findFreeFat fs (copy (setFirstDataSector img (fileMetaAt fs i) g) (sectorAt fs g)
      fs.sectorSize buf) = some g := fun buf => by
    have hch : ChangesOnly fs [i] [] [g] img
        (copy (setFirstDataSector img (fileMetaAt fs i) g) (sectorAt fs g) fs.sectorSize buf) :=
      (changes_setFirstDataSector hi).trans (changes_sector (o := 0) (findFreeFat_some hfree).1 (by omega))
    exact (findFreeFat_congr fun x hx => hch.fat_eq L hx (by simp)).trans hfree
  obtain ⟨img₀, hrest₀, hr₀⟩ := @tagfsWrite_freshAcross fs img (fun k => if k = 0 then c else 0) name i g size offset hfs hid L
    hi hfirst hempty hfree hmany
  obtain ⟨img₁, hrest₁, hr₁⟩ := @tagfsWrite_freshAcross fs img (fun k => if k = 0 then c' else 0) name i g size offset hfs hid L
    hi hfirst hempty hfree hmany
  rw [@writeRest_congr fs _ (fun k => if k = 0 then c else 0) size (fun k => if k = 0 then c' else 0) size fs.sectorSize
      (fun k hk => by rw [if_neg (by omega), if_neg (by omega)]),
    @writeRest_forget fs _ _ _ g size size fs.sectorSize L (hsector fun k => if k = 0 then c else 0) (hsector _) hmany
      (by omega) fun a ha => ?_, hrest₀] at hrest₁
  · rw [(Prod.mk.inj (Prod.mk.inj hrest₁).2).1] at hr₀
    exact ⟨_, hr₀, hr₁⟩
  · by_cases hin : sectorAt fs g ≤ a ∧ a < sectorAt fs g + fs.sectorSize
    · rw [copy_in hin.1 hin.2, copy_in hin.1 hin.2]
      rw [if_neg (by omega), if_neg (by omega)]
    · rw [copy_out (by omega), copy_out (by omega)]

/-! ## The sector after the last -/

/-- The products of a number with 2¹⁶ − 1 and with less are different modulo 2³², where the next one does not wrap. -/
theorem mul_last_ne {S g : Nat} (hS : 0 < S) (h : S * (g + 1) < 2 ^ 32) (hg : g < 0xffff) :
    S * 0xffff % 2 ^ 32 ≠ S * g := by
  intro heq
  obtain ⟨m, hm⟩ : ∃ m, 2 ^ 32 * m + S * (g + 1) = S * 2 ^ 16 :=
    ⟨S * 0xffff / 2 ^ 32, by have := Nat.div_add_mod (S * 0xffff) (2 ^ 32); rw [Nat.mul_add]; omega⟩
  obtain ⟨a, s, hodd, rfl⟩ := Nat.exists_eq_two_pow_mul_odd (Nat.ne_of_gt hS)
  rcases Nat.lt_or_ge a 16 with ha | ha
  · have hdvd : 2 ^ 16 ∣ s * (g + 1) := by
      have hpow : (2 : Nat) ^ 32 = 2 ^ a * (2 ^ 16 * 2 ^ (16 - a)) := by
        rw [← Nat.pow_add, ← Nat.pow_add]
        congr 1
        omega
      have hcancel : 2 ^ 16 * (2 ^ (16 - a) * m) + s * (g + 1) = 2 ^ 16 * s := by
        apply Nat.eq_of_mul_eq_mul_left (Nat.two_pow_pos a)
        rw [hpow] at hm
        calc 2 ^ a * (2 ^ 16 * (2 ^ (16 - a) * m) + s * (g + 1))
            = 2 ^ a * (2 ^ 16 * 2 ^ (16 - a)) * m + 2 ^ a * s * (g + 1) := by ring
          _ = 2 ^ a * (2 ^ 16 * s) := by rw [hm]; ring
      exact (Nat.dvd_add_right (Nat.dvd_mul_right _ _)).mp (hcancel ▸ Nat.dvd_mul_right _ _)
    have hcop : Nat.Coprime (2 ^ 16) s := (Nat.coprime_two_left.mpr hodd).pow_left 16
    have hle := Nat.le_of_dvd (Nat.succ_pos g) (hcop.dvd_of_dvd_mul_left hdvd)
    omega
  · obtain ⟨b, rfl⟩ := Nat.exists_eq_add_of_le ha
    have hdvd : 2 ^ 32 ∣ 2 ^ (16 + b) * s * (g + 1) := by
      apply (Nat.dvd_add_right (Nat.dvd_mul_right (2 ^ 32) m)).mp
      rw [hm]
      exact ⟨2 ^ b * s, by rw [Nat.pow_add]; ring⟩
    exact absurd h (Nat.not_lt.mpr (Nat.le_of_dvd (Nat.mul_pos hS (Nat.succ_pos g)) hdvd))

/-- Where the marker would lead is not the start of a sector. -/
theorem sectorAt_end_ne (L : Layout fs) (hg : g < fatCount fs) : sectorAt fs 0xffff ≠ sectorAt fs g := by
  have hs := L.sectorSize; have hdata := L.data; have hcount := L.fatCount_le
  have hmul : fs.sectorSize * (g + 1) ≤ fs.sectorSize * fatCount fs := Nat.mul_le_mul_left _ hg
  have hne := @mul_last_ne fs.sectorSize g (by omega) (by omega) (by omega)
  rw [L.sectorAt_eq hg]
  unfold sectorAt
  omega

/-- What follows a sector of a chain is at the start of no other sector. -/
theorem sectorAt_next_ne (L : Layout fs) (hchain : FatChain fs img g l) (hq : q < l.length) (hx : x < fatCount fs)
    (hne : fat fs img (l.getD q 0) ≠ x) : sectorAt fs (fat fs img (l.getD q 0)) ≠ sectorAt fs x := by
  have hs := L.sectorSize
  rcases hchain.next L hq with ⟨hlt, hnext⟩ | ⟨-, hend⟩
  · rw [← hnext] at hne ⊢
    intro heq
    exact hne (L.sector_apart (a := sectorAt fs x) (hchain.getD_lt hlt) hx ⟨by omega, by omega⟩ ⟨by omega, by omega⟩)
  · rw [hend]
    exact sectorAt_end_ne L hx

/-- A byte at the start of a sector. -/
theorem byteAt_start (hs : 0 < fs.sectorSize) : byteAt fs img l (fs.sectorSize * q) = img (sectorAt fs (l.getD q 0)) := by
  unfold byteAt
  rw [Nat.mul_div_cancel_left _ hs, Nat.mul_mod_right, Nat.add_zero]

/-- Each sector of a file holds some of its bytes. -/
theorem ChainsFit.start_lt (h : ChainsFit fs img chain) (L : Layout fs) (hi : Used fs img i) (hq : q < (chain i).length) :
    fs.sectorSize * q < fileSize img (fileMetaAt fs i) := by
  have hs := L.sectorSize
  have hold := Nat.div_add_mod (fileSize img (fileMetaAt fs i)) fs.sectorSize
  rw [h.length_mod L hi] at hq
  split at hq
  · have hmul : fs.sectorSize * (q + 1) ≤ fs.sectorSize * (fileSize img (fileMetaAt fs i) / fs.sectorSize) :=
      Nat.mul_le_mul_left _ (by omega)
    rw [Nat.mul_add, Nat.mul_one] at hmul
    omega
  · have hmul : fs.sectorSize * q ≤ fs.sectorSize * (fileSize img (fileMetaAt fs i) / fs.sectorSize) :=
      Nat.mul_le_mul_left _ (by omega)
    omega

/-- A write in a file, of a buffer that is `v` but for one byte, that leaves a byte as it is. -/
theorem tagfsWrite_keeps {v : UInt8} {a : Nat} (L : Layout fs) (hfs : fsMeta img = fs) (hname : Named fs img name i)
    (hchain : FatChain fs img (firstDataSector img (fileMetaAt fs i)) l) (hne : l ≠ [])
    (hq : writeStart img (fileMetaAt fs i) offset / fs.sectorSize < l.length)
    (hroom : (size ≤ fs.sectorSize - writeStart img (fileMetaAt fs i) offset % fs.sectorSize ∧
        fat fs img (l.getD (writeStart img (fileMetaAt fs i) offset / fs.sectorSize) 0) ≠ 0) ∨
      (fs.sectorSize - writeStart img (fileMetaAt fs i) offset % fs.sectorSize < size ∧ findFreeFat fs img ≠ none))
    (hv : img a = v) (hbuf : ∀ k, k ≠ 0 → k ≠ fs.sectorSize - writeStart img (fileMetaAt fs i) offset % fs.sectorSize →
      buf k = v)
    (hstart : buf 0 = v ∨ a ≠ sectorAt fs (l.getD (writeStart img (fileMetaAt fs i) offset / fs.sectorSize) 0) +
      writeStart img (fileMetaAt fs i) offset % fs.sectorSize)
    (hrest : buf (fs.sectorSize - writeStart img (fileMetaAt fs i) offset % fs.sectorSize) = v ∨
      ∀ g, findFreeFat fs img = some g → a ≠ sectorAt fs g) :
    ∃ D sectors, tagfsWrite img name buf size offset = (toInt size, growFile D (fileMetaAt fs i) (offset + size)) ∧
      ChangesOnly fs [] [] sectors img D ∧ D a = v := by
  have hs := L.sectorSize
  have hid := hname.fileId L
  have hfirst := hchain.ne_end L hne
  have hskip := skipSectors_getD L hchain hq
  have hx := hchain.getD_lt hq
  generalize hst : writeStart img (fileMetaAt fs i) offset = start at *
  generalize l.getD (start / fs.sectorSize) 0 = x at *
  have hmod : start % fs.sectorSize < fs.sectorSize := Nat.mod_lt _ (by omega)
  have hcopy : ∀ n ≤ fs.sectorSize - start % fs.sectorSize,
      copy img (sectorAt fs x + start % fs.sectorSize) n buf a = v := fun n hn => by
    by_cases hin : sectorAt fs x + start % fs.sectorSize ≤ a ∧ a < sectorAt fs x + start % fs.sectorSize + n
    · rw [copy_in hin.1 hin.2]
      rcases Nat.eq_or_lt_of_le hin.1 with heq | hlt
      · rw [← heq, Nat.sub_self]
        exact hstart.resolve_right fun hne => hne heq.symm
      · exact hbuf _ (by omega) (by omega)
    · rw [copy_out (by omega)]
      exact hv
  rcases hroom with ⟨hone, hmarked⟩ | ⟨hmany, hfree⟩
  · refine ⟨copy img (sectorAt fs x + start % fs.sectorSize) size buf, [x], ?_, changes_sector hx (by omega), hcopy _ hone⟩
    rw [← hst]
    exact tagfsWrite_within hfs hid hfirst (hst ▸ hskip) L hx hmarked (hst ▸ hone)
  · obtain ⟨g, hfree⟩ := Option.ne_none_iff_exists'.mp hfree
    obtain ⟨D, hr, hwrite⟩ := @tagfsWrite_across fs img buf name i g x size offset hfs hid hfirst (hst ▸ hskip) L hx hfree
      (by rwa [hst])
    rw [hst] at hr
    have hch : ChangesOnly fs [] [] [x] img
        (copy img (sectorAt fs x + start % fs.sectorSize) (fs.sectorSize - start % fs.sectorSize) buf) :=
      changes_sector hx (by omega)
    have hfree' := (findFreeFat_congr fun y hy => hch.fat_eq L hy (by simp)).trans hfree
    have hother := @writeRest_other fs _ buf g size v a size (fs.sectorSize - start % fs.sectorSize) L hfree'
      (fun k hk => hbuf k (by omega) (by omega)) (hrest.symm.imp_left fun h => h g hfree)
    rw [hr, hcopy _ (Nat.le_refl _), or_self] at hother
    exact ⟨D, _, hwrite, hch.trans (changes_writeRest L hfree' (by omega) hr), hother⟩

/-! ## Writes that are not lawful -/

section

variable (L : Layout fs) (hfs : fsMeta img = fs) (hname : Named fs img name i) (hlen : name.strlen < 24)
  (hlaw : WriteReadLaw fs img i name l size offset) (hpos : 0 < size) (hint : size < 2 ^ 31)

include L hfs hname hlen hlaw hpos hint

/-- What the law says of a write whose image is known. -/
theorem WriteReadLaw.bytes {fats sectors : List Nat} (hr : tagfsWrite img name buf size offset = (toInt size, img'))
    (hch : ChangesOnly fs [i] fats sectors img img') (hsame : SameName fs i img img') :
    ∃ x, skipSectors fs img' (offset / fs.sectorSize) (firstDataSector img' (fileMetaAt fs i)) = some x ∧
      img' (sectorAt fs x + offset % fs.sectorSize) = buf 0 ∧
      (fs.sectorSize - offset % fs.sectorSize < size →
        img' (sectorAt fs (fat fs img' x)) = buf (fs.sectorSize - offset % fs.sectorSize)) := by
  rw [toInt_eq hint] at hr
  exact (hlaw buf size img' hr).bytes L ((hch.fsMeta_eq L).trans hfs) (hname.change L hch (by simp) hsame hlen) hpos

/-- The same, for a write that changes data and the size of a file in the sectors `l'`. -/
theorem WriteReadLaw.data {D : Bytes} {l' sectors : List Nat} (hi : i < countFileMetaEntries fs)
    (hchain : FatChain fs img (firstDataSector img (fileMetaAt fs i)) l') (hne : l' ≠ [])
    (hr : tagfsWrite img name buf size offset = (toInt size, growFile D (fileMetaAt fs i) (offset + size)))
    (hD : ChangesOnly fs [] [] sectors img D) : offset / fs.sectorSize < l'.length ∧
      D (sectorAt fs (l'.getD (offset / fs.sectorSize) 0) + offset % fs.sectorSize) = buf 0 ∧
      (fs.sectorSize - offset % fs.sectorSize < size →
        D (sectorAt fs (fat fs img (l'.getD (offset / fs.sectorSize) 0))) =
          buf (fs.sectorSize - offset % fs.sectorSize)) := by
  have hch : ChangesOnly fs [i] [] sectors img (growFile D (fileMetaAt fs i) (offset + size)) := changes_grow hD hi
  have hchain' := @FatChain.grow fs img l' i sectors D (offset + size) hD hi L hchain
  have hout : ∀ {y k}, growFile D (fileMetaAt fs i) (offset + size) (sectorAt fs y + k) = D (sectorAt fs y + k) :=
    fun {y k} => by
      have hge := Layout.getData_le fs y
      have hfiles := L.files; have htags := L.tags; have hlinks := L.links; have hfats := L.fats
      exact growFile_out (.inr (by rw [Layout.fileMetaAt_eq]; omega))
  obtain ⟨x, hskip, hfirst, hnext⟩ := hlaw.bytes L hfs hname hlen hpos hint hr hch (.grow hD hi L)
  have hlt : offset / fs.sectorSize < l'.length := by
    by_contra hge
    rw [skipSectors_of_le hchain' hne (by omega)] at hskip
    cases hskip
  obtain rfl := Option.some.inj (hskip.symm.trans (skipSectors_getD L hchain' hlt))
  rw [hout] at hfirst
  rw [hch.fat_eq L (hchain.getD_lt hlt) (by simp)] at hnext
  have hstart := @hout (fat fs img (l'.getD (offset / fs.sectorSize) 0)) 0
  rw [Nat.add_zero] at hstart
  exact ⟨hlt, hfirst, fun h => hstart.symm.trans (hnext h)⟩

section

variable (hfirst : firstDataSector img (fileMetaAt fs i) = 0xffff) (hempty : fileSize img (fileMetaAt fs i) = 0)
  (hfree : findFreeFat fs img = some g)

include hfirst hempty hfree

omit hlen in
/-- The first write to a file: in one sector. -/
theorem fresh_one_of_law (hi : i < countFileMetaEntries fs) : size ≤ fs.sectorSize := by
  by_contra hmany
  obtain ⟨img', hr₀, hr₁⟩ := @tagfsWrite_forgets fs img name g i size offset L hfs hname hi hfirst hempty hfree (by omega) 0 1
  rw [toInt_eq hint] at hr₀ hr₁
  obtain ⟨out₀, hread₀, hbytes₀⟩ := (hlaw _ size img' hr₀).read fun _ => 0
  obtain ⟨out₁, hread₁, hbytes₁⟩ := (hlaw _ size img' hr₁).read fun _ => 0
  obtain ⟨-, rfl⟩ := Prod.mk.inj (hread₀.symm.trans hread₁)
  exact absurd ((hbytes₀ 0 hpos).symm.trans (hbytes₁ 0 hpos)) (by decide)

/-- The first write begins at the start of the sector, and is read there only from the start of the file. -/
theorem fresh_start_of_law (hend : offset + size < 2 ^ 32) (hone : size ≤ fs.sectorSize) : offset = 0 := by
  by_contra hoff
  have hs := L.sectorSize
  obtain ⟨c, hc⟩ := exists_byte_ne (img (sectorAt fs g + offset % fs.sectorSize))
  obtain ⟨img', hr, h⟩ := @tagfsWrite_first fs img name g i size offset
    (fun k => if k = 0 then c else img (sectorAt fs g + offset % fs.sectorSize)) L hfs hname hfirst hempty hfree hone hend
  obtain ⟨x, hskip, hbyte, -⟩ := hlaw.bytes L hfs hname hlen hpos hint hr h.changes h.sameName
  have hlt : offset / fs.sectorSize = 0 := by
    by_contra hge
    rw [skipSectors_of_le h.isChain (by simp) (Nat.pos_of_ne_zero hge)] at hskip
    cases hskip
  rw [hlt, h.first] at hskip
  obtain rfl : g = x := Option.some.inj hskip
  have hmod : offset % fs.sectorSize = offset := Nat.mod_eq_of_lt ((Nat.div_eq_zero_iff_lt (by omega)).mp hlt)
  have hlt' : offset % fs.sectorSize < fs.sectorSize := Nat.mod_lt _ (by omega)
  have hleft : img' (sectorAt fs g + offset % fs.sectorSize) = img (sectorAt fs g + offset % fs.sectorSize) := by
    rcases Nat.lt_or_ge (offset % fs.sectorSize) size with hlow | hhigh
    · rw [h.written _ hlow]
      exact if_neg (by omega)
    · exact h.left _ hhigh hlt'
  rw [hleft, if_pos rfl] at hbyte
  exact hc hbyte.symm

end

omit hint hlen in
/-- The first write goes to a sector that no other file has. -/
theorem fresh_unlinked_of_law (hchains : ChainsFit fs img chain) (hl : chain i = []) (hend : offset + size < 2 ^ 32)
    (hfirst : firstDataSector img (fileMetaAt fs i) = 0xffff) (hempty : fileSize img (fileMetaAt fs i) = 0)
    (hfree : findFreeFat fs img = some g) (hone : size ≤ fs.sectorSize) {j : Nat} (hj : Used fs img j) : g ∉ chain j := by
  intro hg
  have hs := L.sectorSize
  have hji : j ≠ i := fun hji => by
    rw [hji, hl] at hg
    cases hg
  obtain ⟨q, hq, hgq⟩ := List.mem_iff_getElem.mp hg
  have hgq' : (chain j).getD q 0 = g := (List.getD_eq_getElem _ _ hq).trans hgq
  have hchain := hchains.isChain j hj
  have hstart := hchains.start_lt L hj hq
  have hlt := L.sectorSize_lt (findFreeFat_some hfree).1
  -- The first byte of that sector of the other file.
  obtain ⟨c, hc⟩ := exists_byte_ne (img (sectorAt fs g))
  obtain ⟨img', hr, h⟩ := tagfsWrite_first (fun _ => c) L hfs hname hfirst hempty hfree hone hend
  rw [toInt_eq (by omega)] at hr
  obtain ⟨-, hkept⟩ := (hlaw _ _ _ hr).others j hj hji
  have hbyte := hkept (fs.sectorSize * q) hstart
  have hcut : FatChain fs img' (firstDataSector img' (fileMetaAt fs j)) ((chain j).take (q + 1)) := by
    rw [h.changes.firstDataSector_eq L hj.1 (by simpa using hji)]
    exact hchain.cut L hq (fun y hy hne => h.changes.fat_eq L (hchain.2 y hy) fun hm =>
      hne (hgq' ▸ List.mem_singleton.mp hm))
      (hgq' ▸ h.marked)
  have hlen : ((chain j).take (q + 1)).length = q + 1 := by
    rw [List.length_take]
    omega
  have hwritten := h.written 0 hpos
  rw [Nat.add_zero] at hwritten
  have hlong := hchains.long L hj
  rw [fileByte_eq L hcut (by rw [hlen, Nat.mul_add]; omega), fileByte_eq L hchain (by omega), byteAt_start (by omega),
    byteAt_start (by omega), hgq', List.getD_eq_getElem _ _ (by omega), List.getElem_take, hgq, hwritten] at hbyte
  exact hc (Option.some.inj hbyte)

section

variable (hchain : FatChain fs img (firstDataSector img (fileMetaAt fs i)) l) (hne : l ≠ [])
  (hi : i < countFileMetaEntries fs)

include hchain hne hi

omit hlen hpos in
/-- A write in one sector cuts a chain that goes on from there to the sector 0. -/
theorem marked_of_law (hoff : offset < fileSize img (fileMetaAt fs i))
    (hlong : fileSize img (fileMetaAt fs i) ≤ fs.sectorSize * l.length)
    (hstart : ∀ q < l.length, fs.sectorSize * q < fileSize img (fileMetaAt fs i))
    (hone : size ≤ fs.sectorSize - offset % fs.sectorSize) : fat fs img (l.getD (offset / fs.sectorSize) 0) ≠ 0 := by
  intro h0
  have hs := L.sectorSize
  have hst : writeStart img (fileMetaAt fs i) offset = offset := if_pos hoff
  have hmod : offset % fs.sectorSize < fs.sectorSize := Nat.mod_lt _ (by omega)
  have hdiv := Nat.div_add_mod offset fs.sectorSize
  have hq : offset / fs.sectorSize < l.length := Nat.div_lt_of_lt_mul (by omega)
  have hskip := skipSectors_getD L hchain hq
  have hx := hchain.getD_lt hq
  obtain ⟨hnext, -⟩ := (hchain.next L hq).resolve_right fun h => by
    rw [h0] at h
    exact absurd h.2 (by decide)
  have hr := @tagfsWrite_unmarked fs img (fun _ => 0) name i _ size offset hfs (hname.fileId L) (hchain.ne_end L hne)
    (by rwa [hst]) L hx h0 (by rwa [hst])
  rw [hst, toInt_eq hint] at hr
  have hlawful := hlaw _ _ _ hr
  have hsector : ChangesOnly fs [] [] [l.getD (offset / fs.sectorSize) 0] img
      (copy img (sectorAt fs (l.getD (offset / fs.sectorSize) 0) + offset % fs.sectorSize) size fun _ => 0) :=
    changes_sector hx (by omega)
  generalize copy img (sectorAt fs (l.getD (offset / fs.sectorSize) 0) + offset % fs.sectorSize) size (fun _ => 0) = A
    at hsector hlawful
  have hmark : ChangesOnly fs [] [l.getD (offset / fs.sectorSize) 0] [] A
      (setFat fs A (l.getD (offset / fs.sectorSize) 0) 0xffff) := changes_setFat hx
  have hmark_eq : fat fs (setFat fs A (l.getD (offset / fs.sectorSize) 0) 0xffff) (l.getD (offset / fs.sectorSize) 0) =
      0xffff := fat_setFat_self (by decide)
  have hfirst : firstDataSector (setFat fs A (l.getD (offset / fs.sectorSize) 0) 0xffff) (fileMetaAt fs i) =
      firstDataSector img (fileMetaAt fs i) := (hsector.trans hmark).firstDataSector_eq L hi (by simp)
  generalize setFat fs A (l.getD (offset / fs.sectorSize) 0) 0xffff = B at hmark hmark_eq hfirst hlawful
  have hgrow : ChangesOnly fs [i] [] [] B (growFile B (fileMetaAt fs i) (offset + size)) := changes_growFile hi
  have hch := hsector.trans (hmark.trans hgrow)
  have hcut : FatChain fs (growFile B (fileMetaAt fs i) (offset + size))
      (firstDataSector (growFile B (fileMetaAt fs i) (offset + size)) (fileMetaAt fs i))
      (l.take (offset / fs.sectorSize + 1)) := by
    rw [firstDataSector_growFile, hfirst]
    exact hchain.cut L hq (fun y hy hyx => hch.fat_eq L (hchain.2 y hy) (by simpa using hyx))
      ((hgrow.fat_eq L hx (by simp)).trans hmark_eq)
  -- The first byte of the next sector.
  have hbyte := hlawful.kept (fs.sectorSize * (offset / fs.sectorSize + 1)) (hstart _ hnext)
    (.inr (by rw [Nat.mul_add, Nat.mul_one]; omega))
  have hlost : skipSectors fs (growFile B (fileMetaAt fs i) (offset + size)) (offset / fs.sectorSize + 1)
      (firstDataSector (growFile B (fileMetaAt fs i) (offset + size)) (fileMetaAt fs i)) = none := by
    have hlen : (l.take (offset / fs.sectorSize + 1)).length = offset / fs.sectorSize + 1 := List.length_take_of_le hq
    exact skipSectors_of_le hcut (List.ne_nil_of_length_pos (by rw [hlen]; exact Nat.succ_pos _)) (Nat.le_of_eq hlen)
  rw [fileByte_eq L hchain (Nat.lt_of_lt_of_le (hstart _ hnext) hlong), fileByte, Nat.mul_div_cancel_left _ (by omega),
    hlost, Option.map_none] at hbyte
  cases hbyte

/-- A write that goes on after its first sector puts the rest in the first free
sector, where a read finds it if that is the next of the file, and the last
chunk only. -/
theorem across_of_law (hst : writeStart img (fileMetaAt fs i) offset = offset) (hq : offset / fs.sectorSize < l.length)
    (hfree : findFreeFat fs img = some g) (hmany : fs.sectorSize - offset % fs.sectorSize < size) :
    fat fs img (l.getD (offset / fs.sectorSize) 0) = g ∧ size ≤ 2 * fs.sectorSize - offset % fs.sectorSize := by
  have hs := L.sectorSize
  have hmod : offset % fs.sectorSize < fs.sectorSize := Nat.mod_lt _ (by omega)
  obtain ⟨hg, -⟩ := findFreeFat_some hfree
  have hnext_eq : fat fs img (l.getD (offset / fs.sectorSize) 0) = g := by
    by_contra hother
    -- The byte after the first sector, to the reader.
    obtain ⟨c, hc⟩ := exists_byte_ne (img (sectorAt fs (fat fs img (l.getD (offset / fs.sectorSize) 0))))
    obtain ⟨D, sectors, hr, hD, hkeep⟩ := @tagfsWrite_keeps fs img
      (fun k => if k = fs.sectorSize - offset % fs.sectorSize then c
        else img (sectorAt fs (fat fs img (l.getD (offset / fs.sectorSize) 0)))) name l i size offset _
      (sectorAt fs (fat fs img (l.getD (offset / fs.sectorSize) 0))) L hfs hname hchain hne (by rwa [hst])
      (.inr ⟨by rwa [hst], by simp [hfree]⟩) rfl (fun k _ hk => if_neg (hst ▸ hk)) (.inl (if_neg (by omega)))
      (.inr fun g' hfree' => Option.some.inj (hfree.symm.trans hfree') ▸ sectorAt_next_ne L hchain hq hg hother)
    obtain ⟨-, -, hnext⟩ := hlaw.data L hfs hname hlen hpos hint hi hchain hne hr hD
    have hbyte := hnext hmany
    rw [if_pos rfl, hkeep] at hbyte
    exact hc hbyte.symm
  refine ⟨hnext_eq, ?_⟩
  by_contra htwo
  have hskip := skipSectors_getD L hchain hq
  have hx := hchain.getD_lt hq
  have hsector : ChangesOnly fs [] [] [l.getD (offset / fs.sectorSize) 0] img
      (copy img (sectorAt fs (l.getD (offset / fs.sectorSize) 0) + offset % fs.sectorSize) (fs.sectorSize - offset % fs.sectorSize)
        fun k => if k = fs.sectorSize - offset % fs.sectorSize then 1 else 0) := changes_sector hx (by omega)
  have hfree' := (findFreeFat_congr fun y hy => hsector.fat_eq L hy (by simp)).trans hfree
  obtain ⟨D, hrest, hr⟩ := @tagfsWrite_across fs img (fun k => if k = fs.sectorSize - offset % fs.sectorSize then 1 else 0)
    name i g _ size offset hfs (hname.fileId L) (hchain.ne_end L hne) (by rwa [hst]) L hx hfree (by rwa [hst])
  rw [hst] at hrest
  have hlost := @writeRest_again fs _ (fun k => if k = fs.sectorSize - offset % fs.sectorSize then 1 else 0) g size 0 size
    (fs.sectorSize - offset % fs.sectorSize) L hfree' (fun k hk => if_neg (by omega)) (by omega) (by omega)
  rw [hrest] at hlost
  obtain ⟨-, -, hnext⟩ := hlaw.data L hfs hname hlen hpos hint hi hchain hne hr
    (hsector.trans (changes_writeRest L hfree' (by omega) hrest))
  have hbyte := hnext hmany
  rw [hnext_eq, if_pos rfl] at hbyte
  exact absurd (hlost.symm.trans hbyte) (by decide)

/-- A write that begins after the end of the file puts its bytes at the end. -/
theorem not_after_of_law (hq : fileSize img (fileMetaAt fs i) / fs.sectorSize < l.length)
    (hlast : l.length ≤ fileSize img (fileMetaAt fs i) / fs.sectorSize + 1)
    (hmarked : fat fs img (l.getD (fileSize img (fileMetaAt fs i) / fs.sectorSize) 0) ≠ 0)
    (hroom : size ≤ fs.sectorSize - fileSize img (fileMetaAt fs i) % fs.sectorSize ∨ findFreeFat fs img ≠ none) :
    offset ≤ fileSize img (fileMetaAt fs i) := by
  have hs := L.sectorSize
  have hmod : fileSize img (fileMetaAt fs i) % fs.sectorSize < fs.sectorSize := Nat.mod_lt _ (by omega)
  by_contra hafter
  have hst : writeStart img (fileMetaAt fs i) offset = fileSize img (fileMetaAt fs i) := if_neg (by omega)
  obtain ⟨c, hc⟩ := exists_byte_ne
    (img (sectorAt fs (l.getD (offset / fs.sectorSize) 0) + offset % fs.sectorSize))
  have hroom' : (size ≤ fs.sectorSize - fileSize img (fileMetaAt fs i) % fs.sectorSize ∧
        fat fs img (l.getD (fileSize img (fileMetaAt fs i) / fs.sectorSize) 0) ≠ 0) ∨
      (fs.sectorSize - fileSize img (fileMetaAt fs i) % fs.sectorSize < size ∧ findFreeFat fs img ≠ none) := by
    rcases Nat.lt_or_ge (fs.sectorSize - fileSize img (fileMetaAt fs i) % fs.sectorSize) size with hmany | hone
    · exact .inr ⟨hmany, hroom.resolve_left (Nat.not_le_of_lt hmany)⟩
    · exact .inl ⟨hone, hmarked⟩
  have hsame : offset / fs.sectorSize < l.length →
      offset / fs.sectorSize = fileSize img (fileMetaAt fs i) / fs.sectorSize := fun hlt =>
    Nat.le_antisymm (by omega) (Nat.div_le_div_right (by omega))
  have hold := Nat.div_add_mod (fileSize img (fileMetaAt fs i)) fs.sectorSize
  have hnew := Nat.div_add_mod offset fs.sectorSize
  by_cases hlt : offset / fs.sectorSize < l.length
  · obtain ⟨D, sectors, hr, hD, hkeep⟩ := @tagfsWrite_keeps fs img
      (fun k => if k = 0 then c else img (sectorAt fs (l.getD (offset / fs.sectorSize) 0) + offset % fs.sectorSize))
      name l i size offset _ (sectorAt fs (l.getD (offset / fs.sectorSize) 0) + offset % fs.sectorSize) L hfs hname
      hchain hne (by rwa [hst]) (by rwa [hst]) rfl (fun k hk _ => if_neg hk)
      (.inr (by rw [hst, ← hsame hlt] at *; omega)) (.inl (if_neg (by rw [hst]; omega)))
    obtain ⟨-, hbyte, -⟩ := hlaw.data L hfs hname hlen hpos hint hi hchain hne hr hD
    rw [if_pos rfl, hkeep] at hbyte
    exact hc hbyte.symm
  · obtain ⟨D, sectors, hr, hD, -⟩ := @tagfsWrite_keeps fs img (fun _ => img 0) name l i size offset _ 0 L hfs hname
      hchain hne (by rwa [hst]) (by rwa [hst]) rfl (fun _ _ _ => rfl) (.inl rfl) (.inl rfl)
    exact hlt (hlaw.data L hfs hname hlen hpos hint hi hchain hne hr hD).1

end

end

/-- A write that stops at the end of its first sector is that of fewer bytes, in the file. -/
theorem full_of_law (L : Layout fs) (hfs : fsMeta img = fs) (hname : Named fs img name i)
    (hlaw : WriteReadLaw fs img i name l size offset)
    (hchain : FatChain fs img (firstDataSector img (fileMetaAt fs i)) l) (hne : l ≠ []) (hi : i < countFileMetaEntries fs)
    (hlong : fileSize img (fileMetaAt fs i) ≤ fs.sectorSize * l.length)
    (hq : writeStart img (fileMetaAt fs i) offset / fs.sectorSize < l.length)
    (hfree : findFreeFat fs img = none)
    (hmany : fs.sectorSize - writeStart img (fileMetaAt fs i) offset % fs.sectorSize < size) :
    offset + (fs.sectorSize - writeStart img (fileMetaAt fs i) offset % fs.sectorSize) ≤ fileSize img (fileMetaAt fs i) ∧
      fs.sectorSize * l.length < offset + size := by
  have hs := L.sectorSize
  have hmod : writeStart img (fileMetaAt fs i) offset % fs.sectorSize < fs.sectorSize := Nat.mod_lt _ (by omega)
  have hx := hchain.getD_lt hq
  have hlt := L.sectorSize_lt hx
  have hr := @tagfsWrite_full fs img (fun _ => 0) name i _ size offset hfs (hname.fileId L) (hchain.ne_end L hne)
    (skipSectors_getD L hchain hq) L hx hfree hmany
  rw [toInt_eq (by omega)] at hr
  have hlawful := hlaw _ _ _ hr
  have hsize := hlawful.size (by omega)
  rw [(changes_sector hx (by omega)).fileSize_eq L hi (by simp)] at hsize
  refine ⟨by omega, ?_⟩
  by_contra hroom
  exact absurd (hlawful.all ((roomFor_iff L hfree).mpr (Nat.max_le.mpr ⟨hlong, Nat.le_of_not_lt hroom⟩)))
    (Nat.ne_of_lt hmany)

/-! ## The law of the driver -/

section

variable (L : Layout fs) (hfs : fsMeta img = fs) (hchains : ChainsFit fs img chain) (hi : Used fs img i)
  (hname : Named fs img name i) (hlen : name.strlen < 24) (hpos : 0 < size) (hend : offset + size < 2 ^ 32)

include L hfs hchains hi hname hlen hpos hend

theorem firstBack_of_law (hne : chain i = []) (hlaw : WriteReadLaw fs img i name (chain i) size offset) :
    FirstBack fs img chain size offset := by
  have hchain := (hchains.isChain i hi).1
  have hlong := hchains.long L hi
  rw [hne] at hchain hlong
  have hempty : fileSize img (fileMetaAt fs i) = 0 := by simpa using hlong
  cases hfree : findFreeFat fs img with
  | none => exact .inl hfree
  | some g =>
    refine .inr (or_iff_not_imp_right.mpr fun hbig => ?_)
    have hone := fresh_one_of_law L hfs hname hlaw hpos (by omega) hchain hempty hfree hi.1
    refine ⟨fresh_start_of_law L hfs hname hlen hlaw hpos (by omega) hchain hempty hfree hend hone, hone,
      fun g' hfree' j hj => ?_⟩
    obtain rfl : g = g' := Option.some.inj (hfree.symm.trans hfree')
    exact fresh_unlinked_of_law L hfs hname hlaw hpos hchains hne hend hchain hempty hfree hone hj

omit hend in
theorem insideBack_of_law (hoff : offset < fileSize img (fileMetaAt fs i))
    (hlaw : WriteReadLaw fs img i name (chain i) size offset) :
    InsideBack fs img (fileSize img (fileMetaAt fs i)) (chain i) size offset := by
  have hs := L.sectorSize
  have hchain := hchains.isChain i hi
  have hlong := hchains.long L hi
  have hst : writeStart img (fileMetaAt fs i) offset = offset := if_pos hoff
  have hq : offset / fs.sectorSize < (chain i).length := Nat.div_lt_of_lt_mul (by omega)
  have hne := List.ne_nil_of_length_pos (Nat.zero_lt_of_lt hq)
  have hlt := L.sectorSize_lt (hchain.getD_lt hq)
  have hmod : offset % fs.sectorSize < fs.sectorSize := Nat.mod_lt _ (by omega)
  have hdiv := Nat.div_add_mod offset fs.sectorSize
  rcases Nat.lt_or_ge (fs.sectorSize - offset % fs.sectorSize) size with hmany | hone
  · refine .inr ?_
    cases hfree : findFreeFat fs img with
    | none =>
      have hfull := full_of_law L hfs hname hlaw hchain hne hi.1 hlong (by rwa [hst]) hfree (by rwa [hst])
      rw [hst] at hfull
      refine .inr (.inl ⟨rfl, ?_, hfull.2⟩)
      rw [Nat.mul_add, Nat.mul_one]
      omega
    | some g =>
      rcases Nat.lt_or_ge size (2 ^ 31) with hint | hbig
      · obtain ⟨hnext, htwo⟩ := across_of_law L hfs hname hlen hlaw hpos hint hchain hne hi.1 hst hq hfree hmany
        exact .inl ⟨hnext ▸ rfl, hmany, htwo⟩
      · exact .inr (.inr ⟨by simp, hbig⟩)
  · exact .inl ⟨hone, marked_of_law L hfs hname hlaw (by omega) hchain hne hi.1 hoff hlong
      (fun q hq => hchains.start_lt L hi hq) hone⟩

omit hend in
theorem endBack_of_law (hne : chain i ≠ []) (hoff : fileSize img (fileMetaAt fs i) ≤ offset)
    (hlaw : WriteReadLaw fs img i name (chain i) size offset) :
    EndBack fs img (fileSize img (fileMetaAt fs i)) size offset := by
  have hs := L.sectorSize
  have hchain := hchains.isChain i hi
  have hlong := hchains.long L hi
  have hlength := hchains.length_mod L hi
  have hst : writeStart img (fileMetaAt fs i) offset = fileSize img (fileMetaAt fs i) := if_neg (Nat.not_lt_of_le hoff)
  refine or_iff_not_imp_left.mpr fun hmod => ?_
  rw [if_neg hmod] at hlength
  have hq : fileSize img (fileMetaAt fs i) / fs.sectorSize < (chain i).length := by omega
  have hlt := L.sectorSize_lt (hchain.getD_lt hq)
  have hlt' : fileSize img (fileMetaAt fs i) % fs.sectorSize < fs.sectorSize := Nat.mod_lt _ (by omega)
  have hlast : fat fs img ((chain i).getD (fileSize img (fileMetaAt fs i) / fs.sectorSize) 0) = 0xffff :=
    ((hchain.next L hq).resolve_left fun h => by omega).2
  have hmarked : fat fs img ((chain i).getD (fileSize img (fileMetaAt fs i) / fs.sectorSize) 0) ≠ 0 := by
    rw [hlast]
    decide
  cases hfree : findFreeFat fs img with
  | none =>
    have hone : size ≤ fs.sectorSize - fileSize img (fileMetaAt fs i) % fs.sectorSize := by
      by_contra hmany
      have hfull := full_of_law L hfs hname hlaw hchain hne hi.1 hlong (by rwa [hst]) hfree (by rw [hst]; omega)
      rw [hst] at hfull
      omega
    have hle := not_after_of_law L hfs hname hlen hlaw hpos (by omega) hchain hne hi.1 hq (by omega) hmarked (.inl hone)
    exact .inl ⟨by omega, hone⟩
  | some g =>
    refine or_iff_not_imp_right.mpr fun hbig => ?_
    have hint : size < 2 ^ 31 := Nat.lt_of_not_le fun h => hbig ⟨by simp, h⟩
    have hle := not_after_of_law L hfs hname hlen hlaw hpos hint hchain hne hi.1 hq (by omega) hmarked
      (.inr (by simp [hfree]))
    have heq : offset = fileSize img (fileMetaAt fs i) := by omega
    rw [← heq] at hst hq hlast ⊢
    refine ⟨rfl, ?_⟩
    by_contra hmany
    obtain ⟨hnext, -⟩ := across_of_law L hfs hname hlen hlaw hpos hint hchain hne hi.1 hst hq hfree (by omega)
    have hg := (findFreeFat_some hfree).1
    have hcount := L.fatCount_le
    omega

/-- The lawful writes are those that the driver gets right. -/
theorem writesBack_of_law (hlaw : WriteReadLaw fs img i name (chain i) size offset) :
    WritesBack fs img chain i size offset := by
  unfold WritesBack
  split
  · rename_i hne
    exact firstBack_of_law L hfs hchains hi hname hlen hpos hend hne hlaw
  · rename_i hne
    split
    · rename_i hoff
      exact insideBack_of_law L hfs hchains hi hname hlen hpos hoff hlaw
    · rename_i hoff
      exact endBack_of_law L hfs hchains hi hname hlen hpos hne (Nat.le_of_not_lt hoff) hlaw

end

/-- A file is read as it was written where the driver gets the write right. -/
theorem tagfsWriteRead_iff (img : Bytes) (G : Geometry (fsMeta img)) (chain : Nat → List Nat)
    (hchains : ChainsFit (fsMeta img) img chain) (i : Nat) (hi : Used (fsMeta img) img i) (name : CStr)
    (hname : Named (fsMeta img) img name i) (hlen : name.strlen < 24) (size offset : Nat) (hpos : 0 < size)
    (hend : offset + size < 2 ^ 32) : WriteReadLaw (fsMeta img) img i name (chain i) size offset ↔
      WritesBack (fsMeta img) img chain i size offset :=
  ⟨writesBack_of_law G.layout rfl hchains hi hname hlen hpos hend,
    lawful_of_writesBack G.layout rfl hchains hi hname hend hlen hpos⟩

/-- The chains of the image with one file, without data. -/
theorem chainsFit_newFile : ChainsFit (headerOf {}) newFile fun _ => [] := by
  obtain ⟨-, -, -, hfirst, hsize, hone⟩ := newFile_file
  refine ⟨fun j hj => ?_, fun j hj => ?_, fun j k hj hk hjk => absurd ((hone j hj).trans (hone k hk).symm) hjk⟩
  · rw [hone j hj, hfirst]
    exact ⟨rfl, by simp⟩
  · rw [hone j hj, hsize]
    decide

/-- Three bytes are read as they were written to it. -/
theorem tagfsWriteRead_iff_first : WriteReadLaw (fsMeta newFile) newFile 0 nameA [] 3 0 := by
  obtain ⟨hI, hused, hname, -⟩ := newFile_file
  have hheader := hI.inRange.header
  refine (tagfsWriteRead_iff newFile (by rw [hheader]; exact geometry_default) (fun _ => [])
    (by rw [hheader]; exact chainsFit_newFile) 0 (by rw [hheader]; exact hused) nameA
    ⟨by rw [hheader]; decide, by rw [hheader]; exact hname, fun j hj => absurd hj (Nat.not_lt_zero j)⟩ (by decide) 3 0
    (by decide) (by decide)).mpr ?_
  rw [WritesBack, if_pos rfl, hheader]
  exact .inr (.inl ⟨rfl, by decide, by simp⟩)

/-- A buffer of 513 bytes is not. -/
theorem tagfsWriteRead_fails : ¬ ∀ img, Geometry (fsMeta img) → ∀ chain, ChainsFit (fsMeta img) img chain →
    ∀ i name size offset, Used (fsMeta img) img i → Named (fsMeta img) img name i → name.strlen < 24 → 0 < size →
      offset + size < 2 ^ 32 → WriteReadLaw (fsMeta img) img i name (chain i) size offset := by
  intro hall
  obtain ⟨hI, hused, hname, hfirst, hsize, -⟩ := newFile_file
  have hheader := hI.inRange.header
  have hnamed : Named (headerOf {}) newFile nameA 0 := ⟨by decide, hname, fun j hj => absurd hj (Nat.not_lt_zero j)⟩
  have hlaw := hall newFile (by rw [hheader]; exact geometry_default) _ (by rw [hheader]; exact chainsFit_newFile) 0 nameA
    513 0 (by rw [hheader]; exact hused) (by rw [hheader]; exact hnamed) (by decide) (by decide) (by decide)
  rw [hheader] at hlaw
  cases hfree : findFreeFat (headerOf {}) newFile with
  | none => exact findFreeFat_none hfree (x := 0) (by decide) (by decide +kernel)
  | some g =>
    have hone := fresh_one_of_law geometry_default.layout hheader hnamed hlaw (by decide) (by decide) hfirst hsize hfree hused.1
    exact absurd hone (by decide)

end OSForReal.Proof.TagFS
