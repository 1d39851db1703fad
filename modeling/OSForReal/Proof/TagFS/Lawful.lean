import OSForReal.Proof.TagFS.Names
import OSForReal.Proof.TagFS.ReadBack

/-!
# What a write is to mean

`Lawful` says what a write that stores `n` bytes is to leave: the recorded size,
the bytes that a later read returns, the other bytes of the file, and the other
files. `WritesBack` lists the files and windows for which `tagfs_write` leaves
it (`lawful_of_writesBack`): those that it writes in one sector of the file,
where the window begins, and a few more.
-/

namespace OSForReal.Proof.TagFS

open Framework
open Framework.Bytes
open OSForReal.TagFS

variable {fs : FSMetadata} {img img' buf : Bytes} {name : CStr} {chain : Nat → List Nat} {l : List Nat}
  {e g i k n q r x size offset : Nat}

/-! ## The law -/

/-- The used file entries have chains, as many sectors as their sizes take, with no sector in two. -/
structure ChainsFit (fs : FSMetadata) (img : Bytes) (chain : Nat → List Nat) : Prop where
  isChain : ∀ i, Used fs img i → FatChain fs img (firstDataSector img (fileMetaAt fs i)) (chain i)
  length_eq : ∀ i, Used fs img i →
    (chain i).length = (fileSize img (fileMetaAt fs i) + fs.sectorSize - 1) / fs.sectorSize
  disjoint : ∀ i j, Used fs img i → Used fs img j → i ≠ j → (chain i).Disjoint (chain j)

/-- Byte `k` of the file, where its first sector and the FAT lead to it. -/
def fileByte (fs : FSMetadata) (img : Bytes) (i k : Nat) : Option UInt8 :=
  (skipSectors fs img (k / fs.sectorSize) (firstDataSector img (fileMetaAt fs i))).map fun x =>
    img (sectorAt fs x + k % fs.sectorSize)

/-- The free FAT entries are enough for a file of `n` bytes whose sectors are `l`. -/
def RoomFor (fs : FSMetadata) (img : Bytes) (l : List Nat) (n : Nat) : Prop :=
  (n + fs.sectorSize - 1) / fs.sectorSize ≤ l.length + (freeFats fs img).length

/-- What a write of `n` bytes of the buffer leaves in `img'`. -/
structure Lawful (fs : FSMetadata) (img : Bytes) (i : Nat) (name : CStr) (l : List Nat) (buf : Bytes) (size offset n : Nat)
    (img' : Bytes) : Prop where
  all : RoomFor fs img l (max (fileSize img (fileMetaAt fs i)) (offset + size)) → n = size
  size : 0 < n → fileSize img' (fileMetaAt fs i) = max (fileSize img (fileMetaAt fs i)) (offset + n)
  read : ∀ out, ∃ out', tagfsRead img' name out n offset = ((n : Int), out') ∧ ∀ k < n, out' k = buf k
  kept : ∀ k < fileSize img (fileMetaAt fs i), k < offset ∨ offset + n ≤ k → fileByte fs img' i k = fileByte fs img i k
  others : ∀ j, Used fs img j → j ≠ i → fileSize img' (fileMetaAt fs j) = fileSize img (fileMetaAt fs j) ∧
    ∀ k < fileSize img (fileMetaAt fs j), fileByte fs img' j k = fileByte fs img j k

/-- A write to the file `i` that does not fail is lawful. -/
def WriteReadLaw (fs : FSMetadata) (img : Bytes) (i : Nat) (name : CStr) (l : List Nat) (size offset : Nat) : Prop :=
  ∀ (buf : Bytes) (n : Nat) (img' : Bytes), tagfsWrite img name buf size offset = ((n : Int), img') →
    Lawful fs img i name l buf size offset n img'

/-- The lawful writes to a file without data: those that find no free sector, those
of one sector from the start of the file into a sector that no file has, and
those that return no count because their size is not an `int`. -/
def FirstBack (fs : FSMetadata) (img : Bytes) (chain : Nat → List Nat) (size offset : Nat) : Prop :=
  findFreeFat fs img = none ∨
    (offset = 0 ∧ size ≤ fs.sectorSize ∧ ∀ g, findFreeFat fs img = some g → ∀ j, Used fs img j → g ∉ chain j) ∨
    2 ^ 31 ≤ size

/-- The lawful writes that begin in the file: in one sector, whose entry is not that
of a free one; into the next sector of the file, when that is the first whose
entry is that of a free one; to the end of the sector, when no entry is free,
the file goes on after the sector, and it has no sectors for the whole window;
and those that return no count because their size is not an `int`. -/
def InsideBack (fs : FSMetadata) (img : Bytes) (fileLength : Nat) (l : List Nat) (size offset : Nat) : Prop :=
  (size ≤ fs.sectorSize - offset % fs.sectorSize ∧ fat fs img (l.getD (offset / fs.sectorSize) 0) ≠ 0) ∨
    (findFreeFat fs img = some (fat fs img (l.getD (offset / fs.sectorSize) 0)) ∧
      fs.sectorSize - offset % fs.sectorSize < size ∧ size ≤ 2 * fs.sectorSize - offset % fs.sectorSize) ∨
    (findFreeFat fs img = none ∧ fs.sectorSize * (offset / fs.sectorSize + 1) ≤ fileLength ∧
      fs.sectorSize * l.length < offset + size) ∨
    (findFreeFat fs img ≠ none ∧ 2 ^ 31 ≤ size)

/-- The lawful writes that begin at the end of the file or after it: those that the
driver refuses, as the last sector is full; those at the end and in the last
sector; and those that return no count because their size is not an `int`. -/
def EndBack (fs : FSMetadata) (img : Bytes) (fileLength size offset : Nat) : Prop :=
  fileLength % fs.sectorSize = 0 ∨ (offset = fileLength ∧ size ≤ fs.sectorSize - fileLength % fs.sectorSize) ∨
    (findFreeFat fs img ≠ none ∧ 2 ^ 31 ≤ size)

/-- The writes that the driver gets right. -/
def WritesBack (fs : FSMetadata) (img : Bytes) (chain : Nat → List Nat) (i size offset : Nat) : Prop :=
  if chain i = [] then FirstBack fs img chain size offset
  else if offset < fileSize img (fileMetaAt fs i) then
    InsideBack fs img (fileSize img (fileMetaAt fs i)) (chain i) size offset
  else EndBack fs img (fileSize img (fileMetaAt fs i)) size offset

/-! ## Bytes of a file -/

theorem fileByte_eq (L : Layout fs) (h : FatChain fs img (firstDataSector img (fileMetaAt fs i)) l)
    (hk : k < fs.sectorSize * l.length) : fileByte fs img i k = some (byteAt fs img l k) := by
  rw [fileByte, skipSectors_getD L h (Nat.div_lt_of_lt_mul hk), Option.map_some, byteAt]

/-- A file that a command does not touch. -/
theorem ChangesOnly.fileByte_eq {files fats sectors : List Nat} (h : ChangesOnly fs files fats sectors img img')
    (L : Layout fs) (hi : i < countFileMetaEntries fs) (hif : i ∉ files)
    (hchain : FatChain fs img (firstDataSector img (fileMetaAt fs i)) l) (hl : ∀ x ∈ l, x ∉ fats ∧ x ∉ sectors)
    (hk : k < fs.sectorSize * l.length) : fileByte fs img' i k = fileByte fs img i k := by
  have hchain' : FatChain fs img' (firstDataSector img' (fileMetaAt fs i)) l := by
    rw [h.firstDataSector_eq L hi hif]
    exact ⟨hchain.1.frame fun x hx => h.fat_eq L (hchain.2 x hx) (hl x hx).1, hchain.2⟩
  rw [TagFS.fileByte_eq L hchain' hk, TagFS.fileByte_eq L hchain hk,
    h.byteAt_eq L (fun x hx => ⟨hchain.2 x hx, (hl x hx).2⟩) hk]

/-- The name stays that of the entry that a command changes. -/
theorem Named.change {files fats sectors : List Nat} (h : Named fs img name i) (L : Layout fs)
    (hch : ChangesOnly fs files fats sectors img img') (hfiles : ∀ j ∈ files, j = i) (hsame : SameName fs i img img')
    (hlen : name.strlen < 24) : Named fs img' name i := by
  refine ⟨h.lt, ?_, fun j hj => ?_⟩
  · rw [hsame.strcmpEq_eq hlen]
    exact h.found
  · have hlt := h.lt
    rw [hch.strcmpEq_eq L (by omega) (fun hm => Nat.ne_of_lt hj (hfiles j hm)) hlen]
    exact h.first j hj

/-- The sectors of a file have room for its size. -/
theorem ChainsFit.long (h : ChainsFit fs img chain) (L : Layout fs) (hi : Used fs img i) :
    fileSize img (fileMetaAt fs i) ≤ fs.sectorSize * (chain i).length := by
  have hs := L.sectorSize
  rw [h.length_eq i hi]
  have := Nat.div_add_mod (fileSize img (fileMetaAt fs i) + fs.sectorSize - 1) fs.sectorSize
  have := Nat.mod_lt (fileSize img (fileMetaAt fs i) + fs.sectorSize - 1) (show 0 < fs.sectorSize by omega)
  omega

/-- The last sector of a file is full, or holds the rest. -/
theorem ChainsFit.length_mod (h : ChainsFit fs img chain) (L : Layout fs) (hi : Used fs img i) :
    (chain i).length = fileSize img (fileMetaAt fs i) / fs.sectorSize +
      if fileSize img (fileMetaAt fs i) % fs.sectorSize = 0 then 0 else 1 := by
  have hs := L.sectorSize
  have hmod : fileSize img (fileMetaAt fs i) % fs.sectorSize < fs.sectorSize := Nat.mod_lt _ (by omega)
  have hdiv := Nat.div_add_mod (fileSize img (fileMetaAt fs i)) fs.sectorSize
  have hsum : fileSize img (fileMetaAt fs i) + fs.sectorSize - 1 =
      fs.sectorSize * (fileSize img (fileMetaAt fs i) / fs.sectorSize) +
        (fileSize img (fileMetaAt fs i) % fs.sectorSize + fs.sectorSize - 1) := by omega
  have hrest : (fileSize img (fileMetaAt fs i) % fs.sectorSize + fs.sectorSize - 1) / fs.sectorSize =
      if fileSize img (fileMetaAt fs i) % fs.sectorSize = 0 then 0 else 1 := by
    split
    · exact Nat.div_eq_of_lt (by omega)
    · exact Nat.div_eq_of_lt_le (by omega) (by omega)
  rw [h.length_eq i hi, hsum, Nat.mul_add_div (by omega), hrest]

/-- Without free sectors, the room is that of the sectors. -/
theorem roomFor_iff (L : Layout fs) (hfree : findFreeFat fs img = none) : RoomFor fs img l n ↔ n ≤ fs.sectorSize * l.length := by
  have hs := L.sectorSize
  have hnone : freeFats fs img = [] := List.eq_nil_iff_forall_not_mem.mpr fun x hx => by
    obtain ⟨hx, h0⟩ := mem_freeFats.mp hx
    exact findFreeFat_none hfree hx h0
  rw [RoomFor, hnone, List.length_nil, Nat.add_zero, Nat.div_le_iff_le_mul_add_pred (by omega)]
  omega

/-! ## Data, and the size after it -/

section

variable {sectors : List Nat} {D : Bytes} {m : Nat} (hD : ChangesOnly fs [] [] sectors img D) (hi : i < countFileMetaEntries fs)

include hD hi

theorem changes_grow : ChangesOnly fs [i] [] sectors img (growFile D (fileMetaAt fs i) m) :=
  (hD.trans (changes_growFile hi)).mono (by simp) (by simp) (by simp) (by simpa using hi) (by simp) hD.sectors_lt

theorem SameName.grow (L : Layout fs) : SameName fs i img (growFile D (fileMetaAt fs i) m) := by
  refine SameName.trans (.of_changes L hD hi (by simp)) fun k hk => growFile_out ?_
  simp only [nameAt]
  omega

theorem FatChain.grow (L : Layout fs) (h : FatChain fs img (firstDataSector img (fileMetaAt fs i)) l) :
    FatChain fs (growFile D (fileMetaAt fs i) m) (firstDataSector (growFile D (fileMetaAt fs i) m) (fileMetaAt fs i)) l := by
  have hch : ChangesOnly fs [i] [] sectors img (growFile D (fileMetaAt fs i) m) := changes_grow hD hi
  rw [firstDataSector_growFile, hD.firstDataSector_eq L hi (by simp)]
  exact ⟨h.1.frame fun x hx => hch.fat_eq L (h.2 x hx) (by simp), h.2⟩

end

/-! ## Writes that are lawful -/

/-- A write to a file without data, when no sector is free. -/
theorem lawful_noSpace (L : Layout fs) (hfs : fsMeta img = fs) (hname : Named fs img name i)
    (hempty : fileSize img (fileMetaAt fs i) = 0) (hpos : 0 < size) (hfree : findFreeFat fs img = none) :
    Lawful fs img i name [] buf size offset 0 img := by
  refine ⟨fun hroom => ?_, fun h => absurd h (Nat.lt_irrefl 0), fun out => ⟨out, ?_, fun k hk => absurd hk (Nat.not_lt_zero k)⟩,
    fun _ _ _ => rfl, fun _ _ _ => ⟨rfl, fun _ _ => rfl⟩⟩
  · rw [roomFor_iff L hfree, List.length_nil, Nat.mul_zero] at hroom
    omega
  · simp only [tagfsRead, hfs, hname.fileId L, Nat.add_sub_cancel, if_neg (Nat.succ_ne_zero i)]
    rw [if_pos (by omega)]
    rfl

section

variable (L : Layout fs) (hfs : fsMeta img = fs) (hchains : ChainsFit fs img chain) (hi : Used fs img i)
  (hname : Named fs img name i) (hlen : name.strlen < 24)

include L hfs hchains hi hname hlen

/-- A write that leaves the file in the sectors `l`, and touches no sector of another. -/
theorem lawful_of_data {fats sectors : List Nat} (hch : ChangesOnly fs [i] fats sectors img img')
    (hsame : SameName fs i img img')
    (hothers : ∀ j, Used fs img j → j ≠ i → ∀ x ∈ chain j, x ∉ fats ∧ x ∉ sectors)
    (hchain : FatChain fs img' (firstDataSector img' (fileMetaAt fs i)) l)
    (hsize : fileSize img' (fileMetaAt fs i) = max (fileSize img (fileMetaAt fs i)) (offset + n))
    (hl : fileSize img' (fileMetaAt fs i) ≤ fs.sectorSize * l.length) (hpos : 0 < n) (hn : n < 2 ^ 31)
    (hall : RoomFor fs img (chain i) (max (fileSize img (fileMetaAt fs i)) (offset + size)) → n = size)
    (hdata : ∀ k < n, byteAt fs img' l (offset + k) = buf k)
    (hkept : ∀ k < fileSize img (fileMetaAt fs i), k < offset ∨ offset + n ≤ k →
      byteAt fs img' l k = byteAt fs img (chain i) k) :
    Lawful fs img i name (chain i) buf size offset n img' := by
  have hnamed := hname.change L hch (by simp) hsame hlen
  refine ⟨hall, fun _ => hsize, fun out => ?_, fun k hk hout => ?_, fun j hj hji => ?_⟩
  · obtain ⟨out', hr, hbytes⟩ := tagfsRead_spec L ((hch.fsMeta_eq L).trans hfs) hnamed hchain hl hpos
      (by rw [hsize]; exact Nat.le_max_right _ _) hn out
    exact ⟨out', hr, fun k hk => (hbytes k hk).trans (hdata k hk)⟩
  · have hlong := hchains.long L hi
    rw [fileByte_eq L hchain (by omega), fileByte_eq L (hchains.isChain i hi) (by omega), hkept k hk hout]
  · have hlong := hchains.long L hj
    have hjf : j ∉ [i] := by simpa using hji
    exact ⟨hch.fileSize_eq L hj.1 hjf, fun k hk => hch.fileByte_eq L hj.1 hjf (hchains.isChain j hj)
      (hothers j hj hji) (by omega)⟩

/-- A write to the sectors of the file. -/
theorem lawful_in {sectors : List Nat} {D : Bytes} (hD : ChangesOnly fs [] [] sectors img D)
    (hsectors : ∀ x ∈ sectors, x ∈ chain i) (hin : offset + n ≤ fs.sectorSize * (chain i).length) (hpos : 0 < n)
    (hall : RoomFor fs img (chain i) (max (fileSize img (fileMetaAt fs i)) (offset + size)) → n = size)
    (hbytes : ∀ k < fs.sectorSize * (chain i).length, byteAt fs D (chain i) k =
      if offset ≤ k ∧ k < offset + n then buf (k - offset) else byteAt fs img (chain i) k) :
    Lawful fs img i name (chain i) buf size offset n (growFile D (fileMetaAt fs i) (offset + n)) := by
  have hchain := hchains.isChain i hi
  have hlong := hchains.long L hi
  have hdata := L.data
  have hmul : fs.sectorSize * (chain i).length ≤ fs.sectorSize * fatCount fs := Nat.mul_le_mul_left _ (hchain.length_le L)
  have hgrow : ChangesOnly fs [i] [] [] D (growFile D (fileMetaAt fs i) (offset + n)) := changes_growFile hi.1
  have hsize : fileSize (growFile D (fileMetaAt fs i) (offset + n)) (fileMetaAt fs i) =
      max (fileSize img (fileMetaAt fs i)) (offset + n) := by
    rw [fileSize_growFile (by omega), hD.fileSize_eq L hi.1 (by simp)]
  have hbyte : ∀ k < fs.sectorSize * (chain i).length, byteAt fs (growFile D (fileMetaAt fs i) (offset + n)) (chain i) k =
      if offset ≤ k ∧ k < offset + n then buf (k - offset) else byteAt fs img (chain i) k := fun k hk =>
    (hgrow.byteAt_eq L (fun x hx => ⟨hchain.2 x hx, by simp⟩) hk).trans (hbytes k hk)
  refine lawful_of_data L hfs hchains hi hname hlen (changes_grow hD hi.1) (.grow hD hi.1 L)
    (fun j hj hji x hx => ⟨by simp, fun hm => ?_⟩) (hchain.grow hD hi.1 L) hsize ?_ hpos (by omega) hall (fun k hk => ?_)
    fun k hk hout => ?_
  · exact hchains.disjoint i j hi hj (Ne.symm hji) (hsectors x hm) hx
  · rw [hsize]
    exact Nat.max_le.mpr ⟨hlong, hin⟩
  · rw [hbyte _ (by omega), if_pos (by omega), Nat.add_sub_cancel_left]
  · rw [hbyte _ (by omega), if_neg (by omega)]

/-- A write in one sector of the file, or to its end. -/
theorem lawful_own (hq : q < (chain i).length) (hoff : offset = fs.sectorSize * q + r) (hn : r + n ≤ fs.sectorSize)
    (hpos : 0 < n) (hall : RoomFor fs img (chain i) (max (fileSize img (fileMetaAt fs i)) (offset + size)) → n = size) :
    Lawful fs img i name (chain i) buf size offset n
      (growFile (copy img (sectorAt fs ((chain i).getD q 0) + r) n buf) (fileMetaAt fs i) (offset + n)) := by
  have hchain := hchains.isChain i hi
  have hmul : fs.sectorSize * (q + 1) ≤ fs.sectorSize * (chain i).length := Nat.mul_le_mul_left _ hq
  rw [Nat.mul_add, Nat.mul_one] at hmul
  refine lawful_in L hfs hchains hi hname hlen (changes_sector (hchain.getD_lt hq) hn) (fun x hx => ?_) (by omega) hpos hall
    fun k hk => ?_
  · exact List.mem_singleton.mp hx ▸ getD_mem_of_lt hq
  · rw [byteAt_copy L hchain hq hn img hk, hoff]

/-- A write to the end of a sector of the file, and in the next one. -/
theorem lawful_next (hq : q + 1 < (chain i).length) (hoff : offset = fs.sectorSize * q + r) (hr : r < fs.sectorSize)
    (hmany : fs.sectorSize - r < size) (hsize : size ≤ 2 * fs.sectorSize - r) :
    Lawful fs img i name (chain i) buf size offset size
      (growFile (copy (copy img (sectorAt fs ((chain i).getD q 0) + r) (fs.sectorSize - r) buf)
        (sectorAt fs ((chain i).getD (q + 1) 0)) (size - (fs.sectorSize - r)) fun k => buf (fs.sectorSize - r + k))
        (fileMetaAt fs i) (offset + size)) := by
  have hchain := hchains.isChain i hi
  have hmul : fs.sectorSize * (q + 1 + 1) ≤ fs.sectorSize * (chain i).length := Nat.mul_le_mul_left _ hq
  rw [Nat.mul_add, Nat.mul_add, Nat.mul_one] at hmul
  have hfirst : ChangesOnly fs [] [] [(chain i).getD q 0] img
      (copy img (sectorAt fs ((chain i).getD q 0) + r) (fs.sectorSize - r) buf) :=
    changes_sector (hchain.getD_lt (by omega)) (by omega)
  refine lawful_in L hfs hchains hi hname hlen
    (hfirst.trans (changes_sector (o := 0) (hchain.getD_lt hq) (by omega))) ?_ (by omega) (by omega) (fun _ => rfl)
    fun k hk => ?_
  · intro x hx'
    rcases List.mem_append.mp hx' with h | h
    · exact List.mem_singleton.mp h ▸ getD_mem_of_lt (by omega)
    · exact List.mem_singleton.mp h ▸ getD_mem_of_lt hq
  · have hsecond := @byteAt_copy fs img _ (chain i) (q + 1) 0 (size - (fs.sectorSize - r)) k
      (fun k => buf (fs.sectorSize - r + k)) L hchain hq (by omega)
      (copy img (sectorAt fs ((chain i).getD q 0) + r) (fs.sectorSize - r) buf) hk
    rw [Nat.add_zero] at hsecond
    rw [hsecond, byteAt_copy L hchain (by omega) (by omega) img hk, hoff, Nat.mul_add, Nat.mul_one, Nat.add_zero]
    by_cases hhigh : fs.sectorSize * q + fs.sectorSize ≤ k ∧ k < fs.sectorSize * q + r + size
    · rw [if_pos (by omega), if_pos (by omega)]
      exact congrArg buf (by omega)
    · rw [if_neg (by omega)]
      by_cases hlow : fs.sectorSize * q + r ≤ k ∧ k < fs.sectorSize * q + fs.sectorSize
      · rw [if_pos (by omega), if_pos (by omega)]
      · rw [if_neg (by omega), if_neg (by omega)]

/-- The first write to a file, in one sector that no file has. -/
theorem lawful_fresh (hempty : fileSize img (fileMetaAt fs i) = 0) (hg : g < fatCount fs)
    (hout : ∀ j, Used fs img j → g ∉ chain j) (hsize : size ≤ fs.sectorSize) (hpos : 0 < size)
    (h : FirstWrite fs img i g buf size 0 img') : Lawful fs img i name (chain i) buf size 0 size img' := by
  have hlt := L.sectorSize_lt hg
  refine lawful_of_data L hfs hchains hi hname hlen h.changes h.sameName (fun j hj hji x hx => ?_) h.isChain h.size_eq ?_ hpos
    (by omega) (fun _ => rfl) (fun k hk => ?_) fun k hk hout => ?_
  · have hxg : x ≠ g := fun hxg => hout j hj (hxg ▸ hx)
    exact ⟨by simpa using hxg, by simpa using hxg⟩
  · rw [h.size_eq, hempty, List.length_singleton]
    omega
  · rw [Nat.zero_add, byteAt_first (by omega), h.written k hk]
  · omega

end

/-! ## The writes that the driver gets right -/

/-- A size that is not an `int` is returned as an error. -/
theorem toInt_ne (hsize : size < 2 ^ 32) (hbig : 2 ^ 31 ≤ size) : (n : Int) ≠ toInt size := by
  unfold toInt
  rw [Int.bmod_def]
  omega

/-- The loop with one pass. -/
theorem writeRest_last {fuel bufIndex : Nat} (hfree : findFreeFat fs img = some g) (h : bufIndex < size)
    (hlast : size ≤ bufIndex + fs.sectorSize) (hfuel : 0 < fuel) : writeRest fs buf size fuel img bufIndex =
      (true, copy img (sectorAt fs g) (size - bufIndex) fun k => buf (bufIndex + k), size) := by
  obtain ⟨fuel, rfl⟩ : ∃ n, fuel = n + 1 := ⟨fuel - 1, by omega⟩
  have hend : bufIndex + (size - bufIndex) = size := by omega
  rw [writeRest_step hfree h, chunk, if_pos hlast, hend]
  cases fuel with
  | zero => rfl
  | succ fuel => rw [writeRest, if_neg (Nat.lt_irrefl _)]

section

variable (L : Layout fs) (hfs : fsMeta img = fs) (hchains : ChainsFit fs img chain) (hi : Used fs img i)
  (hname : Named fs img name i) (hend : offset + size < 2 ^ 32)

include L hfs hchains hi hname hend

/-- A write across sectors, with a free one, returns no count that is not an `int`. -/
theorem tagfsWrite_across_ne (hq : writeStart img (fileMetaAt fs i) offset / fs.sectorSize < (chain i).length)
    (hfree : findFreeFat fs img ≠ none) (hbig : 2 ^ 31 ≤ size) : tagfsWrite img name buf size offset ≠ ((n : Int), img') := by
  intro hr
  have hchain := hchains.isChain i hi
  have hx := hchain.getD_lt hq
  have hlt := L.sectorSize_lt hx
  obtain ⟨g, hfree⟩ := Option.ne_none_iff_exists'.mp hfree
  obtain ⟨_, -, hwrite⟩ := @tagfsWrite_across fs img buf name i g _ size offset hfs (hname.fileId L)
    (hchain.ne_end L (List.ne_nil_of_length_pos (Nat.zero_lt_of_lt hq))) (skipSectors_getD L hchain hq) L hx hfree (by omega)
  exact absurd (Prod.mk.inj (hr.symm.trans hwrite)).1 (toInt_ne (by omega) hbig)

variable (hlen : name.strlen < 24) (hpos : 0 < size)

include hlen hpos

/-- The first write to a file. -/
theorem lawful_of_firstBack (hne : chain i = []) (hback : FirstBack fs img chain size offset)
    (hr : tagfsWrite img name buf size offset = ((n : Int), img')) : Lawful fs img i name (chain i) buf size offset n img' := by
  have hfirst : firstDataSector img (fileMetaAt fs i) = 0xffff := by
    have hchain := (hchains.isChain i hi).1
    rw [hne] at hchain
    exact hchain
  have hempty : fileSize img (fileMetaAt fs i) = 0 := by
    have hlong := hchains.long L hi
    rw [hne, List.length_nil, Nat.mul_zero] at hlong
    exact Nat.eq_zero_of_le_zero hlong
  cases hfree : findFreeFat fs img with
  | none =>
    obtain ⟨h0, rfl⟩ := Prod.mk.inj (hr.symm.trans (tagfsWrite_noSpace hfs (hname.fileId L) hfirst hfree))
    obtain rfl : n = 0 := by omega
    rw [hne]
    exact lawful_noSpace L hfs hname hempty hpos hfree
  | some g =>
    obtain ⟨hg, -⟩ := findFreeFat_some hfree
    have hlt := L.sectorSize_lt hg
    rcases hback.resolve_left (by simp [hfree]) with ⟨rfl, hone, hout⟩ | hbig
    · obtain ⟨img₁, hwrite, h⟩ := tagfsWrite_first buf L hfs hname hfirst hempty hfree hone hend
      rw [toInt_eq (by omega)] at hwrite
      obtain ⟨h0, rfl⟩ := Prod.mk.inj (hr.symm.trans hwrite)
      obtain rfl : n = size := by omega
      exact lawful_fresh L hfs hchains hi hname hlen hempty hg (hout g hfree) hone hpos h
    · obtain ⟨_, -, hwrite⟩ := @tagfsWrite_freshAcross fs img buf name i g size offset hfs (hname.fileId L) L hi.1 hfirst
        hempty hfree (by omega)
      exact absurd (Prod.mk.inj (hr.symm.trans hwrite)).1 (toInt_ne (by omega) hbig)

/-- A write that begins in the sectors of the file. -/
theorem lawful_of_insideBack (hst : writeStart img (fileMetaAt fs i) offset = offset)
    (hq : offset / fs.sectorSize < (chain i).length)
    (hback : InsideBack fs img (fileSize img (fileMetaAt fs i)) (chain i) size offset)
    (hr : tagfsWrite img name buf size offset = ((n : Int), img')) : Lawful fs img i name (chain i) buf size offset n img' := by
  have hs := L.sectorSize
  have hdata := L.data
  have hid := hname.fileId L
  have hchain := hchains.isChain i hi
  have hfirst := hchain.ne_end L (List.ne_nil_of_length_pos (Nat.zero_lt_of_lt hq))
  have hmul : fs.sectorSize * (chain i).length ≤ fs.sectorSize * fatCount fs := Nat.mul_le_mul_left _ (hchain.length_le L)
  have hlast : fs.sectorSize * (offset / fs.sectorSize + 1) ≤ fs.sectorSize * (chain i).length := Nat.mul_le_mul_left _ hq
  rw [Nat.mul_add, Nat.mul_one] at hlast
  have hmod : offset % fs.sectorSize < fs.sectorSize := Nat.mod_lt _ (by omega)
  have hoff := Nat.div_add_mod offset fs.sectorSize
  have hskip := skipSectors_getD L hchain hq
  have hx := hchain.getD_lt hq
  unfold InsideBack at hback
  rcases hback with ⟨hone, hmarked⟩ | ⟨hfree, hmany, htwo⟩ | ⟨hfree, hin, hroom⟩ | ⟨hfree, hbig⟩
  · have hwrite := @tagfsWrite_within fs img buf name i _ size offset hfs hid hfirst (by rwa [hst]) L hx hmarked
      (by rwa [hst])
    rw [hst, toInt_eq (by omega)] at hwrite
    obtain ⟨h0, rfl⟩ := Prod.mk.inj (hr.symm.trans hwrite)
    obtain rfl : n = size := by omega
    exact lawful_own L hfs hchains hi hname hlen hq hoff.symm (by omega) hpos fun _ => rfl
  · -- The sector that the loop takes is the next of the file.
    obtain ⟨hq', hnext⟩ := (hchain.next L hq).resolve_right fun ⟨_, hend⟩ => by
      have hlt := (findFreeFat_some hfree).1
      have := L.fatCount_le
      omega
    have hnext_mul : fs.sectorSize * (offset / fs.sectorSize + 1 + 1) ≤ fs.sectorSize * (chain i).length :=
      Nat.mul_le_mul_left _ hq'
    rw [Nat.mul_add, Nat.mul_add, Nat.mul_one] at hnext_mul
    have hsector : ChangesOnly fs [] [] [(chain i).getD (offset / fs.sectorSize) 0] img
        (copy img (sectorAt fs ((chain i).getD (offset / fs.sectorSize) 0) + offset % fs.sectorSize)
          (fs.sectorSize - offset % fs.sectorSize) buf) := changes_sector hx (by omega)
    obtain ⟨D, hrest, hwrite⟩ := @tagfsWrite_across fs img buf name i _ _ size offset hfs hid hfirst (by rwa [hst]) L hx hfree
      (by rwa [hst])
    rw [hst, writeRest_last ((findFreeFat_congr fun y hy => hsector.fat_eq L hy (by simp)).trans hfree) hmany (by omega)
      hpos] at hrest
    obtain rfl := (Prod.mk.inj (Prod.mk.inj hrest).2).1
    rw [toInt_eq (by omega), ← hnext] at hwrite
    obtain ⟨h0, rfl⟩ := Prod.mk.inj (hr.symm.trans hwrite)
    obtain rfl : n = size := by omega
    exact lawful_next L hfs hchains hi hname hlen hq' hoff.symm hmod hmany htwo
  · by_cases hone : size ≤ fs.sectorSize - offset % fs.sectorSize
    · omega
    · have hwrite := @tagfsWrite_full fs img buf name i _ size offset hfs hid hfirst (by rwa [hst]) L hx hfree
        (by rw [hst]; omega)
      rw [hst, toInt_eq (by omega)] at hwrite
      obtain ⟨h0, rfl⟩ := Prod.mk.inj (hr.symm.trans hwrite)
      obtain rfl : n = fs.sectorSize - offset % fs.sectorSize := by omega
      rw [Nat.mul_add, Nat.mul_one] at hin
      have hgrow := @lawful_own fs img buf name chain i (fs.sectorSize - offset % fs.sectorSize) _ (offset % fs.sectorSize)
        size offset L hfs hchains hi hname hlen hq hoff.symm (by omega) (by omega) fun h => by
          rw [roomFor_iff L hfree] at h
          omega
      have hsector : fileSize (copy img (sectorAt fs ((chain i).getD (offset / fs.sectorSize) 0) + offset % fs.sectorSize)
          (fs.sectorSize - offset % fs.sectorSize) buf) (fileMetaAt fs i) = fileSize img (fileMetaAt fs i) :=
        (changes_sector (o := offset % fs.sectorSize) hx (by omega)).fileSize_eq L hi.1 (by simp)
      rwa [growFile, if_neg (by rw [hsector]; omega)] at hgrow
  · exact absurd hr (tagfsWrite_across_ne L hfs hchains hi hname hend (by rwa [hst]) hfree hbig)

/-- A write that begins at the end of the file or after it. -/
theorem lawful_of_endBack (hne : chain i ≠ []) (hoff : fileSize img (fileMetaAt fs i) ≤ offset)
    (hback : EndBack fs img (fileSize img (fileMetaAt fs i)) size offset)
    (hr : tagfsWrite img name buf size offset = ((n : Int), img')) : Lawful fs img i name (chain i) buf size offset n img' := by
  have hchain := hchains.isChain i hi
  have hlength := hchains.length_mod L hi
  have hst : writeStart img (fileMetaAt fs i) offset = fileSize img (fileMetaAt fs i) := if_neg (Nat.not_lt_of_le hoff)
  by_cases hmod : fileSize img (fileMetaAt fs i) % fs.sectorSize = 0
  · rw [if_pos hmod, Nat.add_zero] at hlength
    have hbad := @tagfsWrite_bad fs img buf name i size offset hfs (hname.fileId L) (hchain.ne_end L hne)
      (by rw [hst, ← hlength]; exact skipSectors_length hchain hne)
    have hneg := (Prod.mk.inj (hr.symm.trans hbad)).1
    have : (-ebadfd : Int) < 0 := by decide
    omega
  · rw [if_neg hmod] at hlength
    rcases hback.resolve_left hmod with ⟨rfl, hone⟩ | ⟨hfree, hbig⟩
    · refine lawful_of_insideBack L hfs hchains hi hname hend hlen hpos hst (by omega) (.inl ⟨hone, ?_⟩) hr
      -- The last sector leads to the end of the chain.
      rcases hchain.next L (q := fileSize img (fileMetaAt fs i) / fs.sectorSize) (by omega) with ⟨hlt, -⟩ | ⟨-, hlast⟩
      · omega
      · rw [hlast]
        decide
    · exact absurd hr (tagfsWrite_across_ne L hfs hchains hi hname hend (by rw [hst]; omega) hfree hbig)

/-- The writes that the driver gets right are lawful. -/
theorem lawful_of_writesBack (hback : WritesBack fs img chain i size offset) :
    WriteReadLaw fs img i name (chain i) size offset := by
  intro buf n img' hr
  have hlong := hchains.long L hi
  unfold WritesBack at hback
  split at hback
  · rename_i hne
    exact lawful_of_firstBack L hfs hchains hi hname hend hlen hpos hne hback hr
  · rename_i hne
    split at hback
    · rename_i hoff
      exact lawful_of_insideBack L hfs hchains hi hname hend hlen hpos (if_pos hoff) (Nat.div_lt_of_lt_mul (by omega)) hback hr
    · rename_i hoff
      exact lawful_of_endBack L hfs hchains hi hname hend hlen hpos hne (Nat.le_of_not_lt hoff) hback hr

end

end OSForReal.Proof.TagFS
