import OSForReal.Proof.TagFS.EndOfFile
import OSForReal.Proof.Tfs.Blocks

/-!
# The calls on the heap

Once its blocks are placed (`Placed`), a call does to the disk and to the
caller's buffer what `Proof.Tfs.View` says of the memory that it finds behind the
first FAT sector (`Placed.read`, `Placed.write`), and gives the blocks back.
`Held` is what the loops of a call keep: the FAT and the file's entry in memory,
which no read of a sector changes.
-/

namespace OSForReal.Proof.Tfs

open Framework
open Framework.Bytes
open OSForReal.Heap
open OSForReal.TagFS
open OSForReal.Proof.TagFS
open OSForReal.Proof.Heap

variable {σ : Type} {S : PageSupply σ} {fs : FSMetadata} {img view entry buf F : Bytes} {name : CStr}
  {h h' h₂ : Heap σ} {Q : Heap σ → Prop} {sb fats m lba i k n o x size offset fileCount bufIndex : Nat}
  {src src' : Nat → UInt8}

/-! ## Sectors in memory -/

theorem patchedSector_congr (hsrc : ∀ k < n, src k = src' k) : patchedSector img lba o n src = patchedSector img lba o n src' := by
  unfold patchedSector
  rw [copy_congr_src hsrc]

/-- The bytes of a buffer, once a sector is read to it. -/
theorem bytesFrom_sector {a : Nat} (ha : a + 512 ≤ 2 ^ 32) (hk : k < 512) : (h.copyTo a 512 src).bytesFrom a k = src k := by
  rw [bytesFrom_eq (by omega), bytes_copyTo, copy_in (by omega) (by omega), Nat.add_sub_cancel_left]

/-- Reading a sector, copying `n` bytes to its byte `o`, and writing it back. -/
theorem patchSector_view {memoryCopy : Heap σ → Heap σ} (src : Nat → UInt8) (hsb : sb + 512 ≤ 2 ^ 32) (hlba : lba ≤ 0xfffffff)
    (ho : o < 512) (hn : o + n ≤ 512) (hcopy : memoryCopy (h.copyTo sb 512 (diskSector img lba)) =
      (h.copyTo sb 512 (diskSector img lba)).copyTo (sb + o) n src) : ∃ h',
    patchSector sb img h lba memoryCopy = .ok (patchedSector img lba o n src, h') ∧ OnlyIn (InBuffer sb 512) h h' := by
  have hread : OnlyIn (InBuffer sb 512) h (h.copyTo sb 512 (diskSector img lba)) :=
    .copyTo ⟨Nat.le_refl _, by omega⟩ fun x hx hx' => ⟨hx, hx'⟩
  refine ⟨(h.copyTo sb 512 (diskSector img lba)).copyTo (sb + o) n src, ?_,
    hread.trans (.copyTo ⟨Nat.le_add_right sb o, by omega⟩ fun x hx hx' => ⟨by omega, by omega⟩)⟩
  simp only [patchSector, readSector_eq hlba, Res.ok_bind, hcopy, writeSector, Res.assert_bind hlba]
  congr 2
  refine copy_congr_src fun k hk => ?_
  rw [bytesFrom_eq (by omega), bytes_copyTo]
  by_cases hin : o ≤ k ∧ k < o + n
  · rw [copy_in (by omega) (by omega), copy_in hin.1 hin.2, Nat.add_sub_add_left]
  · rw [copy_out (by omega), copy_out (m := diskSector img lba) (by omega), ← bytesFrom_eq (by omega), bytesFrom_sector hsb hk]

/-! ## The search for a name -/

/-- What is found is one of the entries. -/
theorem searchEntries_lt {p : Nat → Bool} {total j c : Nat} (hr : searchEntries p total k i fileCount = (some j, c)) :
    j < i + k := by
  induction k generalizing i fileCount with
  | zero => cases hr
  | succ k ih =>
    rw [searchEntries] at hr
    split at hr
    · obtain ⟨hj, -⟩ := Prod.mk.inj hr
      obtain rfl := Option.some.inj hj
      omega
    · split at hr
      · cases hr
      · have := ih hr
        omega

/-- The sector and the offset of what a search found. -/
def place (r : FileMetadataResult) : Option (Nat × Nat) := if r.found then some (r.lba, r.offset) else none

/-- If an entry is found, it is one of the disk, and in memory. -/
structure InMemory (img : Bytes) (m : Nat) (r : FileMetadataResult) (h : Heap σ) : Prop where
  lba : r.found = true → r.lba ≤ 0xfffffff
  offset : r.found = true → r.offset + 32 ≤ 512
  entry : r.found = true → ∀ k < 32, h.bytes (m + k) = img (512 * r.lba + r.offset + k)

/-- The search over the sectors from `lba` on. -/
theorem searchSectors_view {r : FileMetadataResult} (K : KernelImage fs) (hsb : sb + 512 ≤ 2 ^ 32)
    (hap : m + 32 ≤ sb ∨ sb + 512 ≤ m) (hlen : name.strlen < 24) (hlba : lba + k ≤ 0x10000000) (hr : InMemory img m r h) :
    ∃ r' h', searchSectors fs sb img name m k lba fileCount r h = .ok (r', h') ∧
      place r' = viewSearch fs img name k lba fileCount (place r) ∧ InMemory img m r' h' ∧
      OnlyIn (fun x => InBuffer sb 512 x ∨ InBuffer m 32 x) h h' := by
  have hsize : fs.sectorSize / sizeofFileMetadata = 16 := by
    rw [K.sectorSize_eq]
    rfl
  induction k generalizing h lba fileCount r with
  | zero => exact ⟨r, h, rfl, rfl, hr, .refl _ h⟩
  | succ k ih =>
    have hbuf : ∀ a < 512, (h.copyTo sb 512 (diskSector img lba)).bytesFrom sb a = diskSector img lba a :=
      fun a ha => bytesFrom_sector hsb ha
    have hread : OnlyIn (InBuffer sb 512) h (h.copyTo sb 512 (diskSector img lba)) :=
      .copyTo ⟨Nat.le_refl _, by omega⟩ fun x hx hx' => ⟨hx, hx'⟩
    -- The names are compared within the sector.
    have hsearch : searchEntries (fun i => strcmpEq ((h.copyTo sb 512 (diskSector img lba)).bytesFrom sb)
        (nameAt (sizeofFileMetadata * i)) name) (tfsCountFileMetaEntries fs) 16 0 fileCount =
        searchEntries (fun i => strcmpEq (diskSector img lba) (nameAt (sizeofFileMetadata * i)) name)
          (tfsCountFileMetaEntries fs) 16 0 fileCount :=
      searchEntries_congr fun j _ hj => strcmpEq_congr fun a ha ha' => hbuf a (by
        simp only [nameAt, sizeofFileMetadata] at ha'
        omega)
    simp only [searchSectors, viewSearch, readSector_eq (show lba ≤ 0xfffffff by omega), Res.ok_bind, hsize, hsearch]
    cases hfound : searchEntries (fun i => strcmpEq (diskSector img lba) (nameAt (sizeofFileMetadata * i)) name)
      (tfsCountFileMetaEntries fs) 16 0 fileCount with
    | mk found c =>
      cases found with
      | none =>
        obtain ⟨r', h', hok, hplace, hin, hch⟩ := @ih (h.copyTo sb 512 (diskSector img lba)) (lba + 1) c r (by omega)
          ⟨hr.lba, hr.offset, fun hf b hb => by
            rw [hread.bytes _ fun hin => by have := hin.1; have := hin.2; omega]
            exact hr.entry hf b hb⟩
        exact ⟨r', h', hok, hplace, hin, (hread.mono fun _ => .inl).trans hch⟩
      | some j =>
        have hj : j < 16 := by
          have := searchEntries_lt hfound
          omega
        -- The entry is copied from the buffer to a place apart from it.
        have hcopy : (h.copyTo sb 512 (diskSector img lba)).copyWithin m (sb + sizeofFileMetadata * j) sizeofFileMetadata =
            (h.copyTo sb 512 (diskSector img lba)).copyTo m sizeofFileMetadata
              fun b => (h.copyTo sb 512 (diskSector img lba)).bytes (sb + sizeofFileMetadata * j + b) :=
          copyWithin_eq (by simp only [sizeofFileMetadata]; omega)
        obtain ⟨r', h', hok, hplace, hin, hch⟩ := @ih ((h.copyTo sb 512 (diskSector img lba)).copyTo m sizeofFileMetadata
          fun b => (h.copyTo sb 512 (diskSector img lba)).bytes (sb + sizeofFileMetadata * j + b)) (lba + 1) c
          ⟨true, lba, sizeofFileMetadata * j⟩ (by omega)
          ⟨fun _ => by simp only; omega, fun _ => by simp only [sizeofFileMetadata]; omega, fun _ b hb => by
            simp only [sizeofFileMetadata]
            rw [bytes_copyTo, copy_in (by omega) (by omega), Nat.add_sub_cancel_left, Nat.add_assoc sb,
              ← bytesFrom_eq (by omega), hbuf _ (by omega), diskSector, Nat.add_assoc]⟩
        rw [← hcopy] at hok
        refine ⟨r', h', hok, hplace, hin, (hread.mono fun _ => .inl).trans ((OnlyIn.copyTo ?_ fun x hx hx' => ?_).trans hch)⟩
        · exact .inr ⟨Nat.le_refl _, by omega⟩
        · exact .inr ⟨hx, hx'⟩

/-- The search of a call. -/
theorem metadata_view (K : KernelImage fs) (A : BlocksApart sb fats m) (hlen : name.strlen < 24) : ∃ r h',
    tfsGetFileMetadataFromName fs sb h img name m = .ok (r, h') ∧ place r = viewMetadata fs img name ∧ InMemory img m r h' ∧
      OnlyIn (fun x => InBuffer sb 512 x ∨ InBuffer m 32 x) h h' := by
  have hbelow := A.below; have hhigh := A.high
  have hlt := K.sections_lt
  exact searchSectors_view K (by omega) A.offBuffer hlen (by unfold tfsGetFileMetadataLba; omega) ⟨nofun, nofun, nofun⟩

/-! ## What a call has in memory -/

/-- The memory shows the FAT `F` and the file's entry `entry`. -/
structure Held (sb fats m : Nat) (F entry : Bytes) (h : Heap σ) : Prop extends BlocksApart sb fats m where
  fatsAt_eq : ∀ i < 2 ^ 16, fatsAt (h.bytesFrom fats) i = fatsAt F i
  entry_eq : ∀ k < 32, h.bytesFrom m k = entry k

namespace Held

/-- Reading a sector keeps it. -/
theorem keep (H : Held sb fats m F entry h) (hh : OnlyIn (InBuffer sb 512) h h') : Held sb fats m F entry h' := by
  have hbelow := H.below; have hhigh := H.high; have hoff := H.offBuffer; have hfits := H.fits
  refine ⟨H.toBlocksApart, fun i hi => ?_, fun k hk => ?_⟩
  · rw [← H.fatsAt_eq i hi]
    refine u16_congr fun a _ ha => ?_
    rw [bytesFrom_eq (by omega), bytesFrom_eq (by omega)]
    refine hh.bytes _ fun hin => ?_
    have := hin.2
    omega
  · rw [← H.entry_eq k hk, bytesFrom_eq (by omega), bytesFrom_eq (by omega)]
    refine hh.bytes _ fun hin => ?_
    have := hin.1
    have := hin.2
    omega

theorem firstDataSector_eq (H : Held sb fats m F entry h) : firstDataSector (h.bytesFrom m) 0 = firstDataSector entry 0 :=
  u32_congr fun a _ ha => H.entry_eq a (by omega)

theorem fileSize_eq (H : Held sb fats m F entry h) : fileSize (h.bytesFrom m) 0 = fileSize entry 0 :=
  u32_congr fun a _ ha => H.entry_eq a (by omega)

theorem sector_lt (H : Held sb fats m F entry h) : sb + 512 ≤ 2 ^ 32 := by
  have hbelow := H.below; have hhigh := H.high
  omega

/-- Skipping sectors follows the FAT in memory. -/
theorem skipTraced_eq (H : Held sb fats m F entry h) (hx : x < 2 ^ 16) :
    skipTraced (fatsAt (h.bytesFrom fats)) k x = skipTraced (fatsAt F) k x := by
  induction k generalizing x with
  | zero => rfl
  | succ k ih =>
    have hstep : TagFS.readEntry (fatsAt (h.bytesFrom fats)) x = TagFS.readEntry (fatsAt F) x := by
      unfold TagFS.readEntry
      rw [H.fatsAt_eq x hx]
    rw [skipTraced, skipTraced, hstep]
    refine Traced.bind_congr_val ?_
    show (if fatsAt F x = 0xffff then _ else skipTraced (fatsAt (h.bytesFrom fats)) k (fatsAt F x)) =
      if fatsAt F x = 0xffff then _ else skipTraced (fatsAt F) k (fatsAt F x)
    rw [ih fatsAt_lt]

end Held

/-! ## The calls without their accesses -/

theorem skipTraced_fats (fats : Bytes) (k g : Nat) : (skipTraced (fatsAt fats) k g).val = skipFats fats k g := by
  induction k generalizing g with
  | zero => rfl
  | succ k ih => rw [skipTraced_succ_val, skipFats, ih]

theorem restTraced_fats (fs : FSMetadata) (disk fats : Bytes) (size fileSize fuel : Nat) (buf : Bytes) (bufIndex g : Nat) :
    (restTraced (fatsAt fats) (fun i => diskSector disk (tfsSectorLba fs i)) fs.sectorSize size fileSize fuel buf bufIndex
      g).val.2 = viewReadRest fs disk fats size fileSize fuel buf bufIndex g := by
  induction fuel generalizing buf bufIndex g with
  | zero => rfl
  | succ fuel ih =>
    rw [restTraced, viewReadRest]
    split
    · split
      · rfl
      · exact ih _ _ _
    · rfl

theorem viewReadTraced_val (fs : FSMetadata) (disk view : Bytes) (path : CStr) (buffer : Bytes) (readSize offset : Nat) :
    (viewReadTraced fs disk view path buffer readSize offset).val = viewRead fs disk view path buffer readSize offset := by
  unfold viewReadTraced viewRead
  cases viewMetadata fs disk path with
  | none => rfl
  | some e =>
    simp only [Traced.val_bind, skipTraced_fats]
    cases skipFats (viewFats fs disk view) (offset / fs.sectorSize) _ with
    | none => rfl
    | some x =>
      simp only [viewReadSectors, Traced.val_bind, readData, Traced.val_record]
      split
      · rfl
      · simp only [Traced.val_bind, restTraced_fats, Traced.val_pure]

section

variable (S : PageSupply σ) (fs : FSMetadata) (sb : Nat) (disk : Bytes) (fats m : Nat) (h : Heap σ) (path : CStr)
  (buffer : Bytes) (readSize offset : Nat)

theorem tfsReadRestTraced_val (fuel bufIndex x : Nat) :
    (tfsReadRestTraced fs sb disk fats m readSize fuel h buffer bufIndex x).val =
      tfsReadRest fs sb disk fats m readSize fuel h buffer bufIndex x := by
  induction fuel generalizing h buffer bufIndex x with
  | zero => rfl
  | succ fuel ih =>
    rw [tfsReadRestTraced, tfsReadRest]
    split
    · split
      · rfl
      · simp only [Traced.val_bind, TagFS.readEntry, Traced.val_record, Traced.val_after, ih]
    · rfl

theorem tfsReadDataTraced_val (x : Nat) : (tfsReadDataTraced fs sb disk fats m h buffer readSize offset x).val =
    tfsReadData fs sb disk fats m h buffer readSize offset x := by
  simp only [tfsReadDataTraced, tfsReadData, Traced.val_bind, Traced.val_record, Traced.val_after]
  congr 1
  funext h
  split
  · rfl
  · simp only [Traced.val_bind, tfsReadRestTraced_val, Traced.val_pure]

theorem tfsReadFileTraced_val : (tfsReadFileTraced fs sb disk fats m h path buffer readSize offset).val =
    tfsReadFile fs sb disk fats m h path buffer readSize offset := by
  simp only [tfsReadFileTraced, tfsReadFile, Traced.val_after]
  congr 1
  funext r
  split
  · rfl
  · simp only [Traced.val_bind, skipTraced_fats]
    cases skipFats (r.2.bytesFrom fats) (offset / fs.sectorSize) (firstDataSector (r.2.bytesFrom m) 0) with
    | none => rfl
    | some x => exact tfsReadDataTraced_val fs sb disk fats m r.2 buffer readSize offset x

theorem tfsReadTraced_val (fuel : Nat) : (tfsReadTraced S fs sb fuel h disk path buffer readSize offset).val =
    tfsRead S fs sb fuel h disk path buffer readSize offset := by
  simp only [tfsReadTraced, tfsRead, Traced.val_after, Traced.val_bind, Traced.val_pure, tfsReadFileTraced_val]

end

/-! ## Reading -/

/-- The loop over the sectors after the first. -/
theorem readRest_view (K : KernelImage fs) (fuel : Nat) (H : Held sb fats m F entry h) (hx : x < 2 ^ 16) :
    ∃ h', OnlyIn (InBuffer sb 512) h h' ∧
      (tfsReadRestTraced fs sb img fats m size fuel h buf bufIndex x).val =
        .ok ((restTraced (fatsAt F) (fun i => diskSector img (tfsSectorLba fs i)) fs.sectorSize size (fileSize entry 0) fuel buf
          bufIndex x).val.2, h') ∧
      (tfsReadRestTraced fs sb img fats m size fuel h buf bufIndex x).trace =
        (restTraced (fatsAt F) (fun i => diskSector img (tfsSectorLba fs i)) fs.sectorSize size (fileSize entry 0) fuel buf
          bufIndex x).trace := by
  induction fuel generalizing h buf bufIndex x with
  | zero => exact ⟨h, .refl _ h, rfl, rfl⟩
  | succ fuel ih =>
    rw [tfsReadRestTraced, restTraced, H.fileSize_eq]
    split
    · split
      · exact ⟨h, .refl _ h, rfl, rfl⟩
      · -- The next sector.
        have hnext : fatsAt F x < 2 ^ 16 := fatsAt_lt
        have hlba := K.sectorLba_le hnext
        have hread : OnlyIn (InBuffer sb 512) h (h.copyTo sb 512 (diskSector img (tfsSectorLba fs (fatsAt F x)))) :=
          .copyTo ⟨Nat.le_refl _, by omega⟩ fun x hx hx' => ⟨hx, hx'⟩
        have hcopy : copy buf bufIndex (if size ≤ bufIndex + fs.sectorSize then size - bufIndex else fs.sectorSize)
            ((h.copyTo sb 512 (diskSector img (tfsSectorLba fs (fatsAt F x)))).bytesFrom sb) =
            copy buf bufIndex (if size ≤ bufIndex + fs.sectorSize then size - bufIndex else fs.sectorSize)
              (diskSector img (tfsSectorLba fs (fatsAt F x))) := by
          refine copy_congr_src fun k hk => bytesFrom_sector H.sector_lt ?_
          rw [K.sectorSize_eq] at hk
          split at hk <;> omega
        obtain ⟨h', hch, hval, htrace⟩ := @ih (copy buf bufIndex (if size ≤ bufIndex + fs.sectorSize then size - bufIndex else
          fs.sectorSize) (diskSector img (tfsSectorLba fs (fatsAt F x)))) (h.copyTo sb 512 (diskSector img (tfsSectorLba fs
            (fatsAt F x)))) (fatsAt F x) (bufIndex + if size ≤ bufIndex + fs.sectorSize then size - bufIndex else fs.sectorSize)
          (H.keep hread) hnext
        refine ⟨h', hread.trans hch, ?_, ?_⟩
        · simp only [Traced.val_bind, TagFS.readEntry, Traced.val_record, H.fatsAt_eq x hx, readSector_eq hlba, Traced.after,
            hcopy, hval, readData]
        · simp only [Traced.trace_bind, TagFS.readEntry, Traced.val_record, Traced.trace_record, H.fatsAt_eq x hx,
            readSector_eq hlba, Traced.after, hcopy, htrace, readData]
    · exact ⟨h, .refl _ h, rfl, rfl⟩

/-- From the sector on in which the window begins. -/
theorem readData_view (K : KernelImage fs) (H : Held sb fats m F entry h) (hx : x < 2 ^ 16) :
    ∃ h', OnlyIn (InBuffer sb 512) h h' ∧
      (tfsReadDataTraced fs sb img fats m h buf size offset x).val =
        .ok ((viewReadSectors fs img F (fileSize entry 0) buf size offset x).val.1,
          (viewReadSectors fs img F (fileSize entry 0) buf size offset x).val.2, h') ∧
      (tfsReadDataTraced fs sb img fats m h buf size offset x).trace =
        (viewReadSectors fs img F (fileSize entry 0) buf size offset x).trace := by
  have hlba := K.sectorLba_le hx
  have hr : offset % fs.sectorSize < 512 := by
    rw [K.sectorSize_eq]
    exact Nat.mod_lt _ (by decide)
  have hs := K.sectorSize_eq
  have hread : OnlyIn (InBuffer sb 512) h (h.copyTo sb 512 (diskSector img (tfsSectorLba fs x))) :=
    .copyTo ⟨Nat.le_refl _, by omega⟩ fun x hx hx' => ⟨hx, hx'⟩
  have hcopy {n : Nat} (hn : offset % fs.sectorSize + n ≤ 512) :
      (copy buf 0 n fun k => (h.copyTo sb 512 (diskSector img (tfsSectorLba fs x))).bytesFrom sb (offset % fs.sectorSize + k)) =
        copy buf 0 n fun k => diskSector img (tfsSectorLba fs x) (offset % fs.sectorSize + k) :=
    copy_congr_src fun k hk => bytesFrom_sector H.sector_lt (by omega)
  simp only [tfsReadDataTraced, viewReadSectors, readSector_eq hlba, Traced.val_bind, Traced.trace_bind, Traced.val_record,
    Traced.trace_record, Traced.after, readData]
  split
  · rename_i hone
    rw [hcopy (by omega)]
    exact ⟨_, hread, rfl, rfl⟩
  · rw [hcopy (by omega)]
    obtain ⟨h', hch, hval, htrace⟩ := @readRest_view σ fs img entry (copy buf 0 (fs.sectorSize - offset % fs.sectorSize) fun k =>
      diskSector img (tfsSectorLba fs x) (offset % fs.sectorSize + k)) F _ sb fats m x size
      (fs.sectorSize - offset % fs.sectorSize) K size (H.keep hread) hx
    refine ⟨h', hread.trans hch, ?_, ?_⟩
    · simp only [Traced.val_bind, hval]
      rfl
    · simp only [Traced.trace_bind, htrace, Traced.trace_pure]

/-- The memory once the FAT is loaded. -/
theorem held_of_load (A : BlocksApart sb fats m) (hload : ∀ k < 512, h.bytes (fats + k) = diskSector img (tfsGetFatLba fs) k)
    (hentry : ∀ k < 32, h.bytesFrom m k = entry k) : Held sb fats m (viewFats fs img (h.bytesFrom fats)) entry h := by
  have hhigh := A.high
  have hfats : viewFats fs img (h.bytesFrom fats) = h.bytesFrom fats := by
    funext a
    unfold viewFats
    by_cases ha : a < 512
    · rw [copy_in (by omega) (by omega), Nat.sub_zero, bytesFrom_eq (by omega), hload a ha]
    · exact copy_out (by omega)
  exact ⟨A, fun i _ => by rw [hfats], hentry⟩

/-- The memory once an entry is found. -/
theorem held_of_found {r : FileMetadataResult} (A : BlocksApart sb fats m) (hfound : r.found = true) (hin : InMemory img m r h)
    (hload : ∀ k < 512, h.bytes (fats + k) = diskSector img (tfsGetFatLba fs) k) :
    Held sb fats m (viewFats fs img (h.bytesFrom fats)) (fun k => img (512 * r.lba + r.offset + k)) h := by
  have hfits := A.fits
  refine held_of_load A hload fun k hk => ?_
  rw [bytesFrom_eq (by omega)]
  exact hin.entry hfound k hk

/-- The word of an entry, read where it lies in the image. -/
theorem u32_shift {e o : Nat} : u32 (fun k => img (e + k)) o = u32 img (e + o) := by
  simp only [u32, u16, Nat.add_assoc]

/-- A read up to its end, once the FAT is loaded. -/
theorem readFile_view (K : KernelImage fs) (A : BlocksApart sb fats m) (hlen : name.strlen < 24)
    (hfirst : ∀ e, viewMetadata fs img name = some e → firstDataSector img (512 * e.1 + e.2) < 2 ^ 16)
    (hload : ∀ k < 512, h.bytes (fats + k) = diskSector img (tfsGetFatLba fs) k) :
    ∃ view, Shows view (fun k => h.bytes (fats + k)) ∧ ∀ buf size offset, ∃ h',
      OnlyIn (InBlocks sb fats m) h h' ∧ (tfsReadFileTraced fs sb img fats m h name buf size offset).val =
        .ok ((viewReadTraced fs img view name buf size offset).val.1,
          (viewReadTraced fs img view name buf size offset).val.2, h') ∧
      (tfsReadFileTraced fs sb img fats m h name buf size offset).trace =
        (viewReadTraced fs img view name buf size offset).trace := by
  have hbelow := A.below; have hhigh := A.high; have hoff := A.offFats
  obtain ⟨r, h₃, hsearch, hplace, hin, hch⟩ := @metadata_view σ fs img name h sb fats m K A hlen
  have hkeep : ∀ k < 1024, h₃.bytes (fats + k) = h.bytes (fats + k) := fun k hk => hch.bytes _ fun hin => by
    rcases hin with hin | hin <;>
    · have := hin.1
      have := hin.2
      omega
  have hch' : OnlyIn (InBlocks sb fats m) h h₃ := hch.mono fun x hx => hx.imp_right .inr
  refine ⟨h₃.bytesFrom fats, fun k _ hk => by rw [bytesFrom_eq (by omega), hkeep k hk], fun buf size offset => ?_⟩
  cases hfound : r.found with
  | false =>
    have hnone : viewMetadata fs img name = none := by
      rw [← hplace, place, if_neg (by rw [hfound]; decide)]
    refine ⟨h₃, hch', ?_, ?_⟩ <;>
    · simp only [tfsReadFileTraced, hsearch, Traced.after, hfound, viewReadTraced, hnone]
      rfl
  | true =>
    have hsome : viewMetadata fs img name = some (r.lba, r.offset) := by
      rw [← hplace, place, if_pos hfound]
    have H := @held_of_found σ fs img h₃ sb fats m r A hfound hin fun k hk => (hkeep k (by omega)).trans (hload k hk)
    have hfirst' : firstDataSector (h₃.bytesFrom m) 0 = firstDataSector img (512 * r.lba + r.offset) :=
      H.firstDataSector_eq.trans u32_shift
    have hx := hfirst _ hsome
    have hsize : fileSize (fun k => img (512 * r.lba + r.offset + k)) 0 = fileSize img (512 * r.lba + r.offset) := u32_shift
    simp only [tfsReadFileTraced, hsearch, Traced.after, hfound, viewReadTraced, hsome, Bool.not_true, Bool.false_eq_true,
      ↓reduceIte, hfirst', H.skipTraced_eq hx, Traced.val_bind, Traced.trace_bind]
    cases hskip : (skipTraced (fatsAt (viewFats fs img (h₃.bytesFrom fats))) (offset / fs.sectorSize)
      (firstDataSector img (512 * r.lba + r.offset))).val with
    | none => exact ⟨h₃, hch', rfl, rfl⟩
    | some x =>
      obtain ⟨h₄, hch₄, hval, htrace⟩ := @readData_view σ fs img _ buf _ _ sb fats m x size offset K H
        (skipFats_lt hx (by rwa [skipTraced_fats] at hskip))
      rw [hsize] at hval htrace
      exact ⟨h₄, hch'.trans (hch₄.mono fun _ => .inl), hval, by rw [htrace]⟩

/-- What `tfs_read` does with its blocks placed, and what it accesses. -/
theorem Placed.read (P : Placed S fs img sb h fats m h₂ Q) (K : KernelImage fs) (hlen : name.strlen < 24)
    (hfirst : ∀ e, viewMetadata fs img name = some e → firstDataSector img (512 * e.1 + e.2) < 2 ^ 16) :
    ∃ view, Shows view (fun k => h.bytes (fats + k)) ∧ ∀ buf size offset,
      (∃ h', Q h' ∧ Res.Returns (fun fuel => tfsRead S fs sb fuel h img name buf size offset)
        ((viewRead fs img view name buf size offset).1, (viewRead fs img view name buf size offset).2, h')) ∧
      ∀ R : Access → Prop, (∀ fuel, (tfsReadTraced S fs sb fuel h img name buf size offset).All R) ↔
        (viewReadTraced fs img view name buf size offset).All R := by
  obtain ⟨h₁, hload, halloc⟩ := P.allocated
  obtain ⟨view, hview, hread⟩ := readFile_view K P.toBlocksApart hlen hfirst P.first
  refine ⟨view, fun k hk hk' => (hview k hk hk').trans (P.second k hk hk'), fun buf size offset => ?_⟩
  obtain ⟨h₃, hch, hval, htrace⟩ := hread buf size offset
  rw [viewReadTraced_val] at hval
  obtain ⟨h₄, hfree, hQ⟩ := P.freed h₃ hch
  constructor
  · refine ⟨h₄, hQ, ?_⟩
    simp only [tfsRead, Res.assert_bind K.fats_eq]
    refine hload.bind (halloc.bind ?_)
    simp only [← tfsReadFileTraced_val, hval, Res.ok_bind, ← bind_assoc]
    exact hfree.bind (Res.Returns.ok _)
  · intro R
    rw [Traced.All, ← htrace]
    constructor
    · intro hall e he
      obtain ⟨n, hn⟩ := hload.enough
      obtain ⟨n', hn'⟩ := halloc.enough
      refine hall (max n n') e ?_
      simp only [tfsReadTraced, Traced.after, Res.assert, K.fats_eq, ↓reduceIte, hn _ (Nat.le_max_left n n'),
        hn' _ (Nat.le_max_right n n'), Traced.trace_bind, Traced.trace_pure, List.append_nil]
      exact he
    · intro hall fuel
      refine Traced.all_after.mpr fun _ _ => Traced.all_after.mpr fun r hr => ?_
      obtain rfl := hload.only fuel r hr
      refine Traced.all_after.mpr fun r hr => ?_
      obtain rfl := halloc.only fuel r hr
      exact Traced.all_bind.mpr ⟨hall, Traced.all_pure⟩

/-! ## Writing -/

/-- A free entry is searched for among the 512 of the FAT. -/
theorem tfsFindFreeFat_congr {F' : Bytes} (K : KernelImage fs) (hF : ∀ i < 512, fatsAt F i = fatsAt F' i) :
    tfsFindFreeFat fs F = tfsFindFreeFat fs F' := by
  have hcount : fs.fatSectorCount * fs.sectorSize % 2 ^ 32 / 2 = 512 := K.fatCount_eq
  have hscan : scan (fun i => fatsAt F i == 0) 512 0 = scan (fun i => fatsAt F' i == 0) 512 0 :=
    scan_congr fun i _ hi => by rw [hF i hi]
  simp only [tfsFindFreeFat, hcount, hscan]

/-- What it finds. -/
theorem tfsFindFreeFat_some (K : KernelImage fs) (h : tfsFindFreeFat fs F = some x) : x < 512 ∧ fatsAt F x = 0 := by
  have hcount : fs.fatSectorCount * fs.sectorSize % 2 ^ 32 / 2 = 512 := K.fatCount_eq
  simp only [tfsFindFreeFat, hcount] at h
  split at h
  · rename_i hlt
    obtain rfl := Option.some.inj h
    exact ⟨hlt, beq_iff_eq.mp (scan_spec (p := fun i => fatsAt F i == 0) hlt)⟩
  · cases h

/-- The loop over the sectors after the first. -/
theorem writeRest_view (K : KernelImage fs) (fuel : Nat) (H : Held sb fats m F entry h) :
    ∃ h', OnlyIn (InBuffer sb 512) h h' ∧ tfsWriteRest fs sb fats buf size fuel img h bufIndex =
      .ok ((viewWriteRest fs F buf size fuel img bufIndex).1, h', (viewWriteRest fs F buf size fuel img bufIndex).2) := by
  induction fuel generalizing h img bufIndex with
  | zero => exact ⟨h, .refl _ h, rfl⟩
  | succ fuel ih =>
    have hfree : tfsFindFreeFat fs (h.bytesFrom fats) = tfsFindFreeFat fs F :=
      tfsFindFreeFat_congr K fun i hi => H.fatsAt_eq i (by omega)
    rw [tfsWriteRest, viewWriteRest, hfree]
    split
    · cases hsome : tfsFindFreeFat fs F with
      | none => exact ⟨h, .refl _ h, rfl⟩
      | some g =>
        have hg := (tfsFindFreeFat_some K hsome).1
        have hs := K.sectorSize_eq
        obtain ⟨h', hpatch, hch⟩ := @patchSector_view σ img h sb (tfsSectorLba fs g)
          (if size ≤ bufIndex + fs.sectorSize then size - bufIndex else fs.sectorSize) 0
          (·.copyTo sb (if size ≤ bufIndex + fs.sectorSize then size - bufIndex else fs.sectorSize) fun k => buf (bufIndex + k))
          (fun k => buf (bufIndex + k)) H.sector_lt (K.sectorLba_le (by omega)) (by decide) (by split <;> omega) rfl
        obtain ⟨h'', hch', hrest⟩ := @ih (patchedSector img (tfsSectorLba fs g) 0
          (if size ≤ bufIndex + fs.sectorSize then size - bufIndex else fs.sectorSize) fun k => buf (bufIndex + k)) h'
          (bufIndex + if size ≤ bufIndex + fs.sectorSize then size - bufIndex else fs.sectorSize) (H.keep hch)
        exact ⟨h'', hch.trans hch', by simp only [hpatch, Res.ok_bind, hrest]⟩
    · exact ⟨h, .refl _ h, rfl⟩

/-- Raising the size in memory. -/
theorem growFile_view (hm : m + 32 ≤ 2 ^ 32) (hentry : ∀ k < 32, h.bytesFrom m k = entry k) (n : Nat) :
    OnlyIn (InBuffer m 32) h (tfsGrowFile h m n) ∧ ∀ k < 32, (tfsGrowFile h m n).bytesFrom m k = growFile entry 0 n k := by
  have hsize : fileSize (h.bytesFrom m) 0 = fileSize entry 0 := u32_congr fun a _ ha => hentry a (by omega)
  unfold tfsGrowFile growFile
  rw [hsize, Nat.mod_eq_of_lt (show m + 4 < 2 ^ 32 by omega)]
  split
  · refine ⟨.copyTo ⟨by omega, by omega⟩ fun x hx hx' => ⟨by omega, by omega⟩, fun k hk => ?_⟩
    rw [bytesFrom_eq (by omega), bytes_copyTo, copy_add, setFileSize, setU32, Nat.zero_add]
    by_cases hin : 4 ≤ k ∧ k < 4 + 4
    · rw [if_pos hin, copy_in hin.1 hin.2]
    · rw [if_neg hin, copy_out (by omega), ← bytesFrom_eq (by omega), hentry k hk]
  · exact ⟨.refl _ h, hentry⟩

/-- From the sector on in which the write begins. -/
theorem writeData_view {r : Nat} (K : KernelImage fs) (H : Held sb fats m F entry h) (hx : x < 512) (hr : r < 512) :
    ∃ h', OnlyIn (InBlocks sb fats m) h h' ∧
      tfsWriteData fs sb img fats m h buf size offset r x = .ok ((viewWriteSectors fs img F buf size r x).1, h') ∧
      ∀ k < 32, h'.bytesFrom m k = growFile entry 0 ((offset + (viewWriteSectors fs img F buf size r x).2) % 2 ^ 32) k := by
  have hlba := K.sectorLba_le (show x < 2 ^ 16 by omega)
  have hs := K.sectorSize_eq
  have hhigh := H.high; have hoff := H.offFats; have hfits := H.fits
  have hto : (sb + r) % 2 ^ 32 = sb + r := Nat.mod_eq_of_lt (by have := H.sector_lt; omega)
  unfold tfsWriteData viewWriteSectors
  split
  · rename_i hone
    obtain ⟨h₁, hpatch, hch⟩ := @patchSector_view σ img h sb (tfsSectorLba fs x) size r
      (·.copyTo ((sb + r) % 2 ^ 32) size buf) buf H.sector_lt hlba hr (by omega) (by rw [hto])
    have H₁ := H.keep hch
    -- The entry of the FAT is marked in memory.
    obtain ⟨h₂, hmark, hch₂, hentry⟩ : ∃ h₂, (if fatsAt (h₁.bytesFrom fats) x = 0 then
        h₁.copyTo ((fats + 2 * x) % 2 ^ 32) 2 (byte 0xffff) else h₁) = h₂ ∧ OnlyIn (InBuffer fats 1024) h₁ h₂ ∧
        ∀ k < 32, h₂.bytesFrom m k = entry k := by
      refine ⟨_, rfl, ?_⟩
      rw [Nat.mod_eq_of_lt (show fats + 2 * x < 2 ^ 32 by omega)]
      split
      · refine ⟨.copyTo ⟨by omega, by omega⟩ fun x hx hx' => ⟨by omega, by omega⟩, fun k hk => ?_⟩
        rw [bytesFrom_eq (by omega), bytes_copyTo, copy_out (by omega), ← bytesFrom_eq (by omega), H₁.entry_eq k hk]
      · exact ⟨.refl _ h₁, H₁.entry_eq⟩
    obtain ⟨hch₃, hgrow⟩ := growFile_view hfits hentry ((offset + size) % 2 ^ 32)
    refine ⟨tfsGrowFile h₂ m ((offset + size) % 2 ^ 32), (hch.mono fun _ => .inl).trans ((hch₂.mono fun _ h => .inr (.inl h)).trans
      (hch₃.mono fun _ h => .inr (.inr h))), ?_, hgrow⟩
    simp only [hpatch, Res.ok_bind, hmark]
  · obtain ⟨h₁, hpatch, hch⟩ := @patchSector_view σ img h sb (tfsSectorLba fs x) (fs.sectorSize - r) r
      (·.copyTo ((sb + r) % 2 ^ 32) (fs.sectorSize - r) buf) buf H.sector_lt hlba hr (by omega) (by rw [hto])
    obtain ⟨h₂, hch₂, hrest⟩ := @writeRest_view σ fs (patchedSector img (tfsSectorLba fs x) r (fs.sectorSize - r) buf) entry buf F h₁
      sb fats m size (fs.sectorSize - r) K size (H.keep hch)
    obtain ⟨hch₃, hgrow⟩ := growFile_view hfits ((H.keep hch).keep hch₂).entry_eq ((offset +
      (viewWriteRest fs F buf size size (patchedSector img (tfsSectorLba fs x) r (fs.sectorSize - r) buf) (fs.sectorSize - r)).2) %
        2 ^ 32)
    refine ⟨_, ((hch.trans hch₂).mono fun _ => .inl).trans (hch₃.mono fun _ h => .inr (.inr h)), ?_, hgrow⟩
    simp only [hpatch, Res.ok_bind, hrest]

/-- The sector in which a write of the file begins. -/
def Arrives (fs : FSMetadata) (img view : Bytes) (name : CStr) (offset x : Nat) : Prop :=
  ∃ e fileMeta g, viewMetadata fs img name = some e ∧
    viewStartOfFile fs (viewFats fs img view) (diskSector img e.1 <| e.2 + ·) = some (fileMeta, g) ∧
    skipFats (viewFats fs img view) (writeStart fileMeta 0 offset / fs.sectorSize) g = some x

/-- The first sector of the file, which is set in memory. -/
theorem startOfFile_view (K : KernelImage fs) (A : BlocksApart sb fats m) (hF : ∀ i < 512, fatsAt (h.bytesFrom fats) i = fatsAt F i)
    (hentry : ∀ k < 32, h.bytesFrom m k = entry k) (hfirst : firstDataSector entry 0 < 2 ^ 16) :
    viewStartOfFile fs F entry = none ∧ tfsStartOfFile fs h fats m = none ∨
      ∃ entry' g h', viewStartOfFile fs F entry = some (entry', g) ∧ tfsStartOfFile fs h fats m = some (h', g) ∧ g < 2 ^ 16 ∧
        OnlyIn (InBuffer m 32) h h' ∧ ∀ k < 32, h'.bytesFrom m k = entry' k := by
  have hfits := A.fits
  have hmem : firstDataSector (h.bytesFrom m) 0 = firstDataSector entry 0 := u32_congr fun a _ ha => hentry a (by omega)
  unfold viewStartOfFile tfsStartOfFile
  rw [hmem, tfsFindFreeFat_congr K hF]
  split
  · cases hfree : tfsFindFreeFat fs F with
    | none => exact .inl ⟨rfl, rfl⟩
    | some g =>
      have hg := (tfsFindFreeFat_some K hfree).1
      refine .inr ⟨_, g, _, rfl, rfl, by omega, .copyTo ⟨Nat.le_refl _, by omega⟩ fun x hx hx' => ⟨hx, by omega⟩, fun k hk => ?_⟩
      rw [bytesFrom_eq (by omega), bytes_copyTo, setFirstDataSector, setU32]
      by_cases hin : k < 4
      · rw [copy_in (by omega) (by omega), copy_in (by omega) (by omega), Nat.add_sub_cancel_left, Nat.sub_zero]
      · rw [copy_out (by omega), copy_out (by omega), ← bytesFrom_eq (by omega), hentry k hk]
  · exact .inr ⟨_, _, h, rfl, rfl, hfirst, .refl _ h, hentry⟩

/-- A free entry that it takes is one of the FAT. -/
theorem viewStartOfFile_congr {F' : Bytes} (K : KernelImage fs) (hF : ∀ i < 512, fatsAt F i = fatsAt F' i) :
    viewStartOfFile fs F entry = viewStartOfFile fs F' entry := by
  unfold viewStartOfFile
  rw [tfsFindFreeFat_congr K hF]

/-- The memory once the file has a first sector. The FAT is still the one that was loaded. -/
theorem started_view (K : KernelImage fs) (H : Held sb fats m (viewFats fs img (h.bytesFrom fats)) entry h)
    (hload : ∀ k < 512, h.bytes (fats + k) = diskSector img (tfsGetFatLba fs) k) (hfirst : firstDataSector entry 0 < 2 ^ 16) :
    viewStartOfFile fs (viewFats fs img (h.bytesFrom fats)) entry = none ∧ tfsStartOfFile fs h fats m = none ∨
      ∃ entry' g h', viewStartOfFile fs (viewFats fs img (h'.bytesFrom fats)) entry = some (entry', g) ∧
        tfsStartOfFile fs h fats m = some (h', g) ∧ g < 2 ^ 16 ∧ OnlyIn (InBuffer m 32) h h' ∧
        (∀ k < 1024, h'.bytes (fats + k) = h.bytes (fats + k)) ∧
        Held sb fats m (viewFats fs img (h'.bytesFrom fats)) entry' h' := by
  have hhigh := H.high; have hoff := H.offFats
  refine (startOfFile_view K H.toBlocksApart (fun i hi => H.fatsAt_eq i (by omega)) H.entry_eq hfirst).imp_right ?_
  rintro ⟨entry', g, h', hstart, hstart', hg, hch, hentry'⟩
  have hkeep : ∀ k < 1024, h'.bytes (fats + k) = h.bytes (fats + k) := fun k hk => hch.bytes _ fun hin => by
    have := hin.1
    have := hin.2
    omega
  have H' := @held_of_load σ fs img entry' h' sb fats m H.toBlocksApart
    (fun k hk => (hkeep k (by omega)).trans (hload k hk)) hentry'
  refine ⟨entry', g, h', ?_, hstart', hg, hch, hkeep, H'⟩
  rw [viewStartOfFile_congr K fun i hi => ?_, hstart]
  rw [← H'.fatsAt_eq i (by omega), ← H.fatsAt_eq i (by omega)]
  exact u16_congr fun a _ ha => by rw [bytesFrom_eq (by omega), bytesFrom_eq (by omega), hkeep a (by omega)]

/-- The data is written, and the entry back from memory. -/
theorem writeEntry_view {r : Nat} (K : KernelImage fs) (H : Held sb fats m F entry h) (hx : x < 512) (hr : r < 512)
    (hlba : lba ≤ 0xfffffff) (ho : o + 32 ≤ 512) :
    ∃ h₁ h₂, OnlyIn (InBlocks sb fats m) h h₂ ∧
      tfsWriteData fs sb img fats m h buf size offset r x = .ok ((viewWriteSectors fs img F buf size r x).1, h₁) ∧
      patchSector sb (viewWriteSectors fs img F buf size r x).1 h₁ lba
        (·.copyWithin ((sb + o) % 2 ^ 32) m sizeofFileMetadata) =
        .ok (patchedSector (viewWriteSectors fs img F buf size r x).1 lba o sizeofFileMetadata
          (growFile entry 0 ((offset + (viewWriteSectors fs img F buf size r x).2) % 2 ^ 32)), h₂) := by
  have hhigh := H.high; have hfits := H.fits; have hoff := H.offBuffer
  obtain ⟨h₁, hch₁, hdata, hentry⟩ := @writeData_view σ fs img entry buf F h sb fats m x size offset r K H hx hr
  have hsb := H.sector_lt
  have hto : (sb + o) % 2 ^ 32 = sb + o := Nat.mod_eq_of_lt (by omega)
  obtain ⟨h₂, hpatch, hch₂⟩ := @patchSector_view σ (viewWriteSectors fs img F buf size r x).1 h₁ sb lba sizeofFileMetadata o
    (·.copyWithin ((sb + o) % 2 ^ 32) m sizeofFileMetadata) _ hsb hlba (by omega) ho (by
      rw [hto, copyWithin_eq (by simp only [sizeofFileMetadata]; omega)])
  refine ⟨h₁, h₂, hch₁.trans (hch₂.mono fun _ => .inl), hdata, hpatch.trans ?_⟩
  -- The sector that is read is not where the entry is.
  rw [patchedSector_congr fun k (hk : k < 32) => ?_]
  rw [← hentry k hk, bytesFrom_eq (by omega), bytes_copyTo, copy_out (by omega)]

/-- A write up to its end, once the FAT is loaded. -/
theorem writeFile_view (K : KernelImage fs) (A : BlocksApart sb fats m) (hlen : name.strlen < 24)
    (hfirst : ∀ e, viewMetadata fs img name = some e → firstDataSector img (512 * e.1 + e.2) < 2 ^ 16)
    (hload : ∀ k < 512, h.bytes (fats + k) = diskSector img (tfsGetFatLba fs) k) :
    ∃ view, Shows view (fun k => h.bytes (fats + k)) ∧ ∀ buf size offset,
      (∀ x, Arrives fs img view name offset x → x < 512) → ∃ h', OnlyIn (InBlocks sb fats m) h h' ∧
        tfsWriteFile fs sb img fats m h name buf size offset =
          .ok ((viewWrite fs img view name buf size offset).1, (viewWrite fs img view name buf size offset).2, h') := by
  have hbelow := A.below; have hhigh := A.high; have hoff := A.offFats
  obtain ⟨r, h₃, hsearch, hplace, hin, hch⟩ := @metadata_view σ fs img name h sb fats m K A hlen
  have hkeep : ∀ k < 1024, h₃.bytes (fats + k) = h.bytes (fats + k) := fun k hk => hch.bytes _ fun hin => by
    rcases hin with hin | hin <;>
    · have := hin.1
      have := hin.2
      omega
  have hch' : OnlyIn (InBlocks sb fats m) h h₃ := hch.mono fun x hx => hx.imp_right .inr
  cases hfound : r.found with
  | false =>
    have hnone : viewMetadata fs img name = none := by
      rw [← hplace, place, if_neg (by rw [hfound]; decide)]
    refine ⟨h₃.bytesFrom fats, fun k _ hk => by rw [bytesFrom_eq (by omega), hkeep k hk], fun buf size offset _ => ⟨h₃, hch', ?_⟩⟩
    simp only [tfsWriteFile, hsearch, Res.ok_bind, hfound, viewWrite, hnone]
    rfl
  | true =>
    have hsome : viewMetadata fs img name = some (r.lba, r.offset) := by
      rw [← hplace, place, if_pos hfound]
    have H := @held_of_found σ fs img h₃ sb fats m r A hfound hin fun k hk => (hkeep k (by omega)).trans (hload k hk)
    have hentry : (diskSector img r.lba <| r.offset + · : Bytes) = fun k => img (512 * r.lba + r.offset + k) := by
      funext k
      rw [diskSector, Nat.add_assoc]
    have hx : firstDataSector (fun k => img (512 * r.lba + r.offset + k)) 0 < 2 ^ 16 := u32_shift.trans_lt (hfirst _ hsome)
    rcases started_view K H (fun k hk => (hkeep k (by omega)).trans (hload k hk)) hx with
      ⟨hstart, hstart'⟩ | ⟨entry', g, h₄, hstart₄, hstart', hg, hch₄, hkeep₄, H₄⟩
    · refine ⟨h₃.bytesFrom fats, fun k _ hk => by rw [bytesFrom_eq (by omega), hkeep k hk],
        fun buf size offset _ => ⟨h₃, hch', ?_⟩⟩
      simp only [tfsWriteFile, hsearch, Res.ok_bind, hfound, hstart', viewWrite, hsome, hentry, hstart]
      rfl
    · -- What the rest of the call sees is the memory now.
      refine ⟨h₄.bytesFrom fats, fun k _ hk => by rw [bytesFrom_eq (by omega), hkeep₄ k hk, hkeep k hk],
        fun buf size offset harrive => ?_⟩
      have hch₄' : OnlyIn (InBlocks sb fats m) h h₄ := hch'.trans (hch₄.mono fun _ h => .inr (.inr h))
      have hwrite : writeStart (h₄.bytesFrom m) 0 offset = writeStart entry' 0 offset := by
        unfold writeStart
        rw [H₄.fileSize_eq]
      have hskip : skipFats (h₄.bytesFrom fats) (writeStart entry' 0 offset / fs.sectorSize) g =
          skipFats (viewFats fs img (h₄.bytesFrom fats)) (writeStart entry' 0 offset / fs.sectorSize) g := by
        rw [← skipTraced_fats, ← skipTraced_fats, H₄.skipTraced_eq hg]
      simp only [tfsWriteFile, hsearch, Res.ok_bind, hfound, Bool.not_true, Bool.false_eq_true, ↓reduceIte, hstart', hwrite, hskip,
        viewWrite, hsome, hentry, hstart₄]
      cases harr : skipFats (viewFats fs img (h₄.bytesFrom fats)) (writeStart entry' 0 offset / fs.sectorSize) g with
      | none => exact ⟨h₄, hch₄', rfl⟩
      | some x =>
        have hx := harrive x ⟨_, entry', g, hsome, by rw [hentry]; exact hstart₄, harr⟩
        have hr : writeStart entry' 0 offset % fs.sectorSize < 512 := by
          rw [K.sectorSize_eq]
          exact Nat.mod_lt _ (by decide)
        obtain ⟨h₅, h₆, hch₆, hdata, hpatch⟩ := @writeEntry_view σ fs img entry' buf _ h₄ sb fats m r.lba r.offset x size offset _ K
          H₄ hx hr (hin.lba hfound) (hin.offset hfound)
        refine ⟨h₆, hch₄'.trans hch₆, ?_⟩
        simp only [hdata, Res.ok_bind, hpatch]

/-- What `tfs_write` does with its blocks placed. -/
theorem Placed.write (P : Placed S fs img sb h fats m h₂ Q) (K : KernelImage fs) (hlen : name.strlen < 24)
    (hfirst : ∀ e, viewMetadata fs img name = some e → firstDataSector img (512 * e.1 + e.2) < 2 ^ 16) :
    ∃ view, Shows view (fun k => h.bytes (fats + k)) ∧ ∀ buf size offset,
      (∀ x, Arrives fs img view name offset x → x < 512) → ∃ h', Q h' ∧
        Res.Returns (fun fuel => tfsWrite S fs sb fuel h img name buf size offset)
          ((viewWrite fs img view name buf size offset).1, (viewWrite fs img view name buf size offset).2, h') := by
  obtain ⟨h₁, hload, halloc⟩ := P.allocated
  obtain ⟨view, hview, hwrite⟩ := writeFile_view K P.toBlocksApart hlen hfirst P.first
  refine ⟨view, fun k hk hk' => (hview k hk hk').trans (P.second k hk hk'), fun buf size offset harrive => ?_⟩
  obtain ⟨h₃, hch, hval⟩ := hwrite buf size offset harrive
  obtain ⟨h₄, hfree, hQ⟩ := P.freed h₃ hch
  refine ⟨h₄, hQ, ?_⟩
  simp only [tfsWrite, Res.assert_bind K.fats_eq]
  refine hload.bind (halloc.bind ?_)
  simp only [hval, Res.ok_bind, ← bind_assoc]
  exact hfree.bind (Res.Returns.ok _)

/-! ## Calls and what they see -/

/-- From the heap `h` on, `tfs_read` returns what it returns where the memory shows `view`, and accesses the same. -/
def ReadsView (S : PageSupply σ) (fs : FSMetadata) (img : Bytes) (sb : Nat) (h : Heap σ) (name : CStr) (view : Bytes) : Prop :=
  ∀ buf size offset, (∃ h', Res.Returns (fun fuel => tfsRead S fs sb fuel h img name buf size offset)
      ((viewRead fs img view name buf size offset).1, (viewRead fs img view name buf size offset).2, h')) ∧
    ∀ R : Access → Prop, (∀ fuel, (tfsReadTraced S fs sb fuel h img name buf size offset).All R) ↔
      (viewReadTraced fs img view name buf size offset).All R

/-- And `tfs_write` returns what it returns there, where it begins in a sector of the FAT. -/
def WritesView (S : PageSupply σ) (fs : FSMetadata) (img : Bytes) (sb : Nat) (h : Heap σ) (name : CStr) (view : Bytes) : Prop :=
  ∀ buf size offset, (∀ x, Arrives fs img view name offset x → x < 512) →
    ∃ h', Res.Returns (fun fuel => tfsWrite S fs sb fuel h img name buf size offset)
      ((viewWrite fs img view name buf size offset).1, (viewWrite fs img view name buf size offset).2, h')

/-- The entry with the name, if there is one, begins with a FAT index. -/
def FirstIsIndex (fs : FSMetadata) (img : Bytes) (name : CStr) : Prop :=
  ∀ e, viewMetadata fs img name = some e → firstDataSector img (512 * e.1 + e.2) < 2 ^ 16

section

variable {pre : List Seg} {s : Nat} (K : KernelImage fs) (hlen : name.strlen < 24) (hfirst : FirstIsIndex fs img name)

include K hlen hfirst

theorem FatRoom.readsView (hroom : FatRoom S fs img sb h pre s) :
    ∃ view, Shows view (fun k => h.bytes (s + 4 + k)) ∧ ReadsView S fs img sb h name view := by
  obtain ⟨m, h₂, P⟩ := hroom.placed K
  obtain ⟨view, hview, hread⟩ := P.read K hlen hfirst
  refine ⟨view, hview, fun buf size offset => ?_⟩
  obtain ⟨⟨h', -, hr⟩, htrace⟩ := hread buf size offset
  exact ⟨⟨h', hr⟩, htrace⟩

theorem FatRoom.writesView (hroom : FatRoom S fs img sb h pre s) :
    ∃ view, Shows view (fun k => h.bytes (s + 4 + k)) ∧ WritesView S fs img sb h name view := by
  obtain ⟨m, h₂, P⟩ := hroom.placed K
  obtain ⟨view, hview, hwrite⟩ := P.write K hlen hfirst
  refine ⟨view, hview, fun buf size offset harrive => ?_⟩
  obtain ⟨h', -, hr⟩ := hwrite buf size offset harrive
  exact ⟨h', hr⟩

/-- Some heap with room shows `p`. -/
theorem exists_readsView (hheap : ∃ h, FatFits S fs img sb h) (p : Bytes) :
    ∃ h view, FatFits S fs img sb h ∧ Shows view p ∧ ReadsView S fs img sb h name view := by
  obtain ⟨h, pre, s, hroom⟩ := hheap
  obtain ⟨h', hroom', -, hp⟩ := hroom.fill p
  obtain ⟨view, hview, hread⟩ := hroom'.readsView K hlen hfirst
  exact ⟨h', view, ⟨pre, s, hroom'⟩, fun k hk hk' => (hview k hk hk').trans (hp k hk hk'), hread⟩

theorem exists_writesView (hheap : ∃ h, FatFits S fs img sb h) (p : Bytes) :
    ∃ h view, FatFits S fs img sb h ∧ Shows view p ∧ WritesView S fs img sb h name view := by
  obtain ⟨h, pre, s, hroom⟩ := hheap
  obtain ⟨h', hroom', -, hp⟩ := hroom.fill p
  obtain ⟨view, hview, hwrite⟩ := hroom'.writesView K hlen hfirst
  exact ⟨h', view, ⟨pre, s, hroom'⟩, fun k hk hk' => (hview k hk hk').trans (hp k hk hk'), hwrite⟩

end

end OSForReal.Proof.Tfs
