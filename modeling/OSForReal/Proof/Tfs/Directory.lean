import OSForReal.Proof.TagFS.DirectoryFiles
import OSForReal.Proof.Tfs.Lookup
import OSForReal.Proof.Tfs.NewFile
import OSForReal.Proof.Tfs.SameAsFuse

/-!
# The kernel on the directory of the tools

The calls of the kernel that keep the contract `KernelOk` return what
`kernelSpec` says of the directory that the disk shows (`kernel_simulates`). So
the kernel may mount an image that `tfsfmt` formatted and that the FUSE driver
changed, and the other way round: their calls in any order are those of one
directory (`kernel_shares_directory`). The contract leaves out names that two
files have, files without a sector, to which `tfs_write` gives one that it does
not mark, and a new file whose entry is not the first of its sector.

A call that loads the FAT breaks the free list: it grows the heap by a page, and
keeps one segment of it. Beside the directory stands how many pages are left.
-/

namespace OSForReal.Proof.Tfs

open Framework
open Framework.Bytes
open OSForReal.Heap
open OSForReal.TagFS
open OSForReal.Proof.TagFS
open OSForReal.Proof.Heap

variable {σ : Type} {S : PageSupply σ} {fs : FSMetadata} {img img' view buf : Bytes} {name : CStr} {d : Directory} {f : File}
  {data : List UInt8} {i n offset size : Nat}

/-! ## Calls -/

/-- A call of the kernel. -/
inductive KernelCall where
  | getFileAttributes (name : CStr)
  | read (name : CStr) (size offset : Nat)
  | write (name : CStr) (data : List UInt8) (offset : Nat)
  | makeNewFile (name : CStr)

/-- What a call shows to its caller. -/
inductive KernelResult where
  | status (r : Bool)
  | bytes (r : Bool) (data : List UInt8)
  | attributes (r : Bool) (file : Option (Nat × Option CStr))
deriving DecidableEq

/-- What a read shows: the caller looks at the buffer when the call succeeds. -/
def readResult (size : Nat) (r : Bool × Bytes) : KernelResult := .bytes r.1 (if r.1 then (List.range size).map r.2 else [])

/-- What the attributes of a file show. -/
def attributesResult (r : Bool × Bytes) : KernelResult :=
  .attributes r.1 (if r.1 then some (fileSize r.2 0, strAt r.2 (nameAt 0) 24) else none)

/-- The kernel on a disk and its heap, with the header `fs` and the
`tfs_sector_buffer` at `sb`. The `file_meta` and the `buffer` of the caller may
hold anything, and a call that allocates nothing may leave anything in the sector buffer. -/
def kernel (S : PageSupply σ) (fs : FSMetadata) (sb : Nat) : Object (Bytes × Heap σ) KernelCall KernelResult where
  call s c r s' := match c with
    | .getFileAttributes name => ∃ fileMeta r₁, tfsGetFileAttributes fs (s.2.bytesFrom sb) s.1 name fileMeta = .ok r₁ ∧
      r = attributesResult r₁ ∧ s'.1 = s.1 ∧ OnlyIn (InBuffer sb 512) s.2 s'.2
    | .read name size offset => ∃ buffer b buffer',
      Res.Returns (fun fuel => tfsRead S fs sb fuel s.2 s.1 name buffer size offset) (b, buffer', s'.2) ∧
      r = readResult size (b, buffer') ∧ s'.1 = s.1
    | .write name data offset => ∃ b, Res.Returns (fun fuel =>
      tfsWrite S fs sb fuel s.2 s.1 name (fun k => data.getD k 0) data.length offset) (b, s'.1, s'.2) ∧ r = .status b
    | .makeNewFile name => r = .status (tfsMakeNewFile fs s.1 name).1 ∧ s'.1 = (tfsMakeNewFile fs s.1 name).2 ∧
      OnlyIn (InBuffer sb 512) s.2 s'.2

/-! ## What they are for -/

section

variable (V : Volume) (d : Directory)

/-- What a call returns and leaves. -/
def kernelSpec : KernelCall → KernelResult × Directory
  | .getFileAttributes name =>
    match Directory.find V d name with
    | none => (.attributes false none, d)
    | some (_, f) => (.attributes true (some (f.bytes.length, some f.name)), d)
  | .read name size offset =>
    match Directory.find V d name with
    | none => (.bytes false [], d)
    | some (_, f) => (.bytes true ((f.bytes.drop offset).take size), d)
  | .write name data offset =>
    match Directory.find V d name with
    | none => (.status false, d)
    | some (i, f) =>
      (.status true, Function.update d i (some { f with bytes := overwrite f.bytes offset data, placed := true }))
  | .makeNewFile name =>
    if name.strlen < 24 ∧ Directory.freeSlot V d < V.entries then
      (.status true, Function.update d (Directory.freeSlot V d) (some { name, bytes := [], placed := false }))
    else (.status false, d)

/-- The pages that a call takes. -/
def KernelCall.pages : KernelCall → Nat
  | .read .. | .write .. => 1
  | _ => 0

/-- The same, with the pages that are left. -/
def pagedSpec (t : Directory × Nat) (c : KernelCall) : KernelResult × (Directory × Nat) :=
  ((kernelSpec V t.1 c).1, (kernelSpec V t.1 c).2, t.2 - c.pages)

/-- The name is that of one file at most. -/
def OneFile (name : CStr) : Prop :=
  name.strlen ≠ 0 ∧ name.strlen < 24 ∧
    ∀ p ∈ Directory.find V d name, ∀ j < V.entries, Directory.hasName name (d j) = true → j = p.1

/-- The contract. A file has its name alone; a read is of bytes of the file; a
write is to a file with a sector, begins in the file or at its end, and stays in
the sector; a new file takes the first entry of a sector. -/
def KernelOk : KernelCall → Prop
  | .getFileAttributes name => OneFile V d name
  | .read name size offset => OneFile V d name ∧
    ∀ p ∈ Directory.find V d name, 0 < size ∧ offset + size ≤ p.2.bytes.length
  | .write name data offset => OneFile V d name ∧ ∀ p ∈ Directory.find V d name, p.2.placed = true ∧
    offset ≤ p.2.bytes.length ∧ offset < V.sectorSize ∧ offset + data.length ≤ V.sectorSize
  | .makeNewFile name => name.strlen ≠ 0 ∧ (Directory.freeSlot V d < V.entries → Directory.freeSlot V d % 16 = 0)

instance (name : CStr) : Decidable (OneFile V d name) := inferInstanceAs (Decidable (_ ∧ _))

instance : ∀ c, Decidable (KernelOk V d c)
  | .getFileAttributes _ => inferInstanceAs (Decidable (OneFile _ _ _))
  | .read _ _ _ => inferInstanceAs (Decidable (_ ∧ _))
  | .write _ _ _ => inferInstanceAs (Decidable (_ ∧ _))
  | .makeNewFile _ => inferInstanceAs (Decidable (_ ∧ _))

/-- The contract, where a call finds the page it takes. -/
def PagedOk (t : Directory × Nat) (c : KernelCall) : Prop := KernelOk V t.1 c ∧ c.pages ≤ t.2

instance (t : Directory × Nat) (c : KernelCall) : Decidable (PagedOk V t c) := inferInstanceAs (Decidable (_ ∧ _))

end

/-! ## Looking a name up -/

/-- A name that one file has is that of one entry, or of none. -/
theorem oneFile_cases (h : IsDirectory fs img d) (hone : OneFile (volumeOf fs) d name) :
    (Directory.find (volumeOf fs) d name = none ∧
      ∀ j < countFileMetaEntries fs, strcmpEq img (nameAt (fileMetaAt fs j)) name = false) ∨
      ∃ i f, Directory.find (volumeOf fs) d name = some (i, f) ∧ OnlyNamed fs img name i ∧ FileAt fs img i f := by
  obtain ⟨hname, -, honly⟩ := hone
  rcases h.find_cases hname with ⟨hnone, hmiss⟩ | ⟨i, f, hfind, hnamed, hf⟩
  · refine .inl ⟨hnone, fun j hj => ?_⟩
    exact scan_before (p := fun i => strcmpEq img (nameAt (fileMetaAt fs i)) name) (Nat.zero_le j)
      (Nat.lt_of_lt_of_le hj (Nat.le_of_not_lt hmiss))
  · refine .inr ⟨i, f, hfind, ⟨hnamed.lt, hnamed.found, fun j hj hsame => ?_⟩, hf⟩
    rw [(h.slots j).strcmpEq_eq hj hname] at hsame
    exact honly (i, f) hfind j hj hsame

/-- An entry with the name begins with a FAT index. -/
theorem firstIsIndex (K : KernelImage fs) (h : IsDirectory fs img d) (hone : OneFile (volumeOf fs) d name) :
    FirstIsIndex fs img name := by
  rcases oneFile_cases h hone with ⟨-, habsent⟩ | ⟨i, f, -, hnamed, hf⟩
  · intro e he
    rw [metadata_absent K habsent] at he
    cases he
  · refine firstIsIndex_of_lt K hnamed ?_
    obtain ⟨chain, hO⟩ := h.oneSector
    have hcount := K.fatCount_eq
    rcases hf.cases hO K.layout with ⟨-, -, hnone, -⟩ | ⟨-, -, hx, -⟩
    · rw [hnone]
      decide
    · omega

/-- Every byte of an entry that is compared agrees with the name, so the entry has the name. -/
theorem strcmpEq_of_agrees (K : KernelImage fs) {e : Nat} (hlen : name.strlen < 24) (h : AgreesInSector fs img name e) :
    strcmpEq img (nameAt (fileMetaAt fs e)) name = true := by
  obtain ⟨memory, hmatch⟩ := exists_matches K.sectorSize_eq h
  rwa [matches_eq K.sectorSize_eq hlen] at hmatch

/-- The search finds the entry of a name, and copies it. -/
theorem metadataCall_found (K : KernelImage fs) (h : OnlyNamed fs img name i) (hne : name.strlen ≠ 0)
    (hlen : name.strlen < 24) (memory fileMeta : Bytes) :
    ∃ result, tfsGetFileMetadataFromNameCall fs memory img name fileMeta = .ok result ∧ FoundAt fs img i result := by
  have hnil : name.chars ≠ [] := fun hnil => hne (by simp [CStr.strlen, hnil])
  have hentries := K.entries_eq
  have hlt := h.lt
  have hnamed : HasName fs img name i := ⟨by omega, hlen, (used_of_name h.lt h.found hnil).2, h.found⟩
  have hfirst : FirstNamed fs img name i := ⟨hnamed, fun j hj hj' => by
    have heq := h.only j (by omega) hj'.found
    omega⟩
  have hlow := ((hfirst.fileId_iff K.sectorSize_eq).mp (h.named.fileId K.layout)).1
  have hfinds : FindsFirst fs img name := by
    refine ⟨by have := K.sections_lt; omega, .inl ⟨i, hfirst, hlow, h.lt, fun e he hlater _ hagree => ?_⟩⟩
    have heq := h.only e (by omega) (strcmpEq_of_agrees K hlen hagree)
    omega
  obtain ⟨result, hr, hiff, hat⟩ := agrees_of_findsFirst K.sectorSize_eq hfinds memory fileMeta
  obtain ⟨j, hj, hat, -⟩ := hat (hiff.mpr ⟨i, hnamed⟩)
  obtain rfl := hfirst.unique hj
  exact ⟨result, hr, hat⟩

/-! ## What a call sees -/

section

variable (K : KernelImage fs) (h : IsDirectory fs img d)
include K h

theorem attributes_eq (hok : KernelOk (volumeOf fs) d (.getFileAttributes name)) (memory fileMeta : Bytes) :
    ∃ r, tfsGetFileAttributes fs memory img name fileMeta = .ok r ∧
      attributesResult r = (kernelSpec (volumeOf fs) d (.getFileAttributes name)).1 := by
  obtain ⟨hne, hlen, -⟩ := id hok
  rcases oneFile_cases h hok with ⟨hnone, habsent⟩ | ⟨i, f, hfind, hnamed, hf⟩
  · obtain ⟨fileMeta', hr⟩ := tfsGetFileMetadataFromNameCall_short K.sectorSize_eq
      (by have := K.sections_lt; omega) hlen memory img fileMeta
    rw [metadata_absent K habsent] at hr
    refine ⟨(false, fileMeta'), ?_, by simp only [attributesResult, kernelSpec, hnone, if_neg Bool.false_ne_true]⟩
    simp only [tfsGetFileAttributes, hr, Res.ok_bind, resultOf]
  · obtain ⟨⟨r, fileMeta'⟩, hr, hat⟩ := metadataCall_found K hnamed hne hlen memory fileMeta
    obtain rfl : r = ⟨true, 1 + i / 16, 32 * (i % 16)⟩ := hat.result_eq
    have hcopied : ∀ b < 32, fileMeta' b = img (fileMetaAt fs i + b) := hat.copied
    have hsize : fileSize fileMeta' 0 = f.bytes.length := by
      rw [← hf.size, fileSize, fileSize, u32_congr (m := fun b => img (fileMetaAt fs i + b)) fun b _ hb => ?_]
      · rfl
      · exact hcopied b (by omega)
    have hname : strAt fileMeta' (nameAt 0) 24 = some f.name := by
      refine strAt_eq_some.mpr ⟨strcmpEq_iff.mpr fun k hk => ?_, hf.strlen⟩
      have hlen' := hf.strlen
      rw [← strcmpEq_iff.mp hf.named k hk, hcopied _ (by unfold nameAt; omega), nameAt, nameAt, Nat.zero_add,
        Nat.add_assoc]
    refine ⟨(true, fileMeta'), ?_, by simp only [attributesResult, kernelSpec, hfind, if_true, hsize, hname]⟩
    simp only [tfsGetFileAttributes, hr, Res.ok_bind]

theorem viewRead_result (hok : KernelOk (volumeOf fs) d (.read name size offset)) (view buf : Bytes) :
    readResult size (viewRead fs img view name buf size offset) =
      (kernelSpec (volumeOf fs) d (.read name size offset)).1 := by
  obtain ⟨hone, hwindow⟩ := hok
  rcases oneFile_cases h hone with ⟨hnone, habsent⟩ | ⟨i, f, hfind, hnamed, hf⟩
  · simp only [readResult, viewRead, metadata_absent K habsent, kernelSpec, hnone, if_neg Bool.false_ne_true]
  · obtain ⟨hpos, hin⟩ : 0 < size ∧ offset + size ≤ f.bytes.length := hwindow (i, f) hfind
    obtain ⟨chain, hO⟩ := h.oneSector
    rcases hf.cases hO K.layout with ⟨-, -, -, hnil⟩ | ⟨-, hc, hx, hle⟩
    · rw [hnil, List.length_nil] at hin
      omega
    · have hs := K.sectorSize_eq
      have hcount := K.fatCount_eq
      have hchain : FatChain fs img (firstDataSector img (fileMetaAt fs i))
          [firstDataSector img (fileMetaAt fs i)] := by
        have hend := hO.owned.isChain i hf.used
        rw [hc] at hend
        exact ⟨hend, fun x hx' => by rwa [List.mem_singleton.mp hx']⟩
      have hwithin : offset + size ≤ fileSize img (fileMetaAt fs i) := hf.size ▸ hin
      have hlong : fileSize img (fileMetaAt fs i) ≤ 512 * [firstDataSector img (fileMetaAt fs i)].length := by
        rw [hf.size, List.length_singleton]
        omega
      obtain ⟨buf', hr, hbytes⟩ := tagfsRead_spec K.layout h.header hnamed.named hchain (hs ▸ hlong) hpos hwithin
        (by omega) buf
      have hread := viewRead_window K h.header hnamed hchain hlong hpos hwithin (fun j hj => by omega) view buf
      rw [hr] at hread
      have hdata : (List.range size).map buf' = (f.bytes.drop offset).take size := by
        refine List.ext_getElem (by simp; omega) fun k hk _ => ?_
        have hk : k < size := by simpa using hk
        rw [List.getElem_map, List.getElem_range, hbytes k hk, byteAt_first (by omega), hf.bytes _ (by omega),
          List.getElem_take, List.getElem_drop, List.getD_eq_getElem]
      simp only [readResult, hread, kernelSpec, hfind, if_true, hdata]

/-- A write that is in the contract begins in a sector of the FAT, and stores what the directory does. -/
theorem viewWrite_result (hok : KernelOk (volumeOf fs) d (.write name data offset)) :
    ∃ img₁, IsDirectory fs img₁ (kernelSpec (volumeOf fs) d (.write name data offset)).2 ∧ ∀ view,
      (∀ x, Arrives fs img view name offset x → x < 512) ∧
      ∃ b, viewWrite fs img view name (fun k => data.getD k 0) data.length offset = (b, img₁) ∧
        .status b = (kernelSpec (volumeOf fs) d (.write name data offset)).1 := by
  obtain ⟨hone, hwindow⟩ := hok
  have L := K.layout
  rcases oneFile_cases h hone with ⟨hnone, habsent⟩ | ⟨i, f, hfind, hnamed, hf⟩
  · refine ⟨img, ?_, fun view => ⟨fun x hx => absurd hx (not_arrives (metadata_absent K habsent)), false, ?_, ?_⟩⟩
    · simp only [kernelSpec, hnone]
      exact h
    · simp only [viewWrite, metadata_absent K habsent]
    · simp only [kernelSpec, hnone]
  · obtain ⟨hplaced, hoffset, hin, hfit⟩ : f.placed = true ∧ offset ≤ f.bytes.length ∧ offset < fs.sectorSize ∧
        offset + data.length ≤ fs.sectorSize := hwindow (i, f) hfind
    have hs : fs.sectorSize = 512 := K.sectorSize_eq
    -- The FUSE driver answers the call, and the kernel writes what it does.
    obtain ⟨img₁, hd, hcall⟩ : IsDirectory.Answers fs img d (.write name data offset) := by
      refine h.write L ⟨hone.1, fun p hp => ?_⟩
      obtain rfl : (i, f) = p := Option.some.inj (hfind.symm.trans hp)
      exact ⟨hoffset, .inl hfit⟩
    have hwrite := Directory.write_fits (V := volumeOf fs) (d := d) (i := i) (f := f) (by simp [hplaced]) hin hfit
    obtain ⟨hstatus, rfl⟩ := (hcall _ _).mp ⟨0, fuseCall_write 0 img name data offset⟩
    have hdir := Directory.call_write_some data offset hfind
    rw [hwrite] at hdir
    rw [hdir] at hd hstatus
    obtain ⟨chain, hO⟩ := h.oneSector
    obtain ⟨-, hc, hx, hle⟩ := (hf.cases hO L).resolve_left fun hp => by
      rw [hp.1] at hplaced
      cases hplaced
    have hend := hO.owned.isChain i hf.used
    have htaken := hO.owned.taken_of_mem hf.used (hc ▸ List.mem_singleton_self _)
    have hstart : writeStart img (fileMetaAt fs i) offset = offset := writeStart_of_le (by rwa [hf.size])
    rw [hc] at hend
    have hchain : FatChain fs img (firstDataSector img (fileMetaAt fs i)) [firstDataSector img (fileMetaAt fs i)] :=
      ⟨hend, fun x hx' => by rwa [List.mem_singleton.mp hx']⟩
    -- No FAT entry is followed.
    have hlow : ∀ j < writeStart img (fileMetaAt fs i) offset / 512, [firstDataSector img (fileMetaAt fs i)].getD j 0 < 256 := by
      rw [hstart, Nat.div_eq_of_lt (by omega)]
      exact fun j hj => absurd hj (Nat.not_lt_zero j)
    refine ⟨(tagfsWrite img name (fun k => data.getD k 0) data.length offset).2, ?_, fun view => ⟨fun x hx => ?_, ?_⟩⟩
    · simp only [kernelSpec, hfind]
      exact hd
    · refine hx.lt_of_low K hnamed hchain (by simp) ?_ hlow
      rw [hstart, Nat.div_eq_of_lt (by omega)]
      exact Nat.zero_le _
    · obtain ⟨himg, hb⟩ : SameAt fs img view name (fun k => data.getD k 0) data.length offset := by
        refine sameAt_of_route K h.header hnamed hchain (by simp) ?_ ?_ (by omega) hlow (fun _ => ?_) view _
        · rw [hf.size, List.length_singleton]
          omega
        · intro x hx'
          rw [List.mem_singleton.mp hx']
          exact htaken.2
        · rw [hstart, Nat.mod_eq_of_lt (by omega)]
          exact .inl (by omega)
      have htrue : (viewWrite fs img view name (fun k => data.getD k 0) data.length offset).1 = true := by
        by_contra hne
        have hfail := hb.mp (by simpa using hne)
        have hstatus := FuseResult.status.inj hstatus
        omega
      refine ⟨true, Prod.ext htrue himg, ?_⟩
      simp only [kernelSpec, hfind]

/-- Where a new file is the first of its sector, it is the one that `tagfs_mknod` makes. -/
theorem tfsMakeNewFile_eq_mknod (hfirst : Directory.freeSlot (volumeOf fs) d < countFileMetaEntries fs →
      Directory.freeSlot (volumeOf fs) d % 16 = 0) :
    tfsMakeNewFile fs img name = (decide ((tagfsMknod img name true).1 = 0), (tagfsMknod img name true).2) := by
  have hentries := K.entries_eq
  have hsections := K.sections_lt
  -- The entries of the section are those that the FUSE driver counts.
  have hslot : firstFreeEntry fs img = Directory.freeSlot (volumeOf fs) d := by
    rw [← h.freeSlot_eq, firstFreeEntry, ← hentries]
    rfl
  simp only [tagfsMknod, h.header, if_true, h.freeSlot_eq]
  by_cases hlen : name.strlen ≥ 24
  · rw [tfsMakeNewFile, if_pos hlen, if_pos hlen]
    rfl
  · rw [tfsMakeNewFile_eq K.sectorSize_eq (Nat.lt_of_not_le hlen), hslot, if_neg hlen]
    by_cases hfull : Directory.freeSlot (volumeOf fs) d = countFileMetaEntries fs
    · rw [if_pos hfull, if_neg (by omega)]
      rfl
    · have hle : Directory.freeSlot (volumeOf fs) d ≤ countFileMetaEntries fs := scan_le (Nat.zero_le _)
      have hmod := hfirst (by omega)
      rw [if_neg hfull, if_pos (by omega), Nat.mul_div_cancel' (Nat.dvd_of_mod_eq_zero hmod)]
      rfl

theorem makeNewFile_result (hok : KernelOk (volumeOf fs) d (.makeNewFile name)) :
    .status (tfsMakeNewFile fs img name).1 = (kernelSpec (volumeOf fs) d (.makeNewFile name)).1 ∧
      IsDirectory fs (tfsMakeNewFile fs img name).2 (kernelSpec (volumeOf fs) d (.makeNewFile name)).2 := by
  obtain ⟨hne, hfirst⟩ := hok
  obtain ⟨img₁, hd, hcall⟩ : IsDirectory.Answers fs img d (.mknod name true) := h.mknod K.layout hne
  obtain ⟨hstatus, rfl⟩ := (hcall _ _).mp ⟨0, fuseCall_mknod 0 img name true⟩
  have hstatus : (tagfsMknod img name true).1 = Directory.mknodStatus (volumeOf fs) d name true :=
    FuseResult.status.inj hstatus
  -- The call succeeds when the directory has room for the name.
  have hmakes : Directory.mknodStatus (volumeOf fs) d name true = 0 ↔
      name.strlen < 24 ∧ Directory.freeSlot (volumeOf fs) d < (volumeOf fs).entries := by
    have hle : Directory.freeSlot (volumeOf fs) d ≤ (volumeOf fs).entries := scan_le (Nat.zero_le _)
    unfold Directory.mknodStatus
    rw [if_neg (by decide)]
    split
    · exact iff_of_false (by decide) (by omega)
    · split
      · exact iff_of_false (by decide) (by omega)
      · exact iff_of_true rfl (by omega)
  rw [tfsMakeNewFile_eq_mknod K h hfirst]
  constructor
  · simp only [hstatus, hmakes, kernelSpec]
    split
    · rw [decide_eq_true (by assumption)]
    · rw [decide_eq_false (by assumption)]
  · simp only [Directory.call, hmakes] at hd
    simp only [kernelSpec]
    split
    · rwa [if_pos (by assumption)] at hd
    · rwa [if_neg (by assumption)] at hd

end

/-! ## The heap between calls -/

variable {h h' : Heap σ}

/-- One free segment behind `tfs_sector_buffer`, with room for the FAT, and `n` pages to be had. -/
structure HeapLeft (S : PageSupply σ) (h : Heap σ) (n : Nat) : Prop where
  segment : ∃ len, OneSegment h (heapStart + 516) len ∧ 1540 ≤ len ∧ len ≤ 2 ^ 20
  pages : S.Grants h.supply h.nextPageVirtAddr n

/-- What `tfs_init` leaves. -/
theorem heapLeft_tfsInit {supply : σ} (mem : Nat → Nat) (img : Bytes) (hpages : S.Grants supply heapStart (n + 1)) : ∃ h,
    Res.Returns (fun fuel => tfsInit S fuel (memoryInit mem supply) img) (fsMeta img, heapStart + 4, h) ∧ HeapLeft S h n := by
  obtain ⟨supply', hpage, hpages⟩ := hpages
  obtain ⟨h, hr, hone, hsupply, hnext⟩ := tfsInit_oneSegment S mem hpage img
  refine ⟨h, hr, ⟨_, hone, by decide, by decide⟩, ?_⟩
  rwa [hsupply, hnext]

/-- What is stored in the sector buffer leaves the heap as it is. -/
theorem HeapLeft.onlyIn (H : HeapLeft S h n) (hh : OnlyIn (InBuffer (heapStart + 4) 512) h h') : HeapLeft S h' n := by
  obtain ⟨⟨len, hone, hroom, hle⟩, hpages⟩ := H
  have hstart : heapStart = 0xC0800000 := rfl
  have hmem : ∀ w, heapStart + 516 ≤ w → h'.mem w = h.mem w := fun w hw => hh.mem w fun k hk hin => by
    have := hin.1
    have := hin.2
    omega
  refine ⟨⟨len, ⟨?_, ?_⟩, hroom, hle⟩, by rwa [hh.supply, hh.nextPage]⟩
  · rw [hh.head]
    refine hone.chain.frame fun a ha => ?_
    rw [List.mem_singleton.mp ha]
    exact hmem _ (Nat.le_refl _)
  · rw [← hone.length]
    exact hmem _ (by omega)

/-- With at most 256 files, what is stored behind the FAT are zeroes. -/
theorem stray_eq_zero (K : KernelImage fs) (hd : IsDirectory fs img d) (hentries : countFileMetaEntries fs ≤ 256) :
    strayNext fs img = 0 ∧ strayLength fs img = 0 := by
  obtain ⟨chain, hO⟩ := hd.oneSector
  have hcount := K.fatCount_eq
  have hfree : ∀ x, 256 ≤ x → x < 260 → fat fs img x = 0 := fun x hx hx' => by
    by_contra h0
    have := hO.low x ⟨by omega, h0⟩
    omega
  unfold strayNext strayLength
  rw [hfree 256 (by decide) (by decide), hfree 257 (by decide) (by decide), hfree 258 (by decide) (by decide),
    hfree 259 (by decide) (by decide)]
  exact ⟨rfl, rfl⟩

/-- A call gets its blocks, by taking a page. -/
theorem HeapLeft.placed (H : HeapLeft S h (n + 1)) (K : KernelImage fs) (hstray : strayNext fs img = 0 ∧ strayLength fs img = 0) :
    ∃ m h₂, Placed S fs img (heapStart + 4) h (heapStart + 520) m h₂ fun h' => HeapLeft S h' n := by
  obtain ⟨⟨len, hone, hroom, hle⟩, supply, hpage, hpages⟩ := H
  have hstart : heapStart = 0xC0800000 := rfl
  have F : FatRoom S fs img (heapStart + 4) h [] (heapStart + 516) :=
    hone.fatRoom hroom (by omega) (by decide) (by omega) (by omega) (.inr ⟨by omega, hstray.1, supply, hpage⟩)
  obtain ⟨m, h₂, P⟩ := F.placed_grown K (by simp) (by omega) hstray.1 hpage
  refine ⟨m, h₂, { P with freed := fun h' hh => (P.freed h' hh).imp fun h'' hr => ⟨hr.1, ?_⟩ }⟩
  obtain ⟨hsupply, hnext, hchain, hlength⟩ := hr.2 rfl
  rw [hstray.2] at hlength
  refine ⟨⟨_, ⟨hchain, hlength⟩, by decide, by decide⟩, ?_⟩
  rw [hsupply, hnext]
  exact hpages

/-! ## Runs -/

section

variable (K : KernelImage fs) (hentries : countFileMetaEntries fs ≤ 256) (hd : IsDirectory fs img d)
include K hentries hd

theorem read_returns (H : HeapLeft S h (n + 1)) (hok : KernelOk (volumeOf fs) d (.read name size offset)) (buf : Bytes) :
    ∃ b buf' h', Res.Returns (fun fuel => tfsRead S fs (heapStart + 4) fuel h img name buf size offset) (b, buf', h') ∧
      readResult size (b, buf') = (kernelSpec (volumeOf fs) d (.read name size offset)).1 ∧ HeapLeft S h' n := by
  obtain ⟨m, h₂, P⟩ := H.placed K (stray_eq_zero K hd hentries)
  obtain ⟨view, -, hread⟩ := P.read K hok.1.2.1 (firstIsIndex K hd hok.1)
  obtain ⟨⟨h', H', hr⟩, -⟩ := hread buf size offset
  exact ⟨_, _, h', hr, viewRead_result K hd hok view buf, H'⟩

theorem write_returns (H : HeapLeft S h (n + 1)) (hok : KernelOk (volumeOf fs) d (.write name data offset)) :
    ∃ b img₁ h', Res.Returns (fun fuel =>
        tfsWrite S fs (heapStart + 4) fuel h img name (fun k => data.getD k 0) data.length offset) (b, img₁, h') ∧
      .status b = (kernelSpec (volumeOf fs) d (.write name data offset)).1 ∧
      IsDirectory fs img₁ (kernelSpec (volumeOf fs) d (.write name data offset)).2 ∧ HeapLeft S h' n := by
  obtain ⟨m, h₂, P⟩ := H.placed K (stray_eq_zero K hd hentries)
  obtain ⟨view, -, hwrite⟩ := P.write K hok.1.2.1 (firstIsIndex K hd hok.1)
  obtain ⟨img₁, hd₁, hviews⟩ := viewWrite_result K hd hok
  obtain ⟨harrive, b, hval, hb⟩ := hviews view
  obtain ⟨h', H', hr⟩ := hwrite (fun k => data.getD k 0) data.length offset harrive
  rw [hval] at hr
  exact ⟨b, img₁, h', hr, hb, hd₁, H'⟩

end

/-- The kernel on disks with the header `fs` is a directory, as long as the contract is kept and there are pages. -/
theorem kernel_simulates (S : PageSupply σ) (K : KernelImage fs) (hentries : countFileMetaEntries fs ≤ 256) :
    Simulation (kernel S fs (heapStart + 4)) (pagedSpec (volumeOf fs)) (PagedOk (volumeOf fs))
      fun s t => IsDirectory fs s.1 t.1 ∧ HeapLeft S s.2 t.2 where
  returns s t c hR hok := by
    obtain ⟨img, h⟩ := s
    obtain ⟨d, n⟩ := t
    obtain ⟨hd, H⟩ : IsDirectory fs img d ∧ HeapLeft S h n := hR
    obtain ⟨hok, hpages⟩ : KernelOk (volumeOf fs) d c ∧ c.pages ≤ n := hok
    cases c with
    | getFileAttributes name =>
      obtain ⟨r, hr, -⟩ := attributes_eq K hd hok (h.bytesFrom (heapStart + 4)) fun _ => 0
      exact ⟨_, (img, h), fun _ => 0, r, hr, rfl, rfl, .refl _ h⟩
    | read name size offset =>
      obtain ⟨n, rfl⟩ := Nat.exists_eq_add_of_le' hpages
      obtain ⟨b, buf', h', hr, -⟩ := read_returns K hentries hd H hok fun _ => 0
      exact ⟨_, (img, h'), fun _ => 0, b, buf', hr, rfl, rfl⟩
    | write name data offset =>
      obtain ⟨n, rfl⟩ := Nat.exists_eq_add_of_le' hpages
      obtain ⟨b, img₁, h', hr, -⟩ := write_returns K hentries hd H hok
      exact ⟨_, (img₁, h'), b, hr, rfl⟩
    | makeNewFile name => exact ⟨_, (_, h), rfl, rfl, .refl _ h⟩
  agrees s t c r s' hR hok hcall := by
    obtain ⟨img, h⟩ := s
    obtain ⟨img', h'⟩ := s'
    obtain ⟨d, n⟩ := t
    obtain ⟨hd, H⟩ : IsDirectory fs img d ∧ HeapLeft S h n := hR
    obtain ⟨hok, hpages⟩ : KernelOk (volumeOf fs) d c ∧ c.pages ≤ n := hok
    have hread : ∀ name, (∃ size offset, c = .read name size offset) ∨ c = .getFileAttributes name →
        (kernelSpec (volumeOf fs) d c).2 = d := by
      rintro name (⟨size, offset, rfl⟩ | rfl) <;>
      · simp only [kernelSpec]
        split <;> rfl
    cases c with
    | getFileAttributes name =>
      obtain ⟨fileMeta, r₁, hr, rfl, hdisk, hh⟩ := hcall
      obtain rfl : img' = img := hdisk
      obtain ⟨r₂, hr', hspec⟩ := attributes_eq K hd hok (h.bytesFrom (heapStart + 4)) fileMeta
      obtain rfl := Res.ok.inj (hr.symm.trans hr')
      refine ⟨hspec, ?_, H.onlyIn hh⟩
      show IsDirectory fs _ (kernelSpec (volumeOf fs) d (.getFileAttributes name)).2
      rwa [hread name (.inr rfl)]
    | read name size offset =>
      obtain ⟨n, rfl⟩ := Nat.exists_eq_add_of_le' hpages
      obtain ⟨buf, b, buf', hr, rfl, hdisk⟩ := hcall
      obtain rfl : img' = img := hdisk
      obtain ⟨b₁, buf₁, h₁, hr', hspec, H'⟩ := read_returns K hentries hd H hok buf
      obtain ⟨rfl, hrest⟩ := Prod.mk.inj (hr.unique hr')
      obtain ⟨rfl, rfl⟩ := Prod.mk.inj hrest
      refine ⟨hspec, ?_, H'⟩
      show IsDirectory fs _ (kernelSpec (volumeOf fs) d (.read name size offset)).2
      rwa [hread name (.inl ⟨size, offset, rfl⟩)]
    | write name data offset =>
      obtain ⟨n, rfl⟩ := Nat.exists_eq_add_of_le' hpages
      obtain ⟨b, hr, rfl⟩ := hcall
      obtain ⟨b₁, img₁, h₁, hr', hspec, hd₁, H'⟩ := write_returns K hentries hd H hok
      obtain ⟨rfl, hrest⟩ := Prod.mk.inj (hr.unique hr')
      obtain ⟨rfl, rfl⟩ := Prod.mk.inj hrest
      exact ⟨hspec, hd₁, H'⟩
    | makeNewFile name =>
      obtain ⟨rfl, rfl, hh⟩ := hcall
      obtain ⟨hspec, hd₁⟩ := makeNewFile_result K hd hok
      exact ⟨hspec, hd₁, H.onlyIn hh⟩

/-- On an image that `tfsfmt` formatted for a kernel, with at most 256 entries for files, `tfs_init` returns on the first heap.
From then on the calls of the kernel, the commands of `tfsfmt` and the calls of the FUSE driver in any order return, and they
return what one directory does that holds the files of all three, as long as there is a page for each read and write of the
kernel. -/
theorem kernel_shares_directory (S : PageSupply σ) (options : FormatOptions) (K : KernelImage (headerOf options))
    (hentries : countFileMetaEntries (headerOf options) ≤ 256) (img : Bytes) (mem : Nat → Nat) (supply : σ) (n : Nat)
    (hpages : S.Grants supply heapStart (n + 1)) (l : List (ToolCall ⊕ KernelCall))
    (hl : Keeps (sumOk (fun t => Directory.ToolOk (volumeOf (headerOf options)) t.1) (PagedOk (volumeOf (headerOf options))))
      (sumSpec (onFstSpec (Directory.tool (volumeOf (headerOf options)))) (pagedSpec (volumeOf (headerOf options))))
      (Directory.empty, n) l) :
    ∃ sb h, Res.Returns (fun fuel => tfsInit S fuel (memoryInit mem supply) (formatImage options img)) (headerOf options, sb, h) ∧
      ∀ rs, (∃ s', (tools.onFst.sum (kernel S (headerOf options) sb)).Run (formatImage options img, h) l rs s') ↔
        rs = outputs (sumSpec (onFstSpec (Directory.tool (volumeOf (headerOf options)))) (pagedSpec (volumeOf (headerOf options))))
          (Directory.empty, n) l := by
  have hempty := isDirectory_formatImage K.toGeometry img
  obtain ⟨h, hr, H⟩ := heapLeft_tfsInit mem (formatImage options img) hpages
  rw [hempty.header] at hr
  refine ⟨_, h, hr, fun rs => ?_⟩
  have htools := (tools_simulate K.layout).onFst (HeapLeft S)
  exact (htools.sum (kernel_simulates S K hentries)).run_iff ⟨hempty, H⟩ hl

/-- A file that the kernel creates gets its bytes from the FUSE driver, and one that `tfsfmt` wrote is changed by the
kernel; each finds what the others did. -/
theorem kernel_shares_directory_first : ∃ sb h,
    Res.Returns (fun fuel => tfsInit everyPage fuel (memoryInit (fun _ => 0) ()) (formatImage {} fun _ => 0))
      (headerOf {}, sb, h) ∧
    ∃ s', (tools.onFst.sum (kernel everyPage (headerOf {}) sb)).Run (formatImage {} fun _ => 0, h)
      [.inr (.makeNewFile nameA), .inl (.fuse (.write nameA [1, 2, 3] 0)), .inr (.read nameA 2 1),
        .inl (.writeFiles writeOneFile), .inr (.write storedName [9, 8] 2), .inl (.fuse (.read storedName 4 0)),
        .inr (.getFileAttributes storedName), .inl (.fuse (.unlink nameA)), .inr (.getFileAttributes nameA)]
      [.inr (.status true), .inl (some (.status 3)), .inr (.bytes true [2, 3]), .inl none, .inr (.status true),
        .inl (some (.bytes 4 [1, 2, 9, 8])), .inr (.attributes true (some (4, some storedName))),
        .inl (some (.status 0)), .inr (.attributes false none)] s' := by
  have hpages : everyPage.Grants () heapStart 3 := ⟨(), rfl, (), rfl, (), rfl, trivial⟩
  obtain ⟨sb, h, hr, hrun⟩ := kernel_shares_directory everyPage {} kernelImage_default (by decide) (fun _ => 0) (fun _ => 0) () 2
    hpages [.inr (.makeNewFile nameA), .inl (.fuse (.write nameA [1, 2, 3] 0)), .inr (.read nameA 2 1),
      .inl (.writeFiles writeOneFile), .inr (.write storedName [9, 8] 2), .inl (.fuse (.read storedName 4 0)),
      .inr (.getFileAttributes storedName), .inl (.fuse (.unlink nameA)), .inr (.getFileAttributes nameA)] (by decide +kernel)
  exact ⟨sb, h, hr, (hrun _).mpr (by decide +kernel)⟩

end OSForReal.Proof.Tfs
