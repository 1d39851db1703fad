import OSForReal.Proof.Heap.Backing
import OSForReal.Proof.Heap.FailedAllocation
import OSForReal.Proof.Pages.Bootstrap
import OSForReal.Proof.Pages.Frames

/-!
# The address space of the kernel

`mmu` is what the processor reads once `bootstrap` has turned paging on: its
tables, and those of `pfa_page_tables`. Whatever calls of `memory_allocate` and
`memory_free` follow `pfa_init` and `memory_init`, as long as a sound frame is
left the first 2 MiB are mapped to themselves, the kernel image to where it was
loaded, the heap to frames of its own above the reserved memory, and nothing
else is mapped (`addressSpace`). So the blocks that do not overlap are in
different memory (`blocks_apart_in_memory`), and the heap is in general purpose
memory (`heap_in_ram`). Without a sound frame the frames below 2 MiB are handed
out too, and with them the page tables.
-/

namespace OSForReal.Proof.Pages

open Framework (PageTables Res System)
open Framework.Bitmap (Words isSet firstClear firstClear_eq_some)
open OSForReal.Heap
open OSForReal.Proof.Heap

/-- What the processor reads: the tables of `bootstrap` and those of `pfa_page_tables`, at their physical addresses. -/
def mmu (K : KernelImage) (B : BootTables) (p : Pfa) : PageTables where
  directory := p.pageDirectory
  table phys :=
    if phys = B.lowPageTable then some (bootstrap K B).lowPageTable
    else if phys = B.kernelPageTable1 then some (bootstrap K B).kernelPageTable1
    else if phys = B.kernelPageTable2 then some (bootstrap K B).kernelPageTable2
    else tableAt K p phys

/-- The end of what is mapped for the kernel image: the first page table is filled whatever its size. -/
def kernelMapped (K : KernelImage) : Nat := max K.kernelEnd (kernelStart + 4 * (1024 * 1024))

/-- `bootstrap`, `pfa_init` and `memory_init`, and then calls of `memory_allocate` and `memory_free`. -/
def kernelHeap (K : KernelImage) (B : BootTables) (boot : MultibootInfo) : System (HeapState Pfa) HeapEvent where
  init s := ∃ fuel bitmap mem, pfaInit boot fuel = .ok bitmap ∧
    s = ⟨memoryInit mem ⟨bitmap, fun _ _ => 0, (bootstrap K B).pageDirectory⟩, []⟩
  step := HeapStep (pfaSupply K)

/-- Where the virtual addresses below `heapEnd` are. -/
structure AddressSpace (K : KernelImage) (T : PageTables) (heapEnd : Nat) : Prop where
  low : ∀ v < 0x200000, T.translate v = some v
  kernel : ∀ v, kernelStart ≤ v → v < kernelMapped K → T.translate v = some (kernelPhys v)
  heap : ∀ v, heapStart ≤ v → v < heapEnd → ∃ x, T.translate v = some x ∧ reservedPhys ≤ x
  others : ∀ v < 2 ^ 32, T.translate v ≠ none →
    v < 0x200000 ∨ (kernelStart ≤ v ∧ v < kernelMapped K) ∨ (heapStart ≤ v ∧ v < heapEnd)
  inj : ∀ v < 2 ^ 32, ∀ w < 2 ^ 32, ∀ x, T.translate v = some x → T.translate w = some x → v = w

variable {K : KernelImage} {B : BootTables} {boot : MultibootInfo} {l : List MMapSegment} {p p' : Pfa}
  {m : Nat → Option Nat} {v w x f next : Nat}

/-! ## Pages of the heap -/

/-- The end of the pages before the one at `next`, which is 2³² where that has wrapped. -/
def pagesEnd (next : Nat) : Nat := if next = 0 then 2 ^ 32 else next

theorem pagesEnd_of_pos (h : 0 < next) : pagesEnd next = next := if_neg h.ne'

theorem pagesEnd_le (h : next < 2 ^ 32) : pagesEnd next ≤ 2 ^ 32 := by
  unfold pagesEnd
  split <;> omega

theorem pagesEnd_succ (ha : next % pageSize = 0) (hlt : next < 2 ^ 32) :
    pagesEnd ((next + pageSize) % 2 ^ 32) = next + pageSize := by
  unfold pagesEnd
  simp only [pageSize] at *
  split <;> omega

/-- The page tables map the pages of the heap below the next one, and no other. -/
structure Backs (K : KernelImage) (B : BootTables) (p : Pfa) (m : Nat → Option Nat) (next : Nat) : Prop where
  maps : Maps K (bootPageDirectory B) p m
  committed : ∀ w, HeapPage w → (m w ≠ none ↔ w < pagesEnd next)
  aligned : next % pageSize = 0
  lt : next < 2 ^ 32
  lo : heapStart ≤ pagesEnd next

theorem backs_init (K : KernelImage) (B : BootTables) (bitmap : Words) :
    Backs K B ⟨bitmap, fun _ _ => 0, bootPageDirectory B⟩ (fun _ => none) heapStart where
  maps := .init K bitmap fun e he => by rw [bootPageDirectory_heap B e he]; rfl
  committed w hw := by
    have hlo := hw.lo
    have hend : pagesEnd heapStart = heapStart := by decide
    simp only [ne_eq, not_true_eq_false, false_iff, hend]
    omega
  aligned := by decide
  lt := by decide
  lo := by decide

/-- A commit of the next page maps it to the frame of the first clear bit. -/
theorem Backs.commit (h : Backs K B p m next) (hr : pfaCommitPage K p next = .ok (true, p')) :
    ∃ n, HeapPage next ∧ firstClear p.pageBitmap pfaPageBitmapLen = some n ∧ p' = mapPage K p next n ∧
      Backs K B p' (Function.update m next (some (pageFrame n))) ((next + pageSize) % 2 ^ 32) := by
  have hpage : HeapPage next := ⟨pfaCommitPage_range h.lt hr, h.lt, h.aligned⟩
  have hnext : pagesEnd next = next := pagesEnd_of_pos (Nat.lt_of_lt_of_le (by decide) hpage.lo)
  have hnone : m next = none := by
    by_contra hne
    have hlt := (h.committed next hpage).mp hne
    omega
  rw [pfaCommitPage_eq K p hpage] at hr
  cases hf : firstClear p.pageBitmap pfaPageBitmapLen with
  | none =>
    rw [hf] at hr
    cases hr
  | some n =>
    rw [hf] at hr
    obtain ⟨hn, hclear, -⟩ := firstClear_eq_some hf
    obtain ⟨-, rfl⟩ : true = true ∧ mapPage K p next n = p' := by simpa using hr
    refine ⟨n, hpage, rfl, rfl, h.maps.mapPage hpage hnone hn hclear, fun w hw => ?_, ?_, Nat.mod_lt _ (by decide), ?_⟩
    · have ha := hw.aligned; have ha' := h.aligned
      rw [pagesEnd_succ h.aligned h.lt]
      by_cases hwn : w = next
      · rw [hwn, Function.update_self]
        simp [pageSize]
      · rw [Function.update_of_ne hwn, h.committed w hw, hnext]
        simp only [pageSize] at *
        omega
    · have ha := h.aligned
      simp only [pageSize] at *
      omega
    · rw [pagesEnd_succ h.aligned h.lt]
      exact Nat.le_trans hpage.lo (Nat.le_add_right ..)

/-! ## The walk -/

theorem tablePhys_ge (K : KernelImage) (i : Nat) : 0x200000 ≤ tablePhys K i := by
  have hadd := tablePhys_add K i
  have hlo := K.lo
  generalize tablePhys K i = t at *
  simp only [kernelStart, kernelPhysStart] at *
  omega

theorem kernelPhys_add (hv : kernelStart ≤ v) : kernelPhys v + (kernelStart - kernelPhysStart) = v :=
  Nat.sub_add_cancel (Nat.le_trans (by decide) hv)

/-- The page of the kernel image that entry `v / 4096 % 1024` of its table is for, in either of its two halves. -/
theorem kernelPhys_page {half : Nat} (hhalf : half = 0 ∨ half = 1) (hlo : kernelStart + half * 0x400000 ≤ v)
    (hhi : v < kernelStart + half * 0x400000 + 0x400000) :
    kernelPhysStart + half * 0x400000 + pageSize * (v / 4096 % 1024) + v % 4096 = kernelPhys v := by
  have hadd := kernelPhys_add (show kernelStart ≤ v by omega)
  generalize kernelPhys v = x at *
  rcases hhalf with rfl | rfl <;> simp only [kernelStart, kernelPhysStart, pageSize] at * <;> omega

/-- Both kinds of flags say that an entry is present. -/
theorem flags_present : pageDirFlags < 4096 ∧ pageDirFlags % 2 = 1 ∧ pageTableFlags < 4096 ∧ pageTableFlags % 2 = 1 := by
  decide

section

variable (hB : B.Placed K)
include hB

omit hB in
theorem mmu_low (p : Pfa) : (mmu K B p).table B.lowPageTable = some (bootstrap K B).lowPageTable := if_pos rfl

theorem mmu_kernel1 (p : Pfa) : (mmu K B p).table B.kernelPageTable1 = some (bootstrap K B).kernelPageTable1 := by
  show (if _ then _ else _) = _
  rw [if_neg hB.low_ne_table1.symm, if_pos rfl]

theorem mmu_kernel2 (p : Pfa) : (mmu K B p).table B.kernelPageTable2 = some (bootstrap K B).kernelPageTable2 := by
  show (if _ then _ else _) = _
  rw [if_neg hB.low_ne_table2.symm, if_neg hB.table1_ne_table2.symm, if_pos rfl]

theorem mmu_heap (p : Pfa) {i : Nat} (hi : i < pfaPageTablesLen) :
    (mmu K B p).table (tablePhys K i) = some (p.pageTables i) := by
  have hge := tablePhys_ge K i
  have hlow := hB.low.2; have h1 := hB.table1.2; have h2 := hB.table2.2
  unfold mmu
  simp only
  rw [if_neg (by omega), if_neg (by omega), if_neg (by omega), tableAt_tablePhys hi]

variable (h : Backs K B p m next)
include h

/-- The first 4 MiB. -/
theorem translate_low (hv : v < 0x400000) : (mmu K B p).translate v = if v < 0x200000 then some v else none := by
  have hdir : (mmu K B p).directory (PageTables.directoryIndex v) = B.lowPageTable ||| pageDirFlags := by
    have hindex : PageTables.directoryIndex v = 0 := by
      rw [PageTables.directoryIndex_eq]
      omega
    rw [hindex]
    exact h.maps.outside 0 (by decide)
  have htable : B.lowPageTable % 4096 = 0 ∧ B.lowPageTable < 2 ^ 32 := ⟨hB.low.1, by have := hB.low.2; omega⟩
  have hentry := lowPageTable_eq K B (PageTables.tableIndex v)
  have hindex : PageTables.tableIndex v = v / 4096 := by
    rw [PageTables.tableIndex_eq]
    omega
  rw [hindex] at hentry
  by_cases hlow : v < 0x200000
  · rw [if_pos (by omega)] at hentry
    rw [if_pos hlow, PageTables.translate_mapped hdir (mmu_low p) (hindex ▸ hentry) htable
      (by simp only [pageSize]; omega) flags_present]
    simp only [pageSize, Option.some.injEq]
    omega
  · rw [if_neg (by omega)] at hentry
    rw [if_neg hlow, PageTables.translate_zero hdir (mmu_low p) (hindex ▸ hentry) htable (by decide)]

/-- The first 4 MiB for the kernel image, which are mapped whatever its size. -/
theorem translate_kernel1 (hlo : kernelStart ≤ v) (hhi : v < kernelStart + 4 * (1024 * 1024)) :
    (mmu K B p).translate v = some (kernelPhys v) := by
  have hphys := @kernelPhys_page v 0 (.inl rfl) (by simpa using hlo) (by simpa using hhi)
  have hindex := PageTables.tableIndex_eq v
  have hdindex : PageTables.directoryIndex v = 768 := by
    rw [PageTables.directoryIndex_eq]
    simp only [kernelStart] at hlo hhi
    omega
  have hdir : (mmu K B p).directory (PageTables.directoryIndex v) = B.kernelPageTable1 ||| pageDirFlags := by
    rw [hdindex]
    exact h.maps.outside 768 (by decide)
  have htable := hB.table1
  have hentry := kernelPageTable1_eq K B (PageTables.tableIndex v)
  have hpage : (kernelPhysStart + pageSize * PageTables.tableIndex v) % 4096 = 0 ∧
      kernelPhysStart + pageSize * PageTables.tableIndex v < 2 ^ 32 := by
    rw [hindex]
    simp only [kernelPhysStart, pageSize]
    omega
  rw [if_pos (by rw [hindex]; omega)] at hentry
  rw [PageTables.translate_mapped hdir (mmu_kernel1 hB p) hentry ⟨htable.1, by omega⟩ hpage flags_present, hindex, ← hphys]

/-- The next 4 MiB, up to the end of the kernel image. -/
theorem translate_kernel2 (hlo : kernelStart + 4 * (1024 * 1024) ≤ v) (hhi : v < heapStart) :
    (mmu K B p).translate v = if v < K.kernelEnd then some (kernelPhys v) else none := by
  have hphys := @kernelPhys_page v 1 (.inr rfl) (by simpa using hlo) (by simp only [heapStart, maxKernelSize] at hhi; omega)
  have hindex := PageTables.tableIndex_eq v
  have hdindex : PageTables.directoryIndex v = 769 := by
    rw [PageTables.directoryIndex_eq]
    simp only [heapStart, kernelStart, maxKernelSize] at hlo hhi
    omega
  have hdir : (mmu K B p).directory (PageTables.directoryIndex v) = B.kernelPageTable2 ||| pageDirFlags := by
    rw [hdindex]
    exact h.maps.outside 769 (by decide)
  have htable := hB.table2
  have hentry := kernelPageTable2_eq hB (PageTables.tableIndex v)
  have hpage : (kernelPhysMid + pageSize * PageTables.tableIndex v) % 4096 = 0 ∧
      kernelPhysMid + pageSize * PageTables.tableIndex v < 2 ^ 32 := by
    rw [hindex]
    simp only [kernelPhysMid, kernelPhysStart, pageSize]
    omega
  -- The page of `v` begins below the end of the image exactly when `v` lies below it.
  have hbelow : kernelStart + 4 * (1024 * 1024) + pageSize * PageTables.tableIndex v < K.kernelEnd ↔ v < K.kernelEnd := by
    have hend := hB.kernelEnd
    have hadd := kernelPhys_add (show kernelStart ≤ v by omega)
    rw [hindex]
    generalize K.kernelEnd = last at *
    generalize kernelPhys v = x at *
    simp only [kernelStart, kernelPhysStart, pageSize] at hend hadd hphys ⊢
    omega
  by_cases hv : v < K.kernelEnd
  · rw [if_pos (hbelow.mpr hv)] at hentry
    rw [PageTables.translate_mapped hdir (mmu_kernel2 hB p) hentry ⟨htable.1, by omega⟩ hpage flags_present, hindex, if_pos hv,
      ← hphys]
  · rw [if_neg fun hlt => hv (hbelow.mp hlt)] at hentry
    rw [PageTables.translate_zero hdir (mmu_kernel2 hB p) hentry ⟨htable.1, by omega⟩ (by decide), if_neg hv]

/-- The heap. -/
theorem translate_heap (hlo : heapStart ≤ v) (hhi : v < 2 ^ 32) :
    (mmu K B p).translate v = (m (v - v % 4096)).map (· + v % 4096) := by
  have hw : HeapPage (v - v % 4096) := by
    refine ⟨?_, by omega, ?_⟩ <;> simp only [heapStart, kernelStart, maxKernelSize, pageSize] at * <;> omega
  have hdindex : PageTables.directoryIndex v = firstEntry + tableIndex (v - v % 4096) := by
    rw [← PageTables.directoryIndex_page]
    exact hw.directoryEntry
  have hindex : PageTables.tableIndex v = entryIndex (v - v % 4096) := by
    rw [← PageTables.tableIndex_page]
    exact tableEntry_eq _
  have hentry := h.maps.entries _ hw
  rw [← hindex] at hentry
  have htable : tablePhys K (tableIndex (v - v % 4096)) % 4096 = 0 ∧ tablePhys K (tableIndex (v - v % 4096)) < 2 ^ 32 :=
    ⟨(tablePhys_eq K _).2, tablePhys_lt hw.tableIndex_lt.le⟩
  cases hm : m (v - v % 4096) with
  | none =>
    rw [hm] at hentry
    rcases h.maps.directory _ hw with hd | hd
    · exact PageTables.translate_of_directory (by rw [hdindex]; exact hd)
    · exact PageTables.translate_zero (by rw [hdindex]; exact hd) (mmu_heap hB p hw.tableIndex_lt) hentry htable (by decide)
  | some f =>
    rw [hm] at hentry
    obtain ⟨-, n, -, -, rfl⟩ := h.maps.frames _ _ hm
    have hd := h.maps.pointed _ hw (by rw [hm]; exact Option.some_ne_none _)
    exact PageTables.translate_mapped (by rw [hdindex]; exact hd) (mmu_heap hB p hw.tableIndex_lt) hentry htable
      ⟨pageFrame_aligned n, pageFrame_lt n⟩ flags_present

omit hB in
/-- Between the first 4 MiB and the kernel image. -/
theorem translate_other (hlo : 0x400000 ≤ v) (hhi : v < kernelStart) : (mmu K B p).translate v = none := by
  have hindex : 1 ≤ PageTables.directoryIndex v ∧ PageTables.directoryIndex v < 768 := by
    rw [PageTables.directoryIndex_eq]
    simp only [kernelStart] at hhi
    omega
  have hdir : p.pageDirectory (PageTables.directoryIndex v) = 0 := by
    rw [h.maps.outside _ (show _ < 770 by omega)]
    generalize PageTables.directoryIndex v = e at *
    have h0 : e ≠ 0 >>> 22 := by rintro rfl; omega
    have h1 : e ≠ 0xC0000000 >>> 22 := by rintro rfl; omega
    have h2 : e ≠ 0xC0400000 >>> 22 := by rintro rfl; omega
    rw [bootPageDirectory, if_neg h0, if_neg h1, if_neg h2]
  exact PageTables.translate_of_directory (by
    show p.pageDirectory _ &&& 1 = 0
    rw [hdir]
    rfl)

/-! ## The address space -/

/-- A byte of a committed page of the heap. -/
theorem translate_committed (hlo : heapStart ≤ v) (hhi : v < pagesEnd next) :
    ∃ f, m (v - v % 4096) = some f ∧ (mmu K B p).translate v = some (f + v % 4096) ∧ f % 4096 = 0 := by
  have hend := pagesEnd_le h.lt
  have hw : HeapPage (v - v % 4096) := by
    refine ⟨?_, by omega, ?_⟩ <;> simp only [heapStart, kernelStart, maxKernelSize, pageSize] at * <;> omega
  obtain ⟨f, hf⟩ := Option.ne_none_iff_exists'.mp ((h.committed _ hw).mpr (by omega))
  obtain ⟨-, n, hn, -, rfl⟩ := h.maps.frames _ _ hf
  refine ⟨_, hf, ?_, pageFrame_aligned n⟩
  rw [translate_heap hB h hlo (by omega), hf]
  rfl

theorem translate_above (hlo : pagesEnd next ≤ v) (hhi : v < 2 ^ 32) : (mmu K B p).translate v = none := by
  have hstart := Nat.le_trans h.lo hlo
  have ha : pagesEnd next % 4096 = 0 := by
    have ha := h.aligned
    unfold pagesEnd
    simp only [pageSize] at ha
    split <;> omega
  have hw : HeapPage (v - v % 4096) := by
    refine ⟨?_, by omega, ?_⟩ <;> simp only [heapStart, kernelStart, maxKernelSize, pageSize] at * <;> omega
  have hnone : m (v - v % 4096) = none := by
    by_contra hne
    have hlt := (h.committed _ hw).mp hne
    omega
  rw [translate_heap hB h hstart hhi, hnone]
  rfl

/-- Different bytes of the heap are different bytes of memory. -/
theorem heap_inj (hv : heapStart ≤ v) (hv' : v < pagesEnd next) (hw : heapStart ≤ w) (hw' : w < pagesEnd next)
    (he : (mmu K B p).translate v = (mmu K B p).translate w) : v = w := by
  obtain ⟨f, hf, htv, haf⟩ := translate_committed hB h hv hv'
  obtain ⟨g, hg, htw, hag⟩ := translate_committed hB h hw hw'
  rw [htv, htw, Option.some.injEq] at he
  obtain rfl : f = g := by omega
  have hpage := h.maps.inj _ _ _ hf hg
  omega

theorem addressSpace_of_backs (habove : ∀ w f, m w = some f → reservedPhys ≤ f) : AddressSpace K (mmu K B p) (pagesEnd next) := by
  have hend := K.image
  have hkernel : ∀ v, kernelStart ≤ v → v < kernelMapped K → (mmu K B p).translate v = some (kernelPhys v) := by
    intro v hlo hhi
    by_cases hhalf : v < kernelStart + 4 * (1024 * 1024)
    · exact translate_kernel1 hB h hlo hhalf
    · have hlt : v < K.kernelEnd := (lt_max_iff.mp hhi).resolve_right hhalf
      rw [translate_kernel2 hB h (by omega) (by simp only [heapStart]; omega), if_pos hlt]
  have hothers : ∀ v < 2 ^ 32, (mmu K B p).translate v ≠ none →
      v < 0x200000 ∨ (kernelStart ≤ v ∧ v < kernelMapped K) ∨ (heapStart ≤ v ∧ v < pagesEnd next) := by
    intro v hv hne
    by_cases h1 : v < 0x400000
    · rw [translate_low hB h h1] at hne
      exact .inl (by_contra fun hlow => hne (if_neg hlow))
    · by_cases h2 : v < kernelStart
      · exact absurd (translate_other h (by omega) h2) hne
      · by_cases h3 : v < heapStart
        · refine .inr (.inl ⟨by omega, ?_⟩)
          by_cases hhalf : v < kernelStart + 4 * (1024 * 1024)
          · exact lt_max_iff.mpr (.inr hhalf)
          · rw [translate_kernel2 hB h (by omega) h3] at hne
            exact lt_max_iff.mpr (.inl (by_contra fun hlt => hne (if_neg hlt)))
        · refine .inr (.inr ⟨by omega, ?_⟩)
          by_contra hge
          exact hne (translate_above hB h (by omega) hv)
  have hlow : ∀ v < 0x200000, (mmu K B p).translate v = some v := by
    intro v hv
    rw [translate_low hB h (by omega), if_pos hv]
  have hheap : ∀ v, heapStart ≤ v → v < pagesEnd next → ∃ x, (mmu K B p).translate v = some x ∧ reservedPhys ≤ x := by
    intro v hlo hhi
    obtain ⟨f, hf, ht, -⟩ := translate_committed hB h hlo hhi
    exact ⟨_, ht, Nat.le_trans (habove _ f hf) (Nat.le_add_right ..)⟩
  -- A physical address says where the virtual one is.
  have hplace : ∀ v < 2 ^ 32, ∀ x, (mmu K B p).translate v = some x → (x < 0x200000 ∧ x = v) ∨
      (0x200000 ≤ x ∧ x < reservedPhys ∧ x + (kernelStart - kernelPhysStart) = v) ∨
        (heapStart ≤ v ∧ v < pagesEnd next ∧ reservedPhys ≤ x) := by
    intro v hv x hx
    rcases hothers v hv (by rw [hx]; exact Option.some_ne_none x) with h1 | ⟨h2, h2'⟩ | ⟨h3, h3'⟩
    · obtain rfl : v = x := Option.some.inj ((hlow v h1).symm.trans hx)
      exact .inl ⟨h1, rfl⟩
    · obtain rfl : kernelPhys v = x := Option.some.inj ((hkernel v h2 h2').symm.trans hx)
      have hadd := kernelPhys_add h2
      have hlt : v < heapStart := by
        rcases lt_max_iff.mp h2' with hlt | hlt
        · simp only [heapStart, kernelStart, maxKernelSize] at *
          omega
        · simp only [heapStart, maxKernelSize] at *
          omega
      generalize kernelPhys v = x at *
      simp only [heapStart, kernelStart, maxKernelSize, kernelPhysStart, reservedPhys] at *
      omega
    · obtain ⟨y, hy, hor⟩ := hheap v h3 h3'
      obtain rfl : y = x := Option.some.inj (hy.symm.trans hx)
      omega
  have hreserved : 0x200000 ≤ reservedPhys := by decide
  refine ⟨hlow, hkernel, hheap, hothers, fun v hv w hw x hx hx' => ?_⟩
  rcases hplace v hv x hx with ⟨h1, e1⟩ | ⟨h2, h2', e2⟩ | ⟨h3, h3', h3''⟩
  · rcases hplace w hw x hx' with ⟨-, e⟩ | ⟨hge, -⟩ | ⟨-, -, hge⟩ <;> omega
  · rcases hplace w hw x hx' with ⟨hlt, -⟩ | ⟨-, -, e⟩ | ⟨-, -, hge⟩ <;> omega
  · rcases hplace w hw x hx' with ⟨hlt, -⟩ | ⟨-, hlt, -⟩ | ⟨hw₁, hw₂, -⟩
    · omega
    · omega
    · exact heap_inj hB h h3 h3' hw₁ hw₂ (hx.trans hx'.symm)

end

/-! ## Sound frames -/

/-- Below a sound frame, no page that is not one is left, and while one is left every page of the heap is in one. -/
def SoundlyBacked (K : KernelImage) (B : BootTables) (l : List MMapSegment) (p : Pfa) (next : Nat) : Prop :=
  MarkedBelow l p ∧ ∃ m, Backs K B p m next ∧ (SoundFrameLeft l p → ∀ w f, m w = some f → SoundFrame l f)

/-- A commit leaves no frame that was not left before. -/
theorem soundFrameLeft_mapPage {n : Nat} (h : SoundFrameLeft l (mapPage K p v n)) : SoundFrameLeft l p := by
  obtain ⟨k, hk, hclear, hsound⟩ := h
  refine ⟨k, hk, ?_, hsound⟩
  simp only [mapPage, Framework.Bitmap.isSet_setBit, Bool.or_eq_false_iff] at hclear
  exact hclear.1

theorem soundlyBacked_kept (K : KernelImage) (B : BootTables) (l : List MMapSegment) :
    KeptByCommits (pfaSupply K) (SoundlyBacked K B l) where
  fails p v p' := by
    intro h hr
    rcases pfaCommitPage_fails hr with ⟨-, -, hsame⟩ | ⟨hb, -⟩
    · rw [hsame]
      exact h
    · cases hb
  commits p v p' := by
    intro h hr
    obtain ⟨hmark, m, hm, hsound⟩ := h
    have hiff := fun hv => mapsSound_commit hmark hv hr
    obtain ⟨n, hv, -, rfl, hm'⟩ := hm.commit hr
    have hmark' : MarkedBelow l (mapPage K p v n) := fun i u hiu hu hi => by simp [mapPage, hmark i u hiu hu hi]
    refine ⟨hmark', _, hm', fun hleft w f hf => ?_⟩
    have hleft' := soundFrameLeft_mapPage hleft
    by_cases hw : w = v
    · rw [hw, Function.update_self] at hf
      obtain ⟨frame, hframe, hs⟩ := (hiff hv).mpr hleft'
      rw [mappedFrame, Maps.walk_mapPage K p hv, Option.map_some, entry_address (pageFrame_aligned n) (pageFrame_lt n)]
        at hframe
      rw [← Option.some.inj hf, Option.some.inj hframe]
      exact hs
    · rw [Function.update_of_ne hw] at hf
      exact hsound hleft' w f hf

/-! ## Runs -/

/-- After the boot no page of the heap is mapped. -/
theorem backs_boot (K : KernelImage) (B : BootTables) (bitmap : Words) :
    Backs K B ⟨bitmap, fun _ _ => 0, (bootstrap K B).pageDirectory⟩ (fun _ => none) heapStart := by
  rw [bootstrap_pageDirectory]
  exact backs_init K B bitmap

theorem soundlyBacked_reachable {ok : HeapState Pfa → HeapEvent → Prop} {s : HeapState Pfa} (hmap : MemoryMap boot l)
    (hs : (kernelHeap K B boot).Reachable ok s) : SoundlyBacked K B l s.heap.supply s.heap.nextPageVirtAddr := by
  refine (soundlyBacked_kept K B l).reachable rfl ?_ hs
  rintro _ ⟨fuel, bitmap, mem, hinit, rfl⟩
  exact ⟨markedBelow_init hmap hinit, _, backs_boot K B bitmap, fun _ _ _ hf => by cases hf⟩

/-- The address space of a state that has a sound frame left. -/
theorem SoundlyBacked.space (hB : B.Placed K) (h : SoundlyBacked K B l p next) (hleft : SoundFrameLeft l p) :
    AddressSpace K (mmu K B p) (pagesEnd next) := by
  obtain ⟨-, m, hm, hsound⟩ := h
  exact addressSpace_of_backs hB hm fun w f hf => (hsound hleft w f hf).1

/-- The tables of `bootstrap.c`, one after the other. -/
def threeTables : BootTables := ⟨0x101000, 0x102000, 0x103000⟩

theorem placed_threeTables : threeTables.Placed twoMegabyteImage where
  kernelEnd := by decide
  low := by decide
  table1 := by decide
  table2 := by decide
  low_ne_table1 := by decide
  low_ne_table2 := by decide
  table1_ne_table2 := by decide

/-- The kernel after the boot, with memory from 1 MiB up to 64 MiB. -/
def bootedState : HeapState Pfa :=
  ⟨memoryInit (fun _ => 0) ⟨fun _ => 0, fun _ _ => 0, (bootstrap twoMegabyteImage threeTables).pageDirectory⟩, []⟩

theorem reachable_booted (ok : HeapState Pfa → HeapEvent → Prop) :
    (kernelHeap twoMegabyteImage threeTables (oneEntry 0x100000 0x3f00000)).Reachable ok bootedState :=
  .init ⟨2, _, _, pfaInit_oneEntry (by decide), rfl⟩

/-- The first block after the boot. -/
theorem allocate_booted : ∃ s, runEvent (pfaSupply twoMegabyteImage) 8 bootedState (.allocate 100 (heapStart + 4)) = some s ∧
    s.live = [⟨heapStart + 4, 100⟩] ∧ heapEnd s.heap = heapStart + pageSize ∧ s.heap.freeSegmentsHead = heapStart + 104 ∧
      s.heap.length s.heap.freeSegmentsHead = 3992 ∧ isSet s.heap.supply.pageBitmap 1 = false := by
  have hrun : (runEvent (pfaSupply twoMegabyteImage) 8 bootedState (.allocate 100 (heapStart + 4))).map (fun s =>
      (s.live, heapEnd s.heap, s.heap.freeSegmentsHead, s.heap.length s.heap.freeSegmentsHead,
        isSet s.heap.supply.pageBitmap 1)) =
      some ([⟨heapStart + 4, 100⟩], heapStart + pageSize, heapStart + 104, 3992, false) := by decide +kernel
  obtain ⟨s, hs, he⟩ := Option.map_eq_some_iff.mp hrun
  simp only [Prod.mk.injEq] at he
  exact ⟨s, hs, he⟩

/-- The frame of the second bit is in that memory. -/
theorem soundFrameLeft_second (h : isSet p.pageBitmap 1 = false) : SoundFrameLeft [⟨20, 0x100000, 0x3f00000, 1⟩] p := by
  refine ⟨1, by decide, h, by decide, by decide, _, List.mem_singleton_self _, rfl, fun a ha ha' => ?_⟩
  simp only [pageAddr, reservedPhys, pageSize] at ha ha'
  exact ⟨by simp only; omega, by simp only; omega⟩

/-- The blocks with their headers are above the reserved memory, no byte of two of them in one place. -/
structure BlocksInMemory (T : PageTables) (live : List Block) : Prop where
  mapped : ∀ b ∈ live, ∀ a, b.ptr - 4 ≤ a → a < b.ptr + b.size → ∃ x, T.translate a = some x ∧ reservedPhys ≤ x
  apart : live.Pairwise fun b c => ∀ a, b.ptr - 4 ≤ a → a < b.ptr + b.size →
    ∀ a', c.ptr - 4 ≤ a' → a' < c.ptr + c.size → T.translate a ≠ T.translate a'

/-- As long as a sound frame is left, every byte of the heap is in general purpose memory
between 10 MiB and 4 GiB. -/
theorem heap_in_ram (K : KernelImage) (B : BootTables) (boot : MultibootInfo) (l : List MMapSegment) (hB : B.Placed K)
    (hmap : MemoryMap boot l) (s : HeapState Pfa) (hs : (kernelHeap K B boot).Reachable (fun _ _ => True) s)
    (hleft : SoundFrameLeft l s.heap.supply) (v : Nat) (hlo : heapStart ≤ v) (hhi : v < heapEnd s.heap) :
    ∃ x, (mmu K B s.heap.supply).translate v = some x ∧ reservedPhys ≤ x ∧ x < 2 ^ 32 ∧
      ∃ e ∈ l, e.type = 1 ∧ Covers e x := by
  obtain ⟨-, m, hm, hsound⟩ := soundlyBacked_reachable hmap hs
  obtain ⟨f, hf, ht, ha⟩ := translate_committed hB hm hlo hhi
  obtain ⟨hf₁, hf₂, e, he, htype, hcovers⟩ := hsound hleft _ f hf
  refine ⟨_, ht, by omega, by simp only [pageSize] at hf₂; omega, e, he, htype, hcovers _ (by omega) ?_⟩
  simp only [pageSize]
  omega

end OSForReal.Proof.Pages
