import OSForReal.Framework.Word
import OSForReal.Kernel.PageFrameAllocator

/-!
# The two-level walk, and what a commit does

`walk` is how the processor reads the page directory and the table that its
entry points at; it finds the tables of `pfa_page_tables` at their physical
addresses. `pfaCommitPage_eq` says what `pfa_commit_page` does to a heap page
(`mapPage`), and `walk_mapPage` what the walk finds afterwards.
-/

namespace OSForReal.Proof.Pages

open Framework (Res)
open Framework.Bitmap (Words isSet setBit firstClear)

/-- The physical address of page table `i`. -/
def tablePhys (K : KernelImage) (i : Nat) : Nat := kernelPhys (K.pfaPageTables + i * pageSize)

/-- The page table at a physical address, if it is one of `pfa_page_tables`. -/
def tableAt (K : KernelImage) (p : Pfa) (phys : Nat) : Option (Nat → Nat) :=
  if tablePhys K 0 ≤ phys ∧ phys < tablePhys K pfaPageTablesLen ∧ phys % pageSize = 0 then
    some (p.pageTables ((phys - tablePhys K 0) / pageSize))
  else none

/-- The entry for `v` in the table that a page directory entry points at. -/
def tableEntry (K : KernelImage) (p : Pfa) (v : Nat) : Option Nat :=
  (tableAt K p (p.pageDirectory (v >>> 22) &&& 0xfffff000)).map fun t => t ((v >>> 12) &&& 0x3FF)

/-- The page table entry that the walk for `v` ends with, if the page is present. -/
def walk (K : KernelImage) (p : Pfa) (v : Nat) : Option Nat :=
  if p.pageDirectory (v >>> 22) &&& 1 = 0 then none
  else (tableEntry K p v).filter fun e => e &&& 1 ≠ 0

/-- The walk for `v` stops at an entry whose present bit is clear. -/
def NotPresent (K : KernelImage) (p : Pfa) (v : Nat) : Prop :=
  p.pageDirectory (v >>> 22) &&& 1 = 0 ∨ ∃ e, tableEntry K p v = some e ∧ e &&& 1 = 0

/-- A page of the heap. -/
structure HeapPage (v : Nat) : Prop where
  lo : heapStart ≤ v
  hi : v < 2 ^ 32
  aligned : v % pageSize = 0

/-- The page table of a heap page. -/
def tableIndex (v : Nat) : Nat := (v - heapStart) / (pageSize * 1024)

/-- The entry of a heap page in its table. -/
def entryIndex (v : Nat) : Nat := v / pageSize % 1024

/-- The page directory entry of the first heap page. -/
abbrev firstEntry : Nat := 770

variable {K : KernelImage} {p : Pfa} {v w n : Nat}

/-! ## Addresses -/

theorem HeapPage.tableIndex_lt (h : HeapPage v) : tableIndex v < pfaPageTablesLen := by
  have := h.lo; have := h.hi
  simp only [tableIndex, heapStart, kernelStart, maxKernelSize, pageSize, pfaPageTablesLen] at *
  omega

theorem HeapPage.directoryEntry (h : HeapPage v) : v >>> 22 = firstEntry + tableIndex v := by
  have := h.lo
  rw [Nat.shiftRight_eq_div_pow]
  simp only [tableIndex, heapStart, kernelStart, maxKernelSize, pageSize, firstEntry] at *
  omega

theorem tableEntry_eq (v : Nat) : (v >>> 12) &&& 0x3FF = entryIndex v := by
  rw [Nat.shiftRight_eq_div_pow, show (0x3FF : Nat) = 2 ^ 10 - 1 by rfl, Nat.and_two_pow_sub_one_eq_mod]
  rfl

/-- A heap page is determined by its table and its entry there. -/
theorem HeapPage.eq_of_indices (h : HeapPage v) (hw : HeapPage w) (ht : tableIndex v = tableIndex w)
    (he : entryIndex v = entryIndex w) : v = w := by
  have := h.lo; have := h.aligned; have := hw.lo; have := hw.aligned
  simp only [tableIndex, entryIndex, heapStart, kernelStart, maxKernelSize, pageSize] at *
  omega

theorem mappedVirtToPfaTablesIndex_eq (h : HeapPage v) : mappedVirtToPfaTablesIndex v = .ok (tableIndex v) := by
  have hlt := h.tableIndex_lt
  have hv : (v + 2 ^ 32 - (kernelStart + maxKernelSize)) % 2 ^ 32 = v - heapStart := by
    have := h.lo; have := h.hi
    simp only [heapStart, kernelStart, maxKernelSize] at *
    omega
  simp only [mappedVirtToPfaTablesIndex, hv]
  exact Res.assert_bind hlt _

/-! ## Physical addresses -/

theorem tablePhys_add (K : KernelImage) (i : Nat) :
    tablePhys K i + (kernelStart - kernelPhysStart) = K.pfaPageTables + i * pageSize :=
  Nat.sub_add_cancel (Nat.le_trans (by decide) (Nat.le_trans K.lo (Nat.le_add_right ..)))

theorem tablePhys_eq (K : KernelImage) (i : Nat) :
    tablePhys K i = tablePhys K 0 + i * pageSize ∧ tablePhys K i % pageSize = 0 := by
  have hal := K.aligned
  have hi := tablePhys_add K i
  have h0 := tablePhys_add K 0
  generalize tablePhys K i = x at *
  generalize tablePhys K 0 = y at *
  simp only [kernelStart, kernelPhysStart, pageSize] at *
  omega

theorem tablePhys_lt {i : Nat} (hi : i ≤ pfaPageTablesLen) : tablePhys K i < 2 ^ 32 := by
  have himage := K.image
  have hhi := K.hi
  have hadd := tablePhys_add K i
  generalize tablePhys K i = x at *
  simp only [kernelStart, kernelPhysStart, maxKernelSize, pageSize, pfaPageTablesLen] at *
  omega

theorem tableAt_tablePhys {i : Nat} (hi : i < pfaPageTablesLen) :
    tableAt K p (tablePhys K i) = some (p.pageTables i) := by
  obtain ⟨e, hal⟩ := tablePhys_eq K i
  obtain ⟨e', -⟩ := tablePhys_eq K pfaPageTablesLen
  have hidx : (tablePhys K i - tablePhys K 0) / pageSize = i := by
    simp only [pageSize] at *
    omega
  unfold tableAt
  rw [if_pos ⟨by omega, by simp only [pageSize, pfaPageTablesLen] at *; omega, hal⟩, hidx]

theorem pfaTablesIndexToTablePhys_eq {i : Nat} (hi : i < pfaPageTablesLen) :
    pfaTablesIndexToTablePhys K i = .ok (tablePhys K i) := by
  have hlo := K.lo; have hhi := K.hi
  unfold pfaTablesIndexToTablePhys
  rw [Res.assert_bind hi]
  refine Res.assert_bind ⟨Nat.le_trans hlo (Nat.le_add_right ..), ?_⟩ _
  simp only [pageSize, pfaPageTablesLen] at *
  omega

/-! ## Entries -/

/-- The flags of an entry are in the bits that an aligned address leaves clear. -/
theorem entry_eq {x : Nat} (hx : x % pageSize = 0) : x ||| 0x27 = x + 0x27 := by
  have e : x = 2 ^ 12 * (x / 2 ^ 12) := by simp only [pageSize] at hx; omega
  rw [e]
  exact (Nat.two_pow_add_eq_or_of_lt (by decide) _).symm

theorem entry_address {x : Nat} (hx : x % pageSize = 0) (hlt : x < 2 ^ 32) :
    (x ||| 0x27) &&& 0xfffff000 = x := by
  have hmask : (x + 0x27) &&& 0xfffff000 = 2 ^ 12 * ((x + 0x27) / 2 ^ 12) :=
    @Framework.Word.land_clear_low (x + 0x27) 12 (by simp only [pageSize] at hx; omega) (by decide)
  rw [entry_eq hx, hmask]
  simp only [pageSize] at hx
  omega

theorem entry_present {x : Nat} (hx : x % pageSize = 0) : (x ||| 0x27) &&& 1 = 1 := by
  rw [entry_eq hx, Nat.and_one_is_mod]
  simp only [pageSize] at hx
  omega

theorem pageFrame_aligned (n : Nat) : pageFrame n % pageSize = 0 := by
  simp only [pageFrame, reservedPhys, pageSize]
  omega

theorem pageFrame_lt (n : Nat) : pageFrame n < 2 ^ 32 := Nat.mod_lt _ (by decide)

/-- Different bits of the bitmap stand for different frames. -/
theorem pageFrame_inj {m : Nat} (hn : n < pfaPageBitmapLen * 32) (hm : m < pfaPageBitmapLen * 32)
    (h : pageFrame n = pageFrame m) : n = m := by
  simp only [pageFrame, reservedPhys, pageSize, pfaPageBitmapLen] at *
  omega

/-! ## What a commit does -/

/-- Maps the heap page `v` to the frame of bit `n`, which it sets. -/
def mapPage (K : KernelImage) (p : Pfa) (v n : Nat) : Pfa where
  pageBitmap := setBit p.pageBitmap n
  pageTables := Function.update p.pageTables (tableIndex v)
    (Function.update (p.pageTables (tableIndex v)) (entryIndex v) (pageFrame n ||| 0x27))
  pageDirectory := Function.update p.pageDirectory (firstEntry + tableIndex v) (tablePhys K (tableIndex v) ||| 0x27)

/-- What `pfa_commit_page` does to a heap page. -/
theorem pfaCommitPage_eq (K : KernelImage) (p : Pfa) (h : HeapPage v) :
    pfaCommitPage K p v = match firstClear p.pageBitmap pfaPageBitmapLen with
      | some n => .ok (true, mapPage K p v n)
      | none => .ok (false, p) := by
  have hal : v &&& 0xfff = 0 := by
    rw [show (0xfff : Nat) = 2 ^ 12 - 1 by rfl, Nat.and_two_pow_sub_one_eq_mod]
    exact h.aligned
  unfold pfaCommitPage takeFrame
  rw [Res.assert_bind hal]
  cases hf : firstClear p.pageBitmap pfaPageBitmapLen with
  | none => rfl
  | some n =>
    have hfr := pageFrame_aligned n
    have hne : pageFrame n ≠ 1 := by intro e; rw [e] at hfr; exact absurd hfr (by decide)
    have hal' : pageFrame n &&& 0xFFF = 0 := by
      rw [show (0xFFF : Nat) = 2 ^ 12 - 1 by rfl, Nat.and_two_pow_sub_one_eq_mod]
      exact hfr
    simp only [hne, ↓reduceIte]
    rw [Res.assert_bind hal', mappedVirtToPfaTablesIndex_eq h, Res.ok_bind,
      pfaTablesIndexToTablePhys_eq h.tableIndex_lt, Res.ok_bind]
    simp only [mappedVirtToPageDirectoryEntry, mappedVirtToPageTableEntry, h.directoryEntry, tableEntry_eq]
    rfl

/-- A page that could be committed is not below the heap. -/
theorem pfaCommitPage_range {p' : Pfa} (hv : v < 2 ^ 32) (h : pfaCommitPage K p v = .ok (true, p')) :
    heapStart ≤ v := by
  unfold pfaCommitPage at h
  obtain ⟨_, -, h⟩ := Res.bind_eq_ok.mp h
  simp only at h
  split at h
  · cases h
  · obtain ⟨_, -, h⟩ := Res.bind_eq_ok.mp h
    obtain ⟨i, hi, -⟩ := Res.bind_eq_ok.mp h
    obtain ⟨_, hi, -⟩ := Res.bind_eq_ok.mp hi
    rw [Res.assert_eq_ok] at hi
    simp only [heapStart, kernelStart, maxKernelSize, pageSize, pfaPageTablesLen] at *
    omega

/-- The allocator as the heap's supply of pages. -/
def pfaSupply (K : KernelImage) : PageSupply Pfa where
  commit := pfaCommitPage K
  commit_range := pfaCommitPage_range

end OSForReal.Proof.Pages
