import OSForReal.Arch.Bootstrap
import OSForReal.Framework.Paging
import OSForReal.Proof.Pages.Map

/-!
# What the boot code maps

The tables of `bootstrap`, entry by entry: `lowPageTable_eq`,
`kernelPageTable1_eq` and `kernelPageTable2_eq`. Its page directory is the one
that the page frame allocator starts from (`bootstrap_pageDirectory`).
-/

namespace OSForReal.Proof.Pages

variable {K : KernelImage} {B : BootTables} {table : Nat → Nat} {e i n phys : Nat}

/-- The loop over whole pages maps the page of each entry it reaches, and leaves the others. -/
theorem mapRange_eq (base : Nat) (hbase : base % 1024 = 0) (hn : i + n ≤ 1024) :
    mapRange table (pageSize * (base + i)) phys (phys + pageSize * n) e =
      if i ≤ e ∧ e < i + n then (phys + pageSize * (e - i)) ||| pageTableFlags else table e := by
  induction n generalizing table i phys with
  | zero => rw [mapRange, if_neg (by omega), if_neg (by omega)]
  | succ n ih =>
    have hentry : ((pageSize * (base + i)) >>> 12) &&& 0x3FF = i := by
      rw [Nat.shiftRight_eq_div_pow, show (0x3FF : Nat) = 2 ^ 10 - 1 by rfl, Nat.and_two_pow_sub_one_eq_mod,
        Nat.mul_div_cancel_left _ (by decide)]
      omega
    have hvirt : pageSize * (base + i) + pageSize = pageSize * (base + (i + 1)) := by ring
    have hphys : phys + pageSize * (n + 1) = phys + pageSize + pageSize * n := by ring
    rw [mapRange, if_pos (by simp only [pageSize]; omega), hentry, hvirt, hphys, ih (by omega)]
    by_cases hi : e = i
    · rw [if_neg (by omega), if_pos (by omega), hi, Function.update_self, Nat.sub_self, Nat.mul_zero, Nat.add_zero]
    · rw [Function.update_of_ne hi]
      by_cases hr : i ≤ e ∧ e < i + (n + 1)
      · have hshift : phys + pageSize + pageSize * (e - (i + 1)) = phys + pageSize * (e - i) := by
          simp only [pageSize]
          omega
        rw [if_pos (by omega), if_pos hr, hshift]
      · rw [if_neg (by omega), if_neg hr]

/-- A loop over an empty table, from the first entry of it on. -/
theorem mapRange_zero (base : Nat) (hbase : base % 1024 = 0) (hn : n ≤ 1024) :
    mapRange (fun _ => 0) (pageSize * base) phys (phys + pageSize * n) e =
      if e < n then (phys + pageSize * e) ||| pageTableFlags else 0 := by
  have h := @mapRange_eq (fun _ => 0) e 0 n phys base hbase (by omega)
  simpa using h

theorem lowPageTable_eq (K : KernelImage) (B : BootTables) (e : Nat) :
    (bootstrap K B).lowPageTable e = if e < 512 then (pageSize * e) ||| pageTableFlags else 0 := by
  have h := @mapRange_zero e 512 0 0 (by decide) (by decide)
  simp only [Nat.zero_add] at h
  exact h

theorem kernelPageTable1_eq (K : KernelImage) (B : BootTables) (e : Nat) :
    (bootstrap K B).kernelPageTable1 e = if e < 1024 then (kernelPhysStart + pageSize * e) ||| pageTableFlags else 0 :=
  @mapRange_zero e 1024 kernelPhysStart 786432 (by decide) (by decide)

/-- The second 4 MiB of the kernel image, if it has them. -/
theorem kernelPageTable2_eq (h : B.Placed K) (e : Nat) : (bootstrap K B).kernelPageTable2 e =
    if kernelStart + 4 * (1024 * 1024) + pageSize * e < K.kernelEnd then (kernelPhysMid + pageSize * e) ||| pageTableFlags
    else 0 := by
  have hend := h.kernelEnd
  have himage := K.image
  show mapRange (fun _ => 0) (pageSize * 787456) kernelPhysMid (kernelPhysStart + (K.kernelEnd - kernelStart)) e = _
  generalize K.kernelEnd = last at *
  by_cases hle : last ≤ kernelStart + 4 * (1024 * 1024)
  · rw [mapRange, if_neg (by simp only [kernelPhysMid]; omega), if_neg (by omega)]
  · obtain ⟨n, hn⟩ : ∃ n, last = kernelStart + 4 * (1024 * 1024) + pageSize * n := by
      refine ⟨(last - (kernelStart + 4 * (1024 * 1024))) / pageSize, ?_⟩
      simp only [kernelStart, maxKernelSize, pageSize] at *
      omega
    have hphys : kernelPhysStart + (last - kernelStart) = kernelPhysMid + pageSize * n := by
      simp only [kernelStart, kernelPhysStart, kernelPhysMid, pageSize] at *
      omega
    rw [hphys, mapRange_zero 787456 (by decide) (by simp only [kernelStart, maxKernelSize, pageSize] at *; omega), hn]
    simp only [pageSize, Nat.add_lt_add_iff_left, Nat.mul_lt_mul_left (show 0 < 4096 by decide)]

/-- The page directory of the boot code is the one that `pfa_commit_page` adds its tables to. -/
theorem bootstrap_pageDirectory (K : KernelImage) (B : BootTables) :
    (bootstrap K B).pageDirectory = bootPageDirectory B := by
  funext e
  have h0 : (0 >>> 22 : Nat) ≠ 0xC0000000 >>> 22 := by decide
  have h0' : (0 >>> 22 : Nat) ≠ 0xC0400000 >>> 22 := by decide
  have h1 : (0xC0000000 >>> 22 : Nat) ≠ 0xC0400000 >>> 22 := by decide
  unfold bootPageDirectory bootstrap
  simp only [Function.update_apply]
  by_cases e2 : e = 0xC0400000 >>> 22
  · rw [if_pos e2, if_neg (by omega), if_neg (by omega), if_pos e2]
  · rw [if_neg e2]
    by_cases e1 : e = 0xC0000000 >>> 22
    · rw [if_pos e1, if_neg (by omega), if_pos e1]
    · rw [if_neg e1, if_neg e1, if_neg e2]

end OSForReal.Proof.Pages
