import OSForReal.Proof.TagFS.ReadBack
import OSForReal.Proof.Tfs.Read

/-!
# Searching the FAT in memory

What a search for a free entry finds, and where skipping sectors arrives, in the
copy of the FAT that a call has. An entry in the first FAT sector is found and
followed as on the disk (`tfsFindFreeFat_low`, `skipFats_low`); of the second
FAT sector the memory may show anything: no free entry (`endsOnly`), free ones
only, or entries that lead back to themselves (`selfLoops`).
-/

namespace OSForReal.Proof.Tfs

open Framework
open Framework.Bytes
open OSForReal.TagFS
open OSForReal.Proof.TagFS

variable {fs : FSMetadata} {img view fats : Bytes} {l : List Nat} {g i k x : Nat}

/-! ## Free entries -/

theorem tfsFindFreeFat_none (K : KernelImage fs) (h : tfsFindFreeFat fs fats = none) (hx : x < 512) : fatsAt fats x ≠ 0 := by
  have hcount : fs.fatSectorCount * fs.sectorSize % 2 ^ 32 / 2 = 512 := K.fatCount_eq
  simp only [tfsFindFreeFat, hcount] at h
  split at h
  · cases h
  · rename_i hge
    intro h0
    have hmiss := scan_before (p := fun i => fatsAt fats i == 0) (Nat.zero_le x) (Nat.lt_of_lt_of_le hx (Nat.le_of_not_lt hge))
    rw [h0] at hmiss
    cases hmiss

/-- Below the first free entry, none is free. -/
theorem fat_ne_zero_of_lt (hx : x < nextFreeFat fs img 0) : fat fs img x ≠ 0 := fun h0 => by
  have hle := nextFreeFat_le (Nat.zero_le x) h0
  omega

/-- A free entry in the first FAT sector is found. -/
theorem tfsFindFreeFat_low (K : KernelImage fs) (h : nextFreeFat fs img 0 < 256) :
    tfsFindFreeFat fs (viewFats fs img view) = some (nextFreeFat fs img 0) := by
  have hcount : fs.fatSectorCount * fs.sectorSize % 2 ^ 32 / 2 = 512 := K.fatCount_eq
  have hfree : fat fs img (nextFreeFat fs img 0) = 0 := nextFreeFat_free (by rw [K.fatCount_eq]; omega)
  have hscan : scan (fun i => fatsAt (viewFats fs img view) i == 0) 512 0 = nextFreeFat fs img 0 := by
    refine (scan_eq_iff (Nat.zero_le _) (by omega) (Nat.zero_le _)).mpr ⟨?_, fun x _ hx => ?_⟩
    · rw [fatsAt_low K h, beq_iff_eq]
      exact hfree
    · rw [fatsAt_low K (by omega), beq_eq_false_iff_ne]
      exact fat_ne_zero_of_lt hx
  simp only [tfsFindFreeFat, hcount, hscan]
  rw [if_pos (by omega)]

/-- No other is found where the memory held no zeroes. -/
theorem tfsFindFreeFat_endsOnly (K : KernelImage fs) (hview : Shows view endsOnly) (h : 256 ≤ nextFreeFat fs img 0) :
    tfsFindFreeFat fs (viewFats fs img view) = none := by
  cases hfree : tfsFindFreeFat fs (viewFats fs img view) with
  | none => rfl
  | some g =>
    obtain ⟨hg, h0⟩ := tfsFindFreeFat_some K hfree
    rcases Nat.lt_or_ge g 256 with hlow | hhigh
    · rw [fatsAt_low K hlow] at h0
      exact absurd h0 (fat_ne_zero_of_lt (by omega))
    · rw [fatsAt_endsOnly hview hhigh hg] at h0
      cases h0

/-- Memory of zeroes shows a free entry. -/
theorem tfsFindFreeFat_zeroes (K : KernelImage fs) (hview : Shows view fun _ => 0) :
    ∃ g, tfsFindFreeFat fs (viewFats fs img view) = some g := by
  cases hfree : tfsFindFreeFat fs (viewFats fs img view) with
  | none =>
    refine absurd ?_ (tfsFindFreeFat_none K hfree (by decide : 256 < 512))
    rw [fatsAt_shows hview (Nat.le_refl _) (by decide)]
    rfl
  | some g => exact ⟨g, rfl⟩

/-! ## Skipping -/

/-- The first sector of a chain is one of the FAT. -/
theorem first_lt (K : KernelImage fs) (h : FatChain fs img g l) (hl : l ≠ []) : g < 512 := by
  obtain ⟨y, l, rfl⟩ := List.exists_cons_of_ne_nil hl
  obtain rfl := h.cons_inv
  rw [← K.fatCount_eq]
  exact h.2 y List.mem_cons_self

theorem getD_lt (K : KernelImage fs) (h : FatChain fs img g l) (hk : k < l.length) : l.getD k 0 < 512 := by
  rw [← K.fatCount_eq]
  exact h.getD_lt hk

/-- Along entries of the first FAT sector, skipping arrives where the chain does. -/
theorem skipFats_low (K : KernelImage fs) (h : FatChain fs img g l) (hk : k < l.length)
    (hlow : ∀ j < k, l.getD j 0 < 256) : skipFats (viewFats fs img view) k g = some (l.getD k 0) := by
  rw [skipFats_eq h.1 (Nat.le_of_lt hk) fun y hy => ?_, skipSectors_getD K.layout h hk]
  obtain ⟨j, hj, rfl⟩ := mem_take_of_getD (Nat.le_of_lt hk) hy
  exact fatsAt_low K (hlow j hj)

/-- After the last sector, it fails. -/
theorem skipFats_length (K : KernelImage fs) (h : FatChain fs img g l) (hl : l ≠ [])
    (hlow : ∀ j < l.length, l.getD j 0 < 256) : skipFats (viewFats fs img view) l.length g = none := by
  rw [skipFats_eq h.1 (Nat.le_refl _) fun y hy => ?_, skipSectors_length h hl]
  obtain ⟨j, hj, rfl⟩ := mem_take_of_getD (Nat.le_refl _) hy
  exact fatsAt_low K (hlow j hj)

/-- Memory in which every entry is its own successor. -/
def selfLoops : Bytes := fun a => byte (a / 2) (a % 2)

theorem fatsAt_selfLoops (hview : Shows view selfLoops) (hi : 256 ≤ i) (hi' : i < 512) :
    fatsAt (viewFats fs img view) i = i := by
  rw [fatsAt_shows hview hi hi']
  unfold u16 selfLoops
  rw [show 2 * i / 2 = i by omega, show 2 * i % 2 = 0 by omega, show (2 * i + 1) / 2 = i by omega,
    show (2 * i + 1) % 2 = 1 by omega, byte_toNat, byte_toNat]
  omega

/-- With such memory, skipping stays at an entry that is not read, and succeeds. -/
theorem skipFats_selfLoops (K : KernelImage fs) (hview : Shows view selfLoops) (h : FatChain fs img g l) (hk : k ≤ l.length)
    (hbad : ∃ x ∈ l.take k, 256 ≤ x) : ∃ x < 512, skipFats (viewFats fs img view) k g = some x := by
  induction k generalizing g l with
  | zero =>
    obtain ⟨x, hx, -⟩ := hbad
    cases hx
  | succ k ih =>
    obtain ⟨y, l, rfl⟩ := List.exists_cons_of_length_pos (Nat.zero_lt_of_lt hk)
    obtain rfl := h.cons_inv
    have hg := h.2 y List.mem_cons_self
    rw [K.fatCount_eq] at hg
    rcases Nat.lt_or_ge y 256 with hlow | hhigh
    · obtain ⟨x, hx, hx'⟩ := hbad
      rw [List.take_succ_cons] at hx
      have hx : x ∈ l.take k := (List.mem_cons.mp hx).resolve_left (by omega)
      have hne := h.tail.ne_end K.layout (List.ne_nil_of_mem (List.mem_of_mem_take hx))
      rw [skipFats, fatsAt_low K hlow, if_neg hne]
      exact ih h.tail (Nat.le_of_succ_le_succ hk) ⟨x, hx, hx'⟩
    · have hloop : ∀ n, skipFats (viewFats fs img view) n y = some y := fun n => by
        induction n with
        | zero => rfl
        | succ n ih =>
          rw [skipFats, fatsAt_selfLoops hview hhigh hg, if_neg (by omega)]
          exact ih
      exact ⟨y, hg, hloop _⟩

end OSForReal.Proof.Tfs
