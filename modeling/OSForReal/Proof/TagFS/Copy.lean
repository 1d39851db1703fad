import OSForReal.Framework.Chain
import OSForReal.Proof.TagFS.Layout
import OSForReal.TagFS.Tfsfmt

/-!
# The copy loop of `tfsfmt`

`copyLoop_spec` says all that the loop does from a free FAT entry on: it takes
free entries in ascending order, chains them and ends the chain, one for every
sector of data, until the file or the free entries run out, and writes the
file's bytes to their sectors.
-/

namespace OSForReal.Proof.TagFS

open Framework
open Framework.Bytes
open OSForReal.TagFS

variable {fs : FSMetadata} {img img' : Bytes} {g c n : Nat}

/-- The number of sectors of a file of `n` bytes: an empty file has one. -/
def sectorsFor (fs : FSMetadata) (n : Nat) : Nat := max 1 ((n + fs.sectorSize - 1) / fs.sectorSize)

theorem sectorsFor_le {k : Nat} (hs : 0 < fs.sectorSize) (h : n ≤ fs.sectorSize) (hk : k = 1) : sectorsFor fs n = k := by
  subst hk
  unfold sectorsFor
  rcases Nat.eq_zero_or_pos n with rfl | hn
  · rw [Nat.zero_add, Nat.div_eq_of_lt (by omega)]
    rfl
  · have : (n + fs.sectorSize - 1) / fs.sectorSize = 1 := by
      rw [show n + fs.sectorSize - 1 = (n - 1) + fs.sectorSize by omega, Nat.add_div_right _ hs,
        Nat.div_eq_of_lt (by omega)]
    omega

/-- A sector more. -/
theorem sectorsFor_add (hs : 0 < fs.sectorSize) (hn : 0 < n) :
    sectorsFor fs (fs.sectorSize + n) = sectorsFor fs n + 1 := by
  unfold sectorsFor
  have h1 : (fs.sectorSize + n + fs.sectorSize - 1) / fs.sectorSize = (n + fs.sectorSize - 1) / fs.sectorSize + 1 := by
    rw [show fs.sectorSize + n + fs.sectorSize - 1 = n + fs.sectorSize - 1 + fs.sectorSize by omega,
      Nat.add_div_right _ hs]
  have h2 : 1 ≤ (n + fs.sectorSize - 1) / fs.sectorSize := Nat.div_pos (by omega) hs
  omega

/-- What the copy loop makes of an image, when it begins at the free FAT entry
`g` with `c` bytes written and leaves with `c'`. -/
structure Copied (fs : FSMetadata) (src : List UInt8) (g c : Nat) (img : Bytes) (l : List Nat) (c' : Nat)
    (img' : Bytes) : Prop where
  changes : ChangesOnly fs [] l l img img'
  chain : Chain (fat fs img') g l 0xffff
  free : ∀ x ∈ l, g ≤ x ∧ fat fs img x = 0
  taken : ∀ x ∈ l, fat fs img' x ≠ 0
  le : c ≤ c'
  length_le : c' ≤ src.length
  sectors : l.length = sectorsFor fs (c' - c)
  full : c' = src.length ∨
    c' = c + fs.sectorSize * l.length ∧ ∀ x, g ≤ x → x < fatCount fs → fat fs img x = 0 → x ∈ l
  data : ∀ k, c + k < c' → img' (sectorAt fs (l.getD (k / fs.sectorSize) 0) + k % fs.sectorSize) = src.getD (c + k) 0

/-- Entries from `i` on that are free lie from the next free one on. -/
theorem nextFreeFat_le {i x : Nat} (h : i ≤ x) (hx : fat fs img x = 0) : nextFreeFat fs img i ≤ x := by
  by_contra hlt
  have := scan_before (p := fun i => fat fs img i == 0) h (Nat.lt_of_not_le hlt)
  simp [hx] at this

theorem nextFreeFat_free {i : Nat} (h : nextFreeFat fs img i < fatCount fs) : fat fs img (nextFreeFat fs img i) = 0 := by
  have hfound : (fat fs img (nextFreeFat fs img i) == 0) = true := scan_spec (p := fun i => fat fs img i == 0) h
  simpa using hfound

/-- A pass that ends the chain. -/
theorem copied_last {src : List UInt8} (L : Layout fs) (hg : g < fatCount fs) (hfree : fat fs img g = 0)
    (hn : n ≤ fs.sectorSize) (hc : c + n ≤ src.length)
    (hfull : c + n = src.length ∨ n = fs.sectorSize ∧ ∀ x, g + 1 ≤ x → x < fatCount fs → fat fs img x ≠ 0) :
    Copied fs src g c img [g] (c + n)
      (setFat fs (copy img (sectorAt fs g) n fun k => src.getD (c + k) 0) g 0xffff) := by
  have hs := L.sectorSize
  have hend : fat fs (setFat fs (copy img (sectorAt fs g) n fun k => src.getD (c + k) 0) g 0xffff) g = 0xffff :=
    fat_setFat_self (by decide)
  have hcopy : ChangesOnly fs [] [] [g] img (copy img (sectorAt fs g) n fun k => src.getD (c + k) 0) :=
    changes_sector (o := 0) hg (by omega)
  have hend' : ChangesOnly fs [] [g] [] (copy img (sectorAt fs g) n fun k => src.getD (c + k) 0) _ :=
    changes_setFat (v := 0xffff) hg
  refine ⟨hcopy.trans hend', ⟨rfl, hend⟩, ?_, ?_, Nat.le_add_right _ _, hc, ?_, ?_, ?_⟩
  · intro x hx
    rw [List.mem_singleton.mp hx]
    exact ⟨Nat.le_refl _, hfree⟩
  · intro x hx
    rw [List.mem_singleton.mp hx, hend]
    decide
  · exact (sectorsFor_le (by omega) (by omega) rfl).symm
  · refine hfull.imp_right fun ⟨h, hnone⟩ => ⟨by simp [h], fun x hx hxn h0 => ?_⟩
    by_contra hne
    exact hnone x (by simp at hne; omega) hxn h0
  · intro k hk
    have hk' : k < fs.sectorSize := by omega
    rw [Nat.div_eq_of_lt hk', Nat.mod_eq_of_lt hk']
    have hin : InSector fs g (sectorAt fs g + k) := ⟨by omega, by omega⟩
    show setFat _ _ _ _ (sectorAt fs g + k) = _
    rw [hend'.sector L hg (by simp) hin, copy_in (by omega) (by omega), Nat.add_sub_cancel_left]

/-- A pass that goes on at a later free entry. -/
theorem copied_cons {src : List UInt8} {g' c' : Nat} {l : List Nat} (L : Layout fs) (hg : g < fatCount fs)
    (hfree : fat fs img g = 0) (hlt : g < g') (hg' : g' < fatCount fs)
    (hbetween : ∀ x, g + 1 ≤ x → x < g' → fat fs img x ≠ 0) (hc : c + fs.sectorSize < src.length)
    (h : Copied fs src g' (c + fs.sectorSize)
      (setFat fs (copy img (sectorAt fs g) fs.sectorSize fun k => src.getD (c + k) 0) g g') l c' img') :
    Copied fs src g c img (g :: l) c' img' := by
  have hs := L.sectorSize
  have hcount := L.fatCount_le
  have hcopy : ChangesOnly fs [] [] [g] img (copy img (sectorAt fs g) fs.sectorSize fun k => src.getD (c + k) 0) :=
    changes_sector (o := 0) hg (by omega)
  have hlink : ChangesOnly fs [] [g] [] (copy img (sectorAt fs g) fs.sectorSize fun k => src.getD (c + k) 0) _ :=
    changes_setFat (v := g') hg
  have hself : fat fs (setFat fs (copy img (sectorAt fs g) fs.sectorSize fun k => src.getD (c + k) 0) g g') g = g' :=
    fat_setFat_self (by omega)
  have hother : ∀ x, x < fatCount fs → x ≠ g →
      fat fs (setFat fs (copy img (sectorAt fs g) fs.sectorSize fun k => src.getD (c + k) 0) g g') x = fat fs img x :=
    fun x hx hne => (hcopy.trans hlink).fat_eq L hx (by simpa using hne)
  have hgl : g ∉ l := fun hm => by
    have := (h.free g hm).1
    omega
  have hgnext : fat fs img' g = g' := (h.changes.fat_eq L hg hgl).trans hself
  have hlen : c' - c = fs.sectorSize + (c' - (c + fs.sectorSize)) := by
    have := h.le
    omega
  have hmore : c + fs.sectorSize < c' := by
    rcases h.full with hf | ⟨hf, -⟩
    · omega
    · rw [h.sectors] at hf
      have : 1 ≤ sectorsFor fs (c' - (c + fs.sectorSize)) := Nat.le_max_left _ _
      have := Nat.mul_le_mul_left fs.sectorSize this
      omega
  refine ⟨((hcopy.trans hlink).trans h.changes), ⟨rfl, hgnext.symm ▸ h.chain⟩, ?_, ?_, ?_, h.length_le, ?_, ?_, ?_⟩
  · intro x hx
    rcases List.mem_cons.mp hx with rfl | hx
    · exact ⟨Nat.le_refl _, hfree⟩
    · have := h.free x hx
      rw [hother x (h.changes.fats_lt x hx) (by omega)] at this
      exact ⟨by omega, this.2⟩
  · intro x hx
    rcases List.mem_cons.mp hx with rfl | hx
    · rw [hgnext]
      omega
    · exact h.taken x hx
  · have := h.le
    omega
  · rw [List.length_cons, h.sectors, hlen, sectorsFor_add (by omega) (by omega)]
  · refine h.full.imp_right fun ⟨hf, hall⟩ => ⟨?_, fun x hx hxn h0 => ?_⟩
    · rw [hf, List.length_cons, Nat.mul_add]
      omega
    · rcases Nat.eq_or_lt_of_le hx with rfl | hx
      · exact List.mem_cons_self
      · refine List.mem_cons_of_mem _ (hall x ?_ hxn ?_)
        · by_contra hlt
          exact hbetween x hx (Nat.lt_of_not_le hlt) h0
        · rw [hother x hxn (by omega)]
          exact h0
  · intro k hk
    rcases Nat.lt_or_ge k fs.sectorSize with hks | hks
    · rw [Nat.div_eq_of_lt hks, Nat.mod_eq_of_lt hks]
      have hin : InSector fs g (sectorAt fs g + k) := ⟨by omega, by omega⟩
      show img' (sectorAt fs g + k) = _
      rw [h.changes.sector L hg hgl hin, hlink.sector L hg (by simp) hin, copy_in (by omega) (by omega),
        Nat.add_sub_cancel_left]
    · obtain ⟨k, rfl⟩ : ∃ j, k = j + fs.sectorSize := ⟨k - fs.sectorSize, by omega⟩
      rw [Nat.add_div_right _ (by omega), Nat.add_mod_right, List.getD_cons_succ, h.data k (by omega)]
      congr 1
      omega

/-- The copy loop returns, from a free entry on. -/
theorem copyLoop_spec (src : List UInt8) (fuel : Nat) (L : Layout fs) (hg : g < fatCount fs)
    (hfree : fat fs img g = 0) (hc : c ≤ src.length) (hfuel : fatCount fs - g ≤ fuel) :
    ∃ l c' img', copyLoop fs src fuel img g c = .ok (img', c') ∧ Copied fs src g c img l c' img' := by
  induction fuel generalizing img g c with
  | zero => omega
  | succ fuel ih =>
    have hs := L.sectorSize
    simp only [copyLoop]
    have hcopy : ∀ n ≤ fs.sectorSize, ChangesOnly fs [] [] [g] img
        (copy img (sectorAt fs g) n fun k => src.getD (c + k) 0) :=
      fun n hn => changes_sector (o := 0) hg (by omega)
    split
    · rename_i hdone
      exact ⟨_, _, _, rfl, copied_last L hg hfree (Nat.min_le_left _ _) (Nat.le_of_eq hdone) (.inl hdone)⟩
    · rename_i hmore
      have hn : min fs.sectorSize (src.length - c) = fs.sectorSize := by omega
      rw [hn] at hmore ⊢
      -- Copying data does not change the FAT.
      have hfat : ∀ x, x < fatCount fs →
          fat fs (copy img (sectorAt fs g) fs.sectorSize fun k => src.getD (c + k) 0) x = fat fs img x :=
        fun x hx => (hcopy _ (Nat.le_refl _)).fat_eq L hx (by simp)
      have hnext : nextFreeFat fs (copy img (sectorAt fs g) fs.sectorSize fun k => src.getD (c + k) 0) (g + 1) =
          nextFreeFat fs img (g + 1) := scan_congr fun x _ hx => by rw [hfat x hx]
      have hle : nextFreeFat fs img (g + 1) ≤ fatCount fs := scan_le hg
      have hge : g + 1 ≤ nextFreeFat fs img (g + 1) := le_scan _ _ _
      have hbetween : ∀ x, g + 1 ≤ x → x < nextFreeFat fs img (g + 1) → fat fs img x ≠ 0 := fun x hx hlt h0 => by
        have := nextFreeFat_le hx h0
        omega
      rw [hnext]
      split
      · rename_i hend
        refine ⟨_, _, _, rfl, copied_last L hg hfree (Nat.le_refl _) (by omega) (.inr ⟨rfl, fun x hx hxn => ?_⟩)⟩
        exact hbetween x hx (hend.symm ▸ hxn)
      · rename_i hgo
        have hlt : nextFreeFat fs img (g + 1) < fatCount fs := by omega
        have hfree' : fat fs (setFat fs (copy img (sectorAt fs g) fs.sectorSize fun k => src.getD (c + k) 0) g
            (nextFreeFat fs img (g + 1))) (nextFreeFat fs img (g + 1)) = 0 := by
          rw [fat_setFat_ne (by omega), hfat _ hlt]
          exact nextFreeFat_free hlt
        obtain ⟨l, c', img', hr, hcopied⟩ :=
          ih (c := c + fs.sectorSize) hlt hfree' (by omega) (by omega)
        exact ⟨_, _, _, hr, copied_cons L hg hfree (by omega) hlt hbetween (by omega) hcopied⟩

end OSForReal.Proof.TagFS
