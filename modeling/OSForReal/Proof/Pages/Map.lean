import OSForReal.Framework.Run
import OSForReal.Proof.Pages.Walk

/-!
# Heap paging is a finite map

The abstract view of the page tables is a map from heap pages to frames.
`Maps` relates it to memory; `maps_commit` is the step: a commit of a page that
is not mapped takes a clear bit and maps the page to its frame, and changes
nothing else. `paging_refines_map` is what follows for runs.
-/

namespace OSForReal.Proof.Pages

open Framework (Res System)
open Framework.Bitmap (Words isSet setBit firstClear firstClear_eq_some firstClear_eq_none firstClear_eq_some_iff
  isSet_setBit)

/-- The page tables hold the map `m`, over the page directory `dir` that the boot code set up. -/
structure Maps (K : KernelImage) (dir : Nat → Nat) (p : Pfa) (m : Nat → Option Nat) : Prop where
  entries : ∀ w, HeapPage w → p.pageTables (tableIndex w) (entryIndex w) = ((m w).map (· ||| 0x27)).getD 0
  directory : ∀ w, HeapPage w → p.pageDirectory (firstEntry + tableIndex w) &&& 1 = 0 ∨
    p.pageDirectory (firstEntry + tableIndex w) = tablePhys K (tableIndex w) ||| 0x27
  pointed : ∀ w, HeapPage w → m w ≠ none →
    p.pageDirectory (firstEntry + tableIndex w) = tablePhys K (tableIndex w) ||| 0x27
  outside : ∀ e < firstEntry, p.pageDirectory e = dir e
  frames : ∀ w f, m w = some f →
    HeapPage w ∧ ∃ n < pfaPageBitmapLen * 32, isSet p.pageBitmap n = true ∧ f = pageFrame n
  inj : ∀ v w f, m v = some f → m w = some f → v = w

namespace Maps

variable {K : KernelImage} {dir : Nat → Nat} {p : Pfa} {m : Nat → Option Nat} {v w n f : Nat}

/-- Nothing is mapped where the tables are zero and no directory entry of the heap is present. -/
theorem init (K : KernelImage) (bitmap : Words) (hdir : ∀ e, firstEntry ≤ e → dir e &&& 1 = 0) :
    Maps K dir ⟨bitmap, fun _ _ => 0, dir⟩ fun _ => none where
  entries _ _ := rfl
  directory _ _ := .inl (hdir _ (Nat.le_add_right ..))
  pointed _ _ h := absurd rfl h
  outside _ _ := rfl
  frames _ _ h := by cases h
  inj _ _ _ h := by cases h

/-- The entry of a heap page whose directory entry points at its table. -/
theorem tableEntry_pointed (hv : HeapPage v)
    (hp : p.pageDirectory (firstEntry + tableIndex v) = tablePhys K (tableIndex v) ||| 0x27) :
    tableEntry K p v = some (p.pageTables (tableIndex v) (entryIndex v)) := by
  obtain ⟨-, hal⟩ := tablePhys_eq K (tableIndex v)
  have hlt := tablePhys_lt (K := K) hv.tableIndex_lt.le
  unfold tableEntry
  rw [hv.directoryEntry, hp, entry_address hal hlt, tableAt_tablePhys hv.tableIndex_lt, tableEntry_eq]
  rfl

/-- The walk for a mapped page ends with its frame and the flags. -/
theorem walk_eq (h : Maps K dir p m) (hm : m v = some f) : walk K p v = some (f ||| 0x27) := by
  obtain ⟨hv, n, -, -, e⟩ := h.frames v f hm
  subst e
  have hp := h.pointed v hv (by simp [hm])
  have he := h.entries v hv
  rw [hm] at he
  unfold walk
  rw [tableEntry_pointed hv hp, he, hv.directoryEntry, hp, entry_present (tablePhys_eq K _).2]
  have := entry_present (pageFrame_aligned n)
  simp [Option.filter, this]

theorem walk_mapPage (K : KernelImage) (p : Pfa) (hv : HeapPage v) (n : Nat) :
    walk K (Pages.mapPage K p v n) v = some (pageFrame n ||| 0x27) := by
  have hp : (Pages.mapPage K p v n).pageDirectory (firstEntry + tableIndex v) = tablePhys K (tableIndex v) ||| 0x27 :=
    Function.update_self ..
  have he : (Pages.mapPage K p v n).pageTables (tableIndex v) (entryIndex v) = pageFrame n ||| 0x27 := by
    simp only [Pages.mapPage, Function.update_self]
  unfold walk
  rw [tableEntry_pointed hv hp, he, hv.directoryEntry, hp, entry_present (tablePhys_eq K _).2]
  have := entry_present (pageFrame_aligned n)
  simp [Option.filter, this]

/-- The walk for a page that is not mapped stops at a clear present bit. -/
theorem notPresent (h : Maps K dir p m) (hv : HeapPage v) (hm : m v = none) : NotPresent K p v := by
  rcases h.directory v hv with h0 | hp
  · exact .inl (by rwa [hv.directoryEntry])
  · have he := h.entries v hv
    rw [hm] at he
    exact .inr ⟨_, tableEntry_pointed hv hp, by rw [he]; rfl⟩

/-- The step: a page is mapped to the frame of a clear bit. -/
theorem mapPage (h : Maps K dir p m) (hv : HeapPage v) (hm : m v = none) (hn : n < pfaPageBitmapLen * 32)
    (hclear : isSet p.pageBitmap n = false) :
    Maps K dir (mapPage K p v n) (Function.update m v (some (pageFrame n))) where
  entries w hw := by
    by_cases hvw : w = v
    · subst hvw
      rw [Function.update_self]
      simp only [Pages.mapPage, Function.update_self]
      rfl
    · rw [Function.update_of_ne hvw, ← h.entries w hw]
      simp only [Pages.mapPage]
      by_cases ht : tableIndex w = tableIndex v
      · have he : entryIndex w ≠ entryIndex v := fun he => hvw (hw.eq_of_indices hv ht he)
        rw [ht, Function.update_self, Function.update_of_ne he]
      · rw [Function.update_of_ne ht]
  directory w hw := by
    simp only [Pages.mapPage]
    by_cases ht : tableIndex w = tableIndex v
    · rw [ht, Function.update_self]
      exact .inr rfl
    · rw [Function.update_of_ne (by omega)]
      exact h.directory w hw
  pointed w hw hne := by
    simp only [Pages.mapPage]
    by_cases ht : tableIndex w = tableIndex v
    · rw [ht, Function.update_self]
    · have hvw : w ≠ v := fun e => ht (e ▸ rfl)
      rw [Function.update_of_ne hvw] at hne
      rw [Function.update_of_ne (by omega)]
      exact h.pointed w hw hne
  outside e he := by
    simp only [Pages.mapPage]
    rw [Function.update_of_ne (by omega)]
    exact h.outside e he
  frames w f hf := by
    simp only [Pages.mapPage, isSet_setBit]
    by_cases hvw : w = v
    · subst hvw
      rw [Function.update_self] at hf
      exact ⟨hv, n, hn, by simp, (Option.some.inj hf).symm⟩
    · rw [Function.update_of_ne hvw] at hf
      obtain ⟨hw, k, hk, hset, e⟩ := h.frames w f hf
      exact ⟨hw, k, hk, by simp [hset], e⟩
  inj := by
    -- The frame is of a bit that was clear, so no page had it.
    have hnew : ∀ w, m w ≠ some (pageFrame n) := fun w hw => by
      obtain ⟨-, k, hk, hset, e⟩ := h.frames w _ hw
      obtain rfl := pageFrame_inj hn hk e
      rw [hclear] at hset
      cases hset
    intro w₁ w₂ f h₁ h₂
    by_cases e₁ : w₁ = v <;> by_cases e₂ : w₂ = v
    · rw [e₁, e₂]
    · rw [e₁, Function.update_self] at h₁
      rw [Function.update_of_ne e₂, ← h₁] at h₂
      exact absurd h₂ (hnew w₂)
    · rw [e₂, Function.update_self] at h₂
      rw [Function.update_of_ne e₁, ← h₂] at h₁
      exact absurd h₁ (hnew w₁)
    · rw [Function.update_of_ne e₁] at h₁
      rw [Function.update_of_ne e₂] at h₂
      exact h.inj w₁ w₂ f h₁ h₂

end Maps

/-! ## Runs of commits -/

/-- The globals, and the frame that each committed page was mapped to. -/
structure PagingState where
  pfa : Pfa
  map : Nat → Option Nat

/-- A call of `pfa_commit_page` on a heap page not committed before. -/
inductive CommitStep (K : KernelImage) : PagingState → Nat × Bool → PagingState → Prop
  | commit {s : PagingState} {v : Nat} {b : Bool} {p' : Pfa} (hv : HeapPage v) (hm : s.map v = none)
      (h : pfaCommitPage K s.pfa v = .ok (b, p')) :
      CommitStep K s (v, b)
        ⟨p', if b then Function.update s.map v (some (takeFrame s.pfa.pageBitmap).1) else s.map⟩

/-- Commits from any bitmap, with the zeroed page tables and the page directory of the boot code. -/
def pagingSystem (K : KernelImage) (B : BootTables) : System PagingState (Nat × Bool) where
  init s := ∃ bitmap, s = ⟨⟨bitmap, fun _ _ => 0, bootPageDirectory B⟩, fun _ => none⟩
  step := CommitStep K

/-- What a commit of `v` returns and does to the bitmap: it takes one clear bit, or there is none. -/
def TakesOneBit (K : KernelImage) (p : Pfa) (v : Nat) : Prop :=
  ((∀ n < pfaPageBitmapLen * 32, isSet p.pageBitmap n = true) ∧ pfaCommitPage K p v = .ok (false, p)) ∨
  ∃ n < pfaPageBitmapLen * 32, isSet p.pageBitmap n = false ∧ ∃ p', pfaCommitPage K p v = .ok (true, p') ∧
    ∀ k, isSet p'.pageBitmap k = (isSet p.pageBitmap k || decide (k = n))

/-- What holds of a state of a run. -/
structure PagingOk (K : KernelImage) (dir : Nat → Nat) (s : PagingState) : Prop where
  commit : ∀ v, HeapPage v → TakesOneBit K s.pfa v
  walk : ∀ v f, s.map v = some f → walk K s.pfa v = some (f ||| 0x27)
  distinct : ∀ v w f, s.map v = some f → s.map w = some f → v = w
  absent : ∀ v, HeapPage v → s.map v = none → NotPresent K s.pfa v
  outside : ∀ e < firstEntry, s.pfa.pageDirectory e = dir e

variable {K : KernelImage} {dir : Nat → Nat} {p : Pfa} {m : Nat → Option Nat} {v : Nat}

theorem takesOneBit (K : KernelImage) (p : Pfa) (hv : HeapPage v) : TakesOneBit K p v := by
  have he := pfaCommitPage_eq K p hv
  cases hf : firstClear p.pageBitmap pfaPageBitmapLen with
  | none =>
    rw [hf] at he
    exact .inl ⟨firstClear_eq_none.mp hf, he⟩
  | some n =>
    rw [hf] at he
    obtain ⟨hn, hclear, -⟩ := firstClear_eq_some hf
    exact .inr ⟨n, hn, hclear, _, he, fun k => isSet_setBit ..⟩

/-- A commit keeps the relation. -/
theorem maps_commit {s s' : PagingState} {e : Nat × Bool} (h : Maps K dir s.pfa s.map) (hs : CommitStep K s e s') :
    Maps K dir s'.pfa s'.map := by
  cases hs with
  | commit hv hm hr =>
    rw [pfaCommitPage_eq K s.pfa hv] at hr
    cases hf : firstClear s.pfa.pageBitmap pfaPageBitmapLen with
    | none =>
      rw [hf] at hr
      cases hr
      exact h
    | some n =>
      rw [hf] at hr
      cases hr
      obtain ⟨hn, hclear, -⟩ := firstClear_eq_some hf
      simp only [takeFrame, hf, ↓reduceIte]
      exact h.mapPage hv hm hn hclear

theorem pagingOk_of_maps {s : PagingState} (h : Maps K dir s.pfa s.map) : PagingOk K dir s where
  commit _ hv := takesOneBit K s.pfa hv
  walk _ _ hm := h.walk_eq hm
  distinct := h.inj
  absent _ hv hm := h.notPresent hv hm
  outside := h.outside

theorem bootPageDirectory_heap (B : BootTables) (e : Nat) (he : firstEntry ≤ e) : bootPageDirectory B e = 0 := by
  have h0 : e ≠ 0 >>> 22 := by intro h; rw [h] at he; exact absurd he (by decide)
  have h1 : e ≠ 0xC0000000 >>> 22 := by intro h; rw [h] at he; exact absurd he (by decide)
  have h2 : e ≠ 0xC0400000 >>> 22 := by intro h; rw [h] at he; exact absurd he (by decide)
  rw [bootPageDirectory, if_neg h0, if_neg h1, if_neg h2]

/-- Over every run of commits of distinct heap pages, the page tables are the map
of the committed pages to their frames. -/
theorem paging_refines_map (K : KernelImage) (B : BootTables) (s : PagingState)
    (h : (pagingSystem K B).Reachable (fun _ _ => True) s) : PagingOk K (bootPageDirectory B) s := by
  have hinv : Maps K (bootPageDirectory B) s.pfa s.map :=
    h.invariant (I := fun s => Maps K (bootPageDirectory B) s.pfa s.map)
      (by
        rintro _ ⟨bitmap, rfl⟩
        exact .init K bitmap fun e he => by rw [bootPageDirectory_heap B e he]; rfl)
      fun _ _ _ hs _ hstep => maps_commit hs hstep
  exact pagingOk_of_maps hinv

/-- A kernel image of 2 MiB with its page tables at 1 MiB. -/
def twoMegabyteImage : KernelImage where
  kernelEnd := kernelStart + 0x200000
  pfaPageTables := kernelStart + 0x100000
  image := by decide
  aligned := by decide
  lo := by decide
  hi := by decide

theorem heapPage_first : HeapPage heapStart := ⟨Nat.le_refl _, by decide, by decide⟩

/-- The state after `pfa_init` on a map that leaves the bitmap clear. -/
def clearState : Pfa := ⟨fun _ => 0, fun _ _ => 0, bootPageDirectory ⟨0x101000, 0x102000, 0x103000⟩⟩

theorem firstClear_clearState : firstClear clearState.pageBitmap pfaPageBitmapLen = some 0 :=
  firstClear_eq_some_iff.mpr ⟨by decide, rfl, fun k hk => absurd hk (Nat.not_lt_zero k)⟩

theorem commit_clearState :
    pfaCommitPage twoMegabyteImage clearState heapStart = .ok (true, mapPage twoMegabyteImage clearState heapStart 0) := by
  rw [pfaCommitPage_eq twoMegabyteImage clearState heapPage_first, firstClear_clearState]

/-- The first heap page is committed. -/
def onePage : PagingState where
  pfa := mapPage twoMegabyteImage clearState heapStart 0
  map := Function.update (fun _ => none) heapStart (some reservedPhys)

theorem commitStep_onePage : CommitStep twoMegabyteImage ⟨clearState, fun _ => none⟩ (heapStart, true) onePage := by
  have hstep := CommitStep.commit (s := ⟨clearState, fun _ => none⟩) heapPage_first rfl commit_clearState
  rw [if_pos rfl, takeFrame, firstClear_clearState] at hstep
  exact hstep

/-- The first heap page of the second page table. -/
abbrev secondTable : Nat := heapStart + 1024 * pageSize

theorem heapPage_secondTable : HeapPage secondTable := ⟨by decide, by decide, by decide⟩

/-- And it is committed, too. -/
def twoPages : PagingState where
  pfa := mapPage twoMegabyteImage onePage.pfa secondTable 1
  map := Function.update onePage.map secondTable (some (reservedPhys + pageSize))

theorem commitStep_twoPages : CommitStep twoMegabyteImage onePage (secondTable, true) twoPages := by
  have hf : firstClear onePage.pfa.pageBitmap pfaPageBitmapLen = some 1 :=
    firstClear_eq_some_iff.mpr ⟨by decide, by decide, fun k hk => by rw [Nat.lt_one_iff.mp hk]; decide⟩
  have hcommit : pfaCommitPage twoMegabyteImage onePage.pfa secondTable = .ok (true, twoPages.pfa) := by
    rw [pfaCommitPage_eq twoMegabyteImage _ heapPage_secondTable, hf]
    rfl
  have hstep := CommitStep.commit heapPage_secondTable (by decide : onePage.map secondTable = none) hcommit
  rw [if_pos rfl, takeFrame, hf] at hstep
  exact hstep

theorem paging_refines_map_twoPages : tableIndex heapStart ≠ tableIndex secondTable ∧
    twoPages.map heapStart = some reservedPhys ∧ twoPages.map secondTable = some (reservedPhys + pageSize) ∧
    PagingOk twoMegabyteImage (bootPageDirectory ⟨0x101000, 0x102000, 0x103000⟩) twoPages :=
  ⟨by decide, by decide, by decide, paging_refines_map twoMegabyteImage ⟨0x101000, 0x102000, 0x103000⟩ twoPages
    (.step (.step (.init ⟨fun _ => 0, rfl⟩) trivial commitStep_onePage) trivial commitStep_twoPages)⟩

end OSForReal.Proof.Pages
