import OSForReal.Proof.Pages.Frames

/-!
# `pfa_uncommit_all` undoes every run of commits

`pfa_uncommit_all` clears a bit for each of the entries of `pfa_page_tables`.
For a committed page that is the bit which the commit took (`frameBit_entry`);
for an entry that is zero it is bit 1046016, which stands for frame 0 and which
`pfa_init` never sets (`not_isSet_pfaInit`). `Committed` says what a run of
commits changed, and `Committed.uncommitAll` that all of it is undone.
-/

namespace OSForReal.Proof.Pages

open Framework (Res System)
open Framework.Bitmap (Words isSet setBit clearBit firstClear firstClear_eq_some isSet_setBit isSet_clearAll ext_isSet)

/-! ## The bits that are cleared -/

/-- The entry of a committed page names the bit that its commit took. -/
theorem frameBit_entry {n : Nat} (hn : n < pfaPageBitmapLen * 32) : frameBit (pageFrame n ||| 0x27) = n := by
  rw [frameBit, entry_address (pageFrame_aligned n) (pageFrame_lt n)]
  simp only [pageFrame, reservedPhys, pageSize, pfaPageBitmapLen] at *
  omega

/-- The bit of frame 0 is in the bitmap, and stands for no address from 10 MiB to 4 GiB. -/
theorem pageAddr_frameBit_zero : frameBit 0 < pfaPageBitmapLen * 32 ∧ 2 ^ 32 ≤ pageAddr (frameBit 0) := by decide

theorem alignForward_lt (x : Nat) : alignForward x pageSize < 2 ^ 32 :=
  Nat.lt_of_le_of_lt Nat.and_le_left (Nat.mod_lt _ (by decide))

/-- What `pfa_init` marks lies below 4 GiB. -/
theorem isSet_markSegment_high {b : Words} {last n : Nat} (s : MMapSegment) (hlast : last < 2 ^ 32)
    (hn : 2 ^ 32 ≤ pageAddr n) (h : isSet (markSegment b last s) n = true) : isSet b n = true := by
  have hgap : ∀ c, isSet (markArea b last (alignForward c pageSize)) n = true → isSet b n = true := fun c hc => by
    rcases (isSet_markArea b hlast n).mp hc with h | h
    · exact h
    · have := alignForward_lt c
      omega
  unfold markSegment at h
  split at h
  · rcases (isSet_markArea _ (Nat.mod_lt _ (by decide)) n).mp h with h | h
    · exact hgap _ h
    · have := alignForward_lt ((s.baseAddr + s.length) % 2 ^ 64 % 2 ^ 32)
      omega
  · exact hgap _ h

/-- `pfa_init` leaves the bits from 4 GiB on clear, whatever the memory map is. -/
theorem not_isSet_pfaInit {boot : MultibootInfo} {fuel n : Nat} {bitmap : Words} (h : pfaInit boot fuel = .ok bitmap)
    (hn : 2 ^ 32 ≤ pageAddr n) : isSet bitmap n = false := by
  refine Res.loop_invariant (I := fun s => s.endOfLastSegment < 2 ^ 32 ∧ isSet s.bitmap n = false)
    (Q := fun b => isSet b n = false) ?_ ?_ ⟨by decide, by simp [isSet]⟩ h
  · rintro s s' ⟨hlast, hs⟩ hstep
    unfold initStep at hstep
    split at hstep
    · cases hstep
      refine ⟨Nat.mod_lt _ (by decide), Bool.eq_false_iff.mpr fun hset => ?_⟩
      rw [isSet_markSegment_high _ hlast hn hset] at hs
      cases hs
    · cases hstep
  · rintro s b ⟨-, hs⟩ hstep
    unfold initStep at hstep
    split at hstep
    · cases hstep
    · cases hstep
      exact hs

/-! ## Heap pages and their entries -/

/-- The heap page of an entry. -/
def heapPage (i j : Nat) : Nat := heapStart + i * (pageSize * 1024) + j * pageSize

theorem heapPage_spec {i j : Nat} (hi : i < pfaPageTablesLen) (hj : j < 1024) :
    HeapPage (heapPage i j) ∧ tableIndex (heapPage i j) = i ∧ entryIndex (heapPage i j) = j := by
  unfold heapPage tableIndex entryIndex
  simp only [heapStart, kernelStart, maxKernelSize, pageSize, pfaPageTablesLen] at *
  exact ⟨⟨by simp only [heapStart, kernelStart, maxKernelSize]; omega, by omega, by simp only [pageSize]; omega⟩,
    by omega, by omega⟩

theorem pfaTablesIndexToMappedVirt_eq {i : Nat} (hi : i < pfaPageTablesLen) :
    ∃ v, pfaTablesIndexToMappedVirt i = .ok v ∧ v >>> 22 = firstEntry + i := by
  refine ⟨_, Res.assert_bind hi _, ?_⟩
  rw [Nat.shiftRight_eq_div_pow]
  simp only [kernelStart, maxKernelSize, pageSize, firstEntry]
  omega

/-! ## What the loop of `pfa_uncommit_all` does -/

theorem uncommitTable_eq (p : Pfa) {i : Nat} (hi : i < pfaPageTablesLen) :
    uncommitTable p i = .ok {
      pageBitmap := (List.range 1024).foldl (fun b j => clearBit b (frameBit (p.pageTables i j))) p.pageBitmap
      pageTables := Function.update p.pageTables i fun _ => 0
      pageDirectory := if p.pageDirectory (firstEntry + i) &&& 1 ≠ 0 then
          Function.update p.pageDirectory (firstEntry + i) 0
        else p.pageDirectory } := by
  obtain ⟨v, hv, hdir⟩ := pfaTablesIndexToMappedVirt_eq hi
  unfold uncommitTable
  rw [hv, Res.ok_bind, hdir]
  rfl

/-- `q` is `p` with the first `k` tables uncommitted. -/
structure Uncommitted (p : Pfa) (k : Nat) (q : Pfa) : Prop where
  bits : ∀ n, isSet q.pageBitmap n = true ↔
    isSet p.pageBitmap n = true ∧ ∀ i < k, ∀ j < 1024, n ≠ frameBit (p.pageTables i j)
  tables : ∀ i, q.pageTables i = if i < k then fun _ => 0 else p.pageTables i
  directory : ∀ e, q.pageDirectory e =
    if (firstEntry ≤ e ∧ e < firstEntry + k) ∧ p.pageDirectory e &&& 1 ≠ 0 then 0 else p.pageDirectory e

/-- One step of the loop. -/
theorem Uncommitted.step {p q : Pfa} {k : Nat} (h : Uncommitted p k q) (hk : k < pfaPageTablesLen) :
    ∃ q', uncommitTable q k = .ok q' ∧ Uncommitted p (k + 1) q' := by
  have htable : q.pageTables k = p.pageTables k := by rw [h.tables, if_neg (Nat.lt_irrefl k)]
  have hentry : q.pageDirectory (firstEntry + k) = p.pageDirectory (firstEntry + k) := by
    rw [h.directory, if_neg (by omega)]
  refine ⟨_, uncommitTable_eq q hk, ?_, ?_, ?_⟩
  · intro n
    simp only [isSet_clearAll, h.bits, htable, List.mem_range]
    constructor
    · rintro ⟨⟨hn, hlow⟩, hk'⟩
      refine ⟨hn, fun i hi j hj => ?_⟩
      rcases Nat.lt_succ_iff_lt_or_eq.mp hi with hi | rfl
      · exact hlow i hi j hj
      · exact hk' j hj
    · rintro ⟨hn, hall⟩
      exact ⟨⟨hn, fun i hi j hj => hall i (Nat.lt_succ_of_lt hi) j hj⟩, fun j hj => hall k (Nat.lt_succ_self k) j hj⟩
  · intro i
    show Function.update q.pageTables k (fun _ => 0) i = _
    by_cases hi : i = k
    · subst hi
      rw [Function.update_self, if_pos (Nat.lt_succ_self i)]
    · rw [Function.update_of_ne hi, h.tables]
      exact if_congr (by omega) rfl rfl
  · intro e
    show (if q.pageDirectory (firstEntry + k) &&& 1 ≠ 0 then Function.update q.pageDirectory (firstEntry + k) 0
      else q.pageDirectory) e = _
    by_cases he : e = firstEntry + k
    · subst he
      rw [hentry]
      by_cases hp : p.pageDirectory (firstEntry + k) &&& 1 = 0
      · rw [if_neg (by simpa using hp), hentry, if_neg (by simp [hp])]
      · rw [if_pos hp, Function.update_self, if_pos ⟨by omega, hp⟩]
    · have hrange : firstEntry ≤ e ∧ e < firstEntry + k ↔ firstEntry ≤ e ∧ e < firstEntry + (k + 1) := by omega
      have hkeep : q.pageDirectory e =
          if (firstEntry ≤ e ∧ e < firstEntry + (k + 1)) ∧ p.pageDirectory e &&& 1 ≠ 0 then 0 else p.pageDirectory e := by
        rw [h.directory]
        exact if_congr (and_congr_left fun _ => hrange) rfl rfl
      split
      · rw [Function.update_of_ne he, hkeep]
      · exact hkeep

/-- The whole loop. -/
theorem pfaUncommitAll_spec (p : Pfa) : ∃ q, pfaUncommitAll p = .ok q ∧ Uncommitted p pfaPageTablesLen q := by
  have hrun : ∀ k ≤ pfaPageTablesLen, ∃ q, (List.range k).foldlM uncommitTable p = .ok q ∧ Uncommitted p k q := by
    intro k
    induction k with
    | zero =>
      intro _
      exact ⟨p, rfl, fun n => by simp, fun i => by simp, fun e => by rw [if_neg (by omega)]⟩
    | succ k ih =>
      intro hk
      obtain ⟨q, hq, h⟩ := ih (by omega)
      obtain ⟨q', hq', h'⟩ := h.step (by omega)
      refine ⟨q', ?_, h'⟩
      rw [List.range_succ, List.foldlM_append, hq]
      simp [hq']
  exact hrun pfaPageTablesLen (Nat.le_refl _)

/-! ## Runs of commits -/

/-- The state right after `pfa_init`. -/
def bootState (B : BootTables) (bitmap : Words) : Pfa := ⟨bitmap, fun _ _ => 0, bootPageDirectory B⟩

/-- Commits of distinct heap pages, from the state right after `pfa_init`. -/
def commitSystem (K : KernelImage) (B : BootTables) (bitmap : Words) : System PagingState (Nat × Bool) where
  init s := s = ⟨bootState B bitmap, fun _ => none⟩
  step := CommitStep K

/-- What commits that mapped `m` changed of the state right after `pfa_init`. -/
structure Committed (K : KernelImage) (B : BootTables) (bitmap : Words) (p : Pfa) (m : Nat → Option Nat) : Prop where
  maps : Maps K (bootPageDirectory B) p m
  bits : ∀ n, isSet p.pageBitmap n = true ↔
    isSet bitmap n = true ∨ (n < pfaPageBitmapLen * 32 ∧ ∃ v, m v = some (pageFrame n))
  taken : ∀ v n, n < pfaPageBitmapLen * 32 → m v = some (pageFrame n) → isSet bitmap n = false
  tables : ∀ i, pfaPageTablesLen ≤ i → p.pageTables i = fun _ => 0
  directory : ∀ e, p.pageDirectory e = bootPageDirectory B e ∨
    (firstEntry ≤ e ∧ e < firstEntry + pfaPageTablesLen) ∧ p.pageDirectory e &&& 1 ≠ 0

variable {K : KernelImage} {B : BootTables} {bitmap : Words} {p : Pfa} {m : Nat → Option Nat} {v n : Nat}

theorem Committed.init (K : KernelImage) (B : BootTables) (bitmap : Words) :
    Committed K B bitmap (bootState B bitmap) fun _ => none where
  maps := .init K bitmap fun e he => by rw [bootPageDirectory_heap B e he]; rfl
  bits n := by simp [bootState]
  taken _ _ _ h := by cases h
  tables _ _ := rfl
  directory _ := .inl rfl

/-- A page is mapped to the frame of a clear bit. -/
theorem Committed.mapPage (h : Committed K B bitmap p m) (hv : HeapPage v) (hm : m v = none)
    (hn : n < pfaPageBitmapLen * 32) (hclear : isSet p.pageBitmap n = false) :
    Committed K B bitmap (mapPage K p v n) (Function.update m v (some (pageFrame n))) where
  maps := h.maps.mapPage hv hm hn hclear
  bits k := by
    have hnew : ∀ k < pfaPageBitmapLen * 32, (∃ w, Function.update m v (some (pageFrame n)) w = some (pageFrame k)) ↔
        (∃ w, m w = some (pageFrame k)) ∨ k = n := fun k hk => by
      constructor
      · rintro ⟨w, hw⟩
        by_cases e : w = v
        · rw [e, Function.update_self] at hw
          exact .inr (pageFrame_inj hk hn (Option.some.inj hw).symm)
        · rw [Function.update_of_ne e] at hw
          exact .inl ⟨w, hw⟩
      · rintro (⟨w, hw⟩ | rfl)
        · have e : w ≠ v := fun e => by rw [e, hm] at hw; cases hw
          exact ⟨w, by rw [Function.update_of_ne e, hw]⟩
        · exact ⟨v, Function.update_self ..⟩
    show isSet (setBit p.pageBitmap n) k = true ↔ _
    rw [isSet_setBit, Bool.or_eq_true, decide_eq_true_eq, h.bits, or_assoc]
    apply or_congr_right
    by_cases hk : k < pfaPageBitmapLen * 32
    · rw [hnew k hk]
      simp [hk]
    · have hkn : k ≠ n := fun e => hk (e ▸ hn)
      simp [hk, hkn]
  taken w k hk hw := by
    by_cases e : w = v
    · rw [e, Function.update_self] at hw
      obtain rfl := pageFrame_inj hn hk (Option.some.inj hw)
      exact Bool.eq_false_iff.mpr fun hset => by rw [(h.bits n).mpr (.inl hset)] at hclear; cases hclear
    · rw [Function.update_of_ne e] at hw
      exact h.taken w k hk hw
  tables i hi := by
    have := hv.tableIndex_lt
    show Function.update p.pageTables (tableIndex v) _ i = _
    rw [Function.update_of_ne (by omega), h.tables i hi]
  directory e := by
    show Function.update p.pageDirectory (firstEntry + tableIndex v) _ e = _ ∨ _ ∧ Function.update p.pageDirectory
      (firstEntry + tableIndex v) _ e &&& 1 ≠ 0
    have := hv.tableIndex_lt
    by_cases he : e = firstEntry + tableIndex v
    · rw [he, Function.update_self, entry_present (tablePhys_eq K _).2]
      exact .inr ⟨by omega, by decide⟩
    · rw [Function.update_of_ne he]
      exact h.directory e

theorem committed_step {s s' : PagingState} {e : Nat × Bool} (h : Committed K B bitmap s.pfa s.map)
    (hs : CommitStep K s e s') : Committed K B bitmap s'.pfa s'.map := by
  cases hs with
  | commit hv hm hr =>
    rw [pfaCommitPage_eq K s.pfa hv] at hr
    cases hf : firstClear s.pfa.pageBitmap pfaPageBitmapLen with
    | none =>
      rw [hf] at hr
      cases hr
      exact h
    | some n =>
      rw [hf] at hr
      cases hr
      obtain ⟨hn, hclear, -⟩ := firstClear_eq_some hf
      simp only [takeFrame, hf, ↓reduceIte]
      exact h.mapPage hv hm hn hclear

/-- Every bit that `pfa_uncommit_all` clears was clear after `pfa_init`. -/
theorem Committed.frameBit_clear (h : Committed K B bitmap p m)
    (hhigh : ∀ n, 2 ^ 32 ≤ pageAddr n → isSet bitmap n = false) {i j : Nat} (hi : i < pfaPageTablesLen) (hj : j < 1024) :
    isSet bitmap (frameBit (p.pageTables i j)) = false := by
  obtain ⟨hv, ht, he⟩ := heapPage_spec hi hj
  have hentry := h.maps.entries _ hv
  rw [ht, he] at hentry
  rw [hentry]
  cases hm : m (heapPage i j) with
  | none => exact hhigh _ pageAddr_frameBit_zero.2
  | some f =>
    obtain ⟨-, n, hn, -, rfl⟩ := h.maps.frames _ _ hm
    rw [Option.map_some, Option.getD_some, frameBit_entry hn]
    exact h.taken _ n hn hm

/-- `pfa_uncommit_all` gives back the state right after `pfa_init`. -/
theorem Committed.uncommitAll (h : Committed K B bitmap p m)
    (hhigh : ∀ n, 2 ^ 32 ≤ pageAddr n → isSet bitmap n = false) : pfaUncommitAll p = .ok (bootState B bitmap) := by
  obtain ⟨q, hq, hu⟩ := pfaUncommitAll_spec p
  have hbits : q.pageBitmap = bitmap := ext_isSet fun n => by
    rw [hu.bits, h.bits]
    constructor
    · rintro ⟨hset | ⟨hn, v, hv⟩, hall⟩
      · exact hset
      · -- The entry of the page names the bit.
        have hpage := (h.maps.frames v _ hv).1
        have hentry := h.maps.entries v hpage
        rw [hv, Option.map_some, Option.getD_some] at hentry
        have hlt : entryIndex v < 1024 := Nat.mod_lt _ (by decide)
        refine absurd ?_ (hall _ hpage.tableIndex_lt _ hlt)
        rw [hentry, frameBit_entry hn]
    · intro hset
      refine ⟨.inl hset, fun i hi j hj e => ?_⟩
      have hclear := h.frameBit_clear hhigh hi hj
      rw [← e, hset] at hclear
      cases hclear
  have htables : q.pageTables = fun _ _ => 0 := funext fun i => by
    rw [hu.tables]
    split
    · rfl
    · exact h.tables i (by omega)
  have hdirectory : q.pageDirectory = bootPageDirectory B := funext fun e => by
    rw [hu.directory]
    split
    · rename_i he
      exact (bootPageDirectory_heap B e he.1.1).symm
    · rename_i he
      rcases h.directory e with h' | h'
      · exact h'
      · exact absurd h' he
  rw [hq]
  unfold bootState
  rw [← hbits, ← htables, ← hdirectory]

/-- After every run of commits of distinct heap pages, `pfa_uncommit_all` gives
back the state right after `pfa_init`, and clears no bit that `pfa_init` set. -/
theorem uncommitAll_restores (K : KernelImage) (B : BootTables) (boot : MultibootInfo) (fuel : Nat) (bitmap : Words)
    (hinit : pfaInit boot fuel = .ok bitmap) (s : PagingState)
    (h : (commitSystem K B bitmap).Reachable (fun _ _ => True) s) :
    pfaUncommitAll s.pfa = .ok (bootState B bitmap) ∧
      ∀ i < pfaPageTablesLen, ∀ j < 1024, isSet bitmap (frameBit (s.pfa.pageTables i j)) = false := by
  have hinv : Committed K B bitmap s.pfa s.map :=
    h.invariant (I := fun s => Committed K B bitmap s.pfa s.map) (by rintro _ rfl; exact .init K B bitmap)
      fun _ _ _ hs _ hstep => committed_step hs hstep
  have hhigh : ∀ n, 2 ^ 32 ≤ pageAddr n → isSet bitmap n = false := fun n hn => not_isSet_pfaInit hinit hn
  exact ⟨hinv.uncommitAll hhigh, fun i hi j hj => hinv.frameBit_clear hhigh hi hj⟩

/-- Memory from 1 MiB up to 64 MiB, and commits of two heap pages, in different tables. -/
theorem uncommitAll_restores_twoPages : pfaUncommitAll twoPages.pfa = .ok clearState :=
  (uncommitAll_restores twoMegabyteImage ⟨0x101000, 0x102000, 0x103000⟩ (oneEntry 0x100000 0x3f00000) 2 _
    (pfaInit_oneEntry (by decide)) twoPages
    (.step (.step (.init rfl) trivial commitStep_onePage) trivial commitStep_twoPages)).1

end OSForReal.Proof.Pages
