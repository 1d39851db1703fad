import OSForReal.Proof.Pages.Map

/-!
# Which frames are mapped

`pfa_init` marks every page below a usable one that is not usable itself
(`markedBelow_init`): it marks the gaps before entries and the entries that are
not general purpose memory, but nothing behind the last entry, and nothing from
4 GiB on. So a commit maps a sound frame as long as a usable one is left, and
exactly then (`soundFrame_iff_left`).
-/

namespace OSForReal.Proof.Pages

open Framework (Res System)
open Framework.Bitmap (Words isSet setBit firstClear firstClear_eq_some firstClear_eq_some_iff isSet_setBit)

/-! ## What marking does -/

/-- The address that bit `n` of the bitmap stands for, before it wraps. -/
def pageAddr (n : Nat) : Nat := reservedPhys + n * pageSize

theorem pageFrame_eq (n : Nat) : pageFrame n = pageAddr n % 2 ^ 32 := rfl

theorem markPage_pageAddr (b : Words) (k : Nat) : markPage b (pageAddr k) = setBit b k := by
  unfold markPage pageAddr
  rw [Nat.add_sub_cancel_left, Nat.mul_div_cancel _ (by decide)]

theorem pageAddr_succ (k : Nat) : pageAddr k + pageSize = pageAddr (k + 1) := by
  unfold pageAddr
  rw [Nat.add_mul, Nat.one_mul, Nat.add_assoc]

theorem pageAddr_le (n k : Nat) : pageAddr n ≤ pageAddr k ↔ n ≤ k := by
  simp only [pageAddr, pageSize]
  omega

/-- The pages from the `k`-th on that begin below `areaEnd` are marked. -/
theorem isSet_markPages (b : Words) (k areaEnd n : Nat) :
    isSet (markPages b (pageAddr k) areaEnd) n = true ↔ isSet b n = true ∨ (k ≤ n ∧ pageAddr n < areaEnd) := by
  obtain ⟨m, hm⟩ : ∃ m, areaEnd ≤ pageAddr k + m * pageSize := ⟨areaEnd, by simp only [pageSize]; omega⟩
  induction m generalizing b k with
  | zero =>
    rw [markPages, if_neg (by omega)]
    have hlt : ¬ (k ≤ n ∧ pageAddr n < areaEnd) := fun h => by
      have := (pageAddr_le k n).mpr h.1
      omega
    simp [hlt]
  | succ m ih =>
    rw [markPages]
    split
    · rename_i hlt
      rw [markPage_pageAddr, pageAddr_succ, ih _ _ (by rw [Nat.add_mul] at hm; rw [← pageAddr_succ]; omega)]
      rw [isSet_setBit, Bool.or_eq_true, decide_eq_true_eq]
      constructor
      · rintro ((h | rfl) | h)
        · exact .inl h
        · exact .inr ⟨Nat.le_refl _, hlt⟩
        · exact .inr ⟨by omega, h.2⟩
      · rintro (h | ⟨h, h'⟩)
        · exact .inl (.inl h)
        · by_cases e : n = k
          · exact .inl (.inr e)
          · exact .inr ⟨by omega, h'⟩
    · rename_i hlt
      have hn : ¬ (k ≤ n ∧ pageAddr n < areaEnd) := fun h => by
        have := (pageAddr_le k n).mpr h.1
        omega
      simp [hn]

/-- The pages that reach into the area are marked. -/
theorem isSet_markArea (b : Words) {start areaEnd : Nat} (hs : start < 2 ^ 32) (n : Nat) :
    isSet (markArea b start areaEnd) n = true ↔
      isSet b n = true ∨ (start < pageAddr n + pageSize ∧ pageAddr n < areaEnd) := by
  have halign : alignBackwards start pageSize = start / pageSize * pageSize := by
    have := @Framework.Word.land_clear_low start 12 hs (by decide)
    rw [Nat.mul_comm] at this
    exact this
  unfold markArea
  split
  · rename_i hend
    -- The area begins at a page, the first one or a later one.
    obtain ⟨k, hk, hle⟩ : ∃ k, (if alignBackwards start pageSize < reservedPhys then reservedPhys
        else alignBackwards start pageSize) = pageAddr k ∧ ∀ n, k ≤ n ↔ start < pageAddr n + pageSize := by
      rw [halign]
      split
      · rename_i hlt
        refine ⟨0, by simp [pageAddr], fun n => ?_⟩
        simp only [pageAddr, reservedPhys, pageSize] at *
        omega
      · rename_i hge
        refine ⟨start / pageSize - reservedPhys / pageSize, ?_, fun n => ?_⟩ <;>
          simp only [pageAddr, reservedPhys, pageSize] at * <;> omega
    simp only [hk, isSet_markPages, hle]
  · rename_i hend
    have hn : ¬ (start < pageAddr n + pageSize ∧ pageAddr n < areaEnd) := fun h => by
      have := h.2
      simp only [pageAddr] at this
      omega
    simp [hn]

/-! ## Memory maps -/

/-- The address `a` is in the entry. -/
def Covers (s : MMapSegment) (a : Nat) : Prop := s.baseAddr ≤ a ∧ a < s.baseAddr + s.length

/-- The entries lie one after the other in memory, from offset `off` on, and end at `mmap_length`. -/
def LaidOut (boot : MultibootInfo) : Nat → List MMapSegment → Prop
  | off, [] => off = boot.mmapLength
  | off, s :: l => boot.segmentAt off = s ∧ LaidOut boot (off + s.size + 4) l

/-- A memory map: entries sorted by base, no two of which overlap, with 64-bit
addresses, and with sizes that add up. -/
structure MemoryMap (boot : MultibootInfo) (l : List MMapSegment) : Prop where
  laidOut : LaidOut boot 0 l
  mmapLength : boot.mmapLength < 2 ^ 32
  addresses : ∀ s ∈ l, s.baseAddr + s.length < 2 ^ 64
  sorted : l.Pairwise (·.baseAddr ≤ ·.baseAddr)
  disjoint : l.Pairwise fun s t => ∀ a, ¬ (Covers s a ∧ Covers t a)

/-- The `PAGE_SIZE` bytes at `frame` are general purpose memory between 10 MiB and 4 GiB. -/
def SoundFrame (l : List MMapSegment) (frame : Nat) : Prop :=
  reservedPhys ≤ frame ∧ frame + pageSize ≤ 2 ^ 32 ∧
    ∃ s ∈ l, s.type = 1 ∧ ∀ a, frame ≤ a → a < frame + pageSize → Covers s a

/-- Marking only adds marks. -/
theorem isSet_markSegment {b : Words} {last n : Nat} {s : MMapSegment} (hlast : last < 2 ^ 32)
    (h : isSet b n = true) : isSet (markSegment b last s) n = true := by
  have hgap : isSet (markArea b last (alignForward (s.baseAddr % 2 ^ 32) pageSize)) n = true :=
    (isSet_markArea b hlast n).mpr (.inl h)
  unfold markSegment
  split
  · exact (isSet_markArea _ (Nat.mod_lt _ (by decide)) n).mpr (.inl hgap)
  · exact hgap

theorem le_alignForward {x : Nat} (hx : x + (pageSize - 1) < 2 ^ 32) : x ≤ alignForward x pageSize := by
  have hmask : (x + (pageSize - 1)) &&& (0xffffffff ^^^ (pageSize - 1)) = 2 ^ 12 * ((x + (pageSize - 1)) / 2 ^ 12) :=
    @Framework.Word.land_clear_low (x + (pageSize - 1)) 12 hx (by decide)
  unfold alignForward
  rw [Nat.add_sub_assoc (by decide), Nat.mod_eq_of_lt hx, hmask]
  simp only [pageSize]
  omega

/-- The gap before an entry is marked. -/
theorem isSet_markSegment_gap (b : Words) {last n : Nat} {s : MMapSegment} (hlast : last < 2 ^ 32)
    (hbase : s.baseAddr + (pageSize - 1) < 2 ^ 32) (h : last < pageAddr n + pageSize) (hn : pageAddr n < s.baseAddr) :
    isSet (markSegment b last s) n = true := by
  have hgap : isSet (markArea b last (alignForward (s.baseAddr % 2 ^ 32) pageSize)) n = true := by
    rw [Nat.mod_eq_of_lt (by omega)]
    exact (isSet_markArea b hlast n).mpr (.inr ⟨h, Nat.lt_of_lt_of_le hn (le_alignForward hbase)⟩)
  unfold markSegment
  split
  · exact (isSet_markArea _ (Nat.mod_lt _ (by decide)) n).mpr (.inl hgap)
  · exact hgap

/-- An entry that is not general purpose memory is marked. -/
theorem isSet_markSegment_self (b : Words) {last n : Nat} {s : MMapSegment} (htype : s.type ≠ 1)
    (hend : s.baseAddr + s.length + (pageSize - 1) < 2 ^ 32) (h : s.baseAddr < pageAddr n + pageSize)
    (hn : pageAddr n < s.baseAddr + s.length) : isSet (markSegment b last s) n = true := by
  unfold markSegment
  rw [if_pos htype, Nat.mod_eq_of_lt (by omega), Nat.mod_eq_of_lt (by omega), Nat.mod_eq_of_lt (by omega)]
  exact (isSet_markArea _ (by omega) n).mpr (.inr ⟨h, Nat.lt_of_lt_of_le hn (le_alignForward hend)⟩)

/-! ## What `pfa_init` marks -/

/-- The entries in order, from one that ends at `last` on. -/
def markAll : Words → Nat → List MMapSegment → Words
  | b, _, [] => b
  | b, last, s :: l => markAll (markSegment b last s) ((s.baseAddr + s.length) % 2 ^ 64 % 2 ^ 32) l

theorem LaidOut.le {boot : MultibootInfo} {off : Nat} {l : List MMapSegment} (h : LaidOut boot off l) :
    off ≤ boot.mmapLength := by
  induction l generalizing off with
  | nil => exact Nat.le_of_eq h
  | cons s l ih =>
    have := ih h.2
    omega

/-- The loop of `pfa_init` goes through the entries in order. -/
theorem initLoop_returns {boot : MultibootInfo} {l : List MMapSegment} {off : Nat} (hlen : boot.mmapLength < 2 ^ 32)
    (h : LaidOut boot off l) (b : Words) (last : Nat) :
    ∃ fuel, Res.loop (initStep boot) fuel ⟨b, last, off, off⟩ = .ok (markAll b last l) := by
  induction l generalizing b last off with
  | nil =>
    obtain rfl : off = boot.mmapLength := h
    exact ⟨1, Res.loop_leave (b := b) (by simp [initStep]) 0⟩
  | cons s l ih =>
    obtain ⟨rfl, hl⟩ := h
    have hle := hl.le
    obtain ⟨fuel, hr⟩ := ih hl (markSegment b last (boot.segmentAt off))
      (((boot.segmentAt off).baseAddr + (boot.segmentAt off).length) % 2 ^ 64 % 2 ^ 32)
    refine ⟨fuel + 1, (Res.loop_continue ?_ fuel).trans hr⟩
    simp only [initStep]
    rw [if_pos (by omega), Nat.mod_eq_of_lt (show (boot.segmentAt off).size + 4 < 2 ^ 32 by omega),
      Nat.mod_eq_of_lt (show off + ((boot.segmentAt off).size + 4) < 2 ^ 32 by omega)]
    rfl

theorem initLoop_ok {boot : MultibootInfo} {l : List MMapSegment} {b b' : Words} {last off fuel : Nat}
    (hlen : boot.mmapLength < 2 ^ 32) (h : LaidOut boot off l)
    (hr : Res.loop (initStep boot) fuel ⟨b, last, off, off⟩ = .ok b') : b' = markAll b last l := by
  obtain ⟨fuel', hr'⟩ := initLoop_returns hlen h b last
  have hmax := Res.loop_mono (Nat.le_max_left fuel fuel') hr
  rw [Res.loop_mono (Nat.le_max_right fuel fuel') hr'] at hmax
  exact (Res.ok.inj hmax).symm

theorem pfaInit_eq {boot : MultibootInfo} {l : List MMapSegment} {b : Words} {fuel : Nat} (h : MemoryMap boot l)
    (hr : pfaInit boot fuel = .ok b) : b = markAll (fun _ => 0) 0 l :=
  initLoop_ok h.mmapLength h.laidOut hr

theorem isSet_markAll {b : Words} {last n : Nat} {l : List MMapSegment} (hlast : last < 2 ^ 32)
    (h : isSet b n = true) : isSet (markAll b last l) n = true := by
  induction l generalizing b last with
  | nil => exact h
  | cons s l ih => exact ih (Nat.mod_lt _ (by decide)) (isSet_markSegment hlast h)

/-- Below a page of general purpose memory, every page that is not in such an entry is marked. -/
theorem isSet_markAll_of_below {l : List MMapSegment} {e : MMapSegment} {b : Words} {last n u : Nat}
    (hsorted : l.Pairwise (·.baseAddr ≤ ·.baseAddr)) (hdisjoint : l.Pairwise fun s t => ∀ a, ¬ (Covers s a ∧ Covers t a))
    (he : e ∈ l) (htype : e.type = 1) (hu : ∀ a, pageAddr u ≤ a → a < pageAddr u + pageSize → Covers e a)
    (hhi : pageAddr u + pageSize ≤ 2 ^ 32) (hnu : n < u) (hlast : last < 2 ^ 32) (hlast' : last < pageAddr n + pageSize)
    (hn : ¬ ∃ s ∈ l, s.type = 1 ∧ ∀ a, pageAddr n ≤ a → a < pageAddr n + pageSize → Covers s a) :
    isSet (markAll b last l) n = true := by
  induction l generalizing b last with
  | nil => cases he
  | cons s l ih =>
    rw [List.pairwise_cons] at hsorted hdisjoint
    have hnu' : pageAddr n + pageSize ≤ pageAddr u := by
      rw [pageAddr_succ]
      exact (pageAddr_le _ _).mpr hnu
    have hbase : e.baseAddr ≤ pageAddr u := (hu (pageAddr u) (Nat.le_refl _) (Nat.lt_add_of_pos_right (by decide))).1
    have hsbase : s.baseAddr ≤ e.baseAddr := by
      rcases List.mem_cons.mp he with rfl | he
      · exact Nat.le_refl _
      · exact hsorted.1 e he
    have hlast'' : (s.baseAddr + s.length) % 2 ^ 64 % 2 ^ 32 < 2 ^ 32 := Nat.mod_lt _ (by decide)
    unfold markAll
    by_cases hgap : pageAddr n < s.baseAddr
    · exact isSet_markAll hlast''
        (isSet_markSegment_gap b hlast (by simp only [pageSize] at *; omega) hlast' hgap)
    · rcases List.mem_cons.mp he with rfl | he
      · -- The page lies between the base of the entry and a page in it.
        refine absurd ⟨e, List.mem_cons_self, htype, fun a ha ha' => ⟨by omega, ?_⟩⟩ hn
        have := (hu (pageAddr u) (Nat.le_refl _) (Nat.lt_add_of_pos_right (by decide))).2
        omega
      · have hend : s.baseAddr + s.length ≤ e.baseAddr := by
          by_contra hlt
          have hc : Covers e e.baseAddr := ⟨Nat.le_refl _, by
            have := (hu (pageAddr u) (Nat.le_refl _) (Nat.lt_add_of_pos_right (by decide))).2
            omega⟩
          exact hdisjoint.1 e he e.baseAddr ⟨⟨hsbase, by omega⟩, hc⟩
        by_cases hin : pageAddr n + pageSize ≤ s.baseAddr + s.length
        · by_cases hs : s.type = 1
          · exact absurd ⟨s, List.mem_cons_self, hs, fun a ha ha' => ⟨by omega, by omega⟩⟩ hn
          · exact isSet_markAll hlast'' (isSet_markSegment_self b hs (by simp only [pageSize] at *; omega)
              (by simp only [pageSize] at *; omega) (by simp only [pageSize] at *; omega))
        · refine ih hsorted.2 hdisjoint.2 he hlast'' ?_ fun ⟨t, ht, h⟩ => hn ⟨t, List.mem_cons_of_mem _ ht, h⟩
          rw [Nat.mod_eq_of_lt (by simp only [pageSize] at *; omega), Nat.mod_eq_of_lt (by simp only [pageSize] at *; omega)]
          omega

/-! ## Runs -/

/-- The frame that a page is mapped to. -/
def mappedFrame (K : KernelImage) (p : Pfa) (v : Nat) : Option Nat := (walk K p v).map (· &&& 0xfffff000)

/-- The commit that led to `p` mapped `v` to a sound frame. -/
def MapsSound (K : KernelImage) (l : List MMapSegment) (p : Pfa) (v : Nat) : Prop :=
  ∃ frame, mappedFrame K p v = some frame ∧ SoundFrame l frame

/-- A sound frame is left: its bit is clear. -/
def SoundFrameLeft (l : List MMapSegment) (p : Pfa) : Prop :=
  ∃ n < pfaPageBitmapLen * 32, isSet p.pageBitmap n = false ∧ SoundFrame l (pageAddr n)

/-- `pfa_init`, then calls of `pfa_commit_page` on heap pages. -/
def frameSystem (K : KernelImage) (B : BootTables) (boot : MultibootInfo) : System Pfa (Nat × Bool) where
  init p := ∃ fuel bitmap, pfaInit boot fuel = .ok bitmap ∧ p = ⟨bitmap, fun _ _ => 0, bootPageDirectory B⟩
  step p e p' := HeapPage e.1 ∧ pfaCommitPage K p e.1 = .ok (e.2, p')

/-- Below a sound frame, every page that is not one is marked. -/
def MarkedBelow (l : List MMapSegment) (p : Pfa) : Prop :=
  ∀ n u, n < u → SoundFrame l (pageAddr u) → ¬ SoundFrame l (pageAddr n) → isSet p.pageBitmap n = true

theorem markedBelow_init {boot : MultibootInfo} {l : List MMapSegment} {p : Pfa} {fuel : Nat} (h : MemoryMap boot l)
    (hp : pfaInit boot fuel = .ok p.pageBitmap) : MarkedBelow l p := by
  intro n u hnu ⟨_, hhi, e, he, htype, hu⟩ hn
  rw [pfaInit_eq h hp]
  refine isSet_markAll_of_below h.sorted h.disjoint he htype hu hhi hnu (by decide)
    (Nat.lt_of_lt_of_le (by decide) (Nat.le_add_left ..)) fun hs => hn ⟨Nat.le_add_right .., ?_, hs⟩
  have := (pageAddr_le n u).mpr hnu.le
  omega

variable {K : KernelImage} {B : BootTables} {boot : MultibootInfo} {l : List MMapSegment} {p p' : Pfa} {v : Nat}

/-- A commit only sets a bit. -/
theorem markedBelow_step {e : Nat × Bool} (h : MarkedBelow l p) (hs : (frameSystem K B boot).step p e p') :
    MarkedBelow l p' := by
  obtain ⟨w, b⟩ := e
  obtain ⟨hv, hr⟩ := hs
  rw [pfaCommitPage_eq K p hv] at hr
  cases hf : firstClear p.pageBitmap pfaPageBitmapLen with
  | none =>
    rw [hf] at hr
    cases hr
    exact h
  | some n =>
    rw [hf] at hr
    cases hr
    intro m u hmu hu hm
    simp [mapPage, h m u hmu hu hm]

/-- The frame of bit `n` is sound when it has not wrapped and its address is. -/
theorem soundFrame_pageFrame {n : Nat} (hn : n < pfaPageBitmapLen * 32) :
    SoundFrame l (pageFrame n) ↔ SoundFrame l (pageAddr n) := by
  by_cases hlt : pageAddr n < 2 ^ 32
  · rw [pageFrame_eq, Nat.mod_eq_of_lt hlt]
  · have hwrap : pageFrame n < reservedPhys := by
      simp only [pageFrame_eq, pageAddr, reservedPhys, pageSize, pfaPageBitmapLen] at *
      omega
    refine ⟨fun h => absurd h.1 (by omega), fun h => ?_⟩
    have := h.2.1
    simp only [pageSize] at this
    omega

/-- A commit maps a sound frame exactly when one is left. -/
theorem mapsSound_commit (h : MarkedBelow l p) (hv : HeapPage v) (hr : pfaCommitPage K p v = .ok (true, p')) :
    MapsSound K l p' v ↔ SoundFrameLeft l p := by
  rw [pfaCommitPage_eq K p hv] at hr
  cases hf : firstClear p.pageBitmap pfaPageBitmapLen with
  | none => rw [hf] at hr; cases hr
  | some n =>
    rw [hf] at hr
    obtain ⟨-, rfl⟩ : true = true ∧ mapPage K p v n = p' := by simpa using hr
    obtain ⟨hn, hclear, hlow⟩ := firstClear_eq_some hf
    have hframe : mappedFrame K (mapPage K p v n) v = some (pageFrame n) := by
      rw [mappedFrame, Maps.walk_mapPage K p hv, Option.map_some,
        entry_address (pageFrame_aligned n) (pageFrame_lt n)]
    have hsound : MapsSound K l (mapPage K p v n) v ↔ SoundFrame l (pageAddr n) := by
      rw [MapsSound, hframe, ← soundFrame_pageFrame hn]
      simp
    rw [hsound]
    constructor
    · intro h
      exact ⟨n, hn, hclear, h⟩
    · rintro ⟨u, hu, huclear, husound⟩
      -- The bit found is the lowest clear one, so it is not above `u`.
      rcases Nat.lt_trichotomy n u with hnu | rfl | hnu
      · by_contra hns
        rw [h n u hnu husound hns] at hclear
        cases hclear
      · exact husound
      · rw [hlow u hnu] at huclear
        cases huclear

/-- In every state of a run, a successful commit maps a sound frame if and only if
one was left before it. -/
theorem soundFrame_iff_left (K : KernelImage) (B : BootTables) (boot : MultibootInfo) (l : List MMapSegment)
    (hmap : MemoryMap boot l) (p : Pfa) (hp : (frameSystem K B boot).Reachable (fun _ _ => True) p) (v : Nat)
    (p' : Pfa) (hv : HeapPage v) (hr : pfaCommitPage K p v = .ok (true, p')) :
    MapsSound K l p' v ↔ SoundFrameLeft l p := by
  have hinv : MarkedBelow l p := hp.invariant (I := MarkedBelow l)
    (by rintro _ ⟨fuel, bitmap, hb, rfl⟩; exact markedBelow_init hmap hb)
    fun _ _ _ h _ hs => markedBelow_step h hs
  exact mapsSound_commit hinv hv hr

/-- A memory map of one entry of general purpose memory. -/
def oneEntry (base length : Nat) : MultibootInfo := ⟨24, fun _ => ⟨20, base, length, 1⟩⟩

theorem memoryMap_oneEntry {base length : Nat} (h : base + length < 2 ^ 64) :
    MemoryMap (oneEntry base length) [⟨20, base, length, 1⟩] where
  laidOut := ⟨rfl, rfl⟩
  mmapLength := show 24 < 2 ^ 32 by decide
  addresses := by simpa using h
  sorted := List.pairwise_singleton ..
  disjoint := List.pairwise_singleton ..

/-- An entry that begins below the reserved memory leaves the bitmap clear. -/
theorem pfaInit_oneEntry {base length : Nat} (h : alignForward (base % 2 ^ 32) pageSize ≤ reservedPhys) :
    pfaInit (oneEntry base length) 2 = .ok fun _ => 0 := by
  have hmark : markSegment (fun _ => 0) 0 ⟨20, base, length, 1⟩ = fun _ => 0 := by
    simp only [markSegment, markArea]
    rw [if_neg fun hne => hne rfl, if_neg (by omega)]
  unfold pfaInit
  rw [Res.loop_continue (c := ⟨fun _ => 0, (base + length) % 2 ^ 64 % 2 ^ 32, 24, 24⟩)]
  · exact Res.loop_leave rfl 0
  · simp only [initStep, oneEntry, hmark]
    exact if_pos (by decide)

theorem reachable_clearState {base length : Nat} (h : alignForward (base % 2 ^ 32) pageSize ≤ reservedPhys) :
    (frameSystem twoMegabyteImage ⟨0x101000, 0x102000, 0x103000⟩ (oneEntry base length)).Reachable (fun _ _ => True)
      clearState :=
  .init ⟨2, _, pfaInit_oneEntry h, rfl⟩

/-- Memory from 1 MiB up to 64 MiB. -/
theorem soundFrame_iff_left_first : MapsSound twoMegabyteImage [⟨20, 0x100000, 0x3f00000, 1⟩]
    (mapPage twoMegabyteImage clearState heapStart 0) heapStart := by
  refine (soundFrame_iff_left twoMegabyteImage ⟨0x101000, 0x102000, 0x103000⟩ (oneEntry 0x100000 0x3f00000) _
    (memoryMap_oneEntry (by decide)) clearState (reachable_clearState (by decide)) heapStart _ heapPage_first
    commit_clearState).mpr ⟨0, by decide, rfl, by decide, by decide, _, List.mem_singleton_self _, rfl, fun a ha ha' => ?_⟩
  simp only [pageAddr, reservedPhys, pageSize] at ha ha'
  exact ⟨by simp only; omega, by simp only; omega⟩

/-- With memory up to 8 MiB, the first commit maps the frame at 10 MiB. -/
theorem soundFrame_fails : ¬ ∀ (K : KernelImage) (B : BootTables) (boot : MultibootInfo) (l : List MMapSegment),
    MemoryMap boot l → ∀ p, (frameSystem K B boot).Reachable (fun _ _ => True) p → ∀ v p', HeapPage v →
      pfaCommitPage K p v = .ok (true, p') → MapsSound K l p' v := by
  intro hall
  have hmap : MemoryMap (oneEntry 0x100000 0x700000) [⟨20, 0x100000, 0x700000, 1⟩] := memoryMap_oneEntry (by decide)
  have hsound := hall twoMegabyteImage ⟨0x101000, 0x102000, 0x103000⟩ (oneEntry 0x100000 0x700000) _ hmap clearState
    (reachable_clearState (by decide)) heapStart _ heapPage_first commit_clearState
  have hmarked : MarkedBelow [⟨20, 0x100000, 0x700000, 1⟩] clearState :=
    markedBelow_init hmap (pfaInit_oneEntry (by decide))
  obtain ⟨n, -, -, -, -, s, hs, -, hcovers⟩ := (mapsSound_commit hmarked heapPage_first commit_clearState).mp hsound
  obtain rfl := List.mem_singleton.mp hs
  have hend := (hcovers (pageAddr n) (Nat.le_refl _) (Nat.lt_add_of_pos_right (by decide))).2
  simp only [pageAddr, reservedPhys] at hend
  omega

end OSForReal.Proof.Pages
