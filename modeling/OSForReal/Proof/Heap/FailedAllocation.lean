import OSForReal.Proof.Heap.FullBlocks
import OSForReal.Proof.Pages.Frames

/-!
# What a failed allocation leaves behind

`memory_allocate` commits pages one at a time and returns 0 when one of them
cannot be committed, without undoing what it did for the others: the list has
a first page then, or `next_page_virt_addr` has moved past pages that no
segment has (`failed_cases`). So a call that fails leaves the heap as it was
exactly when there was no frame left to begin with
(`memoryAllocate_leavesHeap`).
-/

namespace OSForReal.Proof.Heap

open Framework (Res System)
open Framework.Bitmap (isSet setBit firstClear firstClear_eq_none firstClear_eq_some_iff isSet_setBit)
open OSForReal.Heap
open OSForReal.Proof.Pages

section

variable {σ : Type} {S : PageSupply σ} {h h' : Heap σ} {fuel t n len : Nat}

/-- The loop that commits pages fails at the first of them, or commits it. -/
theorem grow_none (hr : Res.loop (growStep S t) n (h, len) = .ok (h', none)) :
    ∃ b s', S.commit h.supply h.nextPageVirtAddr = .ok (b, s') ∧ (b = false → h' = { h with supply := s' }) := by
  cases n with
  | zero => cases hr
  | succ n =>
    by_cases hlt : len < t
    · obtain ⟨b, s', hs⟩ := growStep_commits hlt hr
      refine ⟨b, s', hs, ?_⟩
      rintro rfl
      rw [Res.loop_leave (growStep_short hlt hs)] at hr
      exact (Prod.mk.inj (Res.ok.inj hr)).1.symm
    · rw [Res.loop_leave (b := (h, some len)) (by simp [growStep, hlt])] at hr
      cases hr

/-- A selection fails at the first commit, and the heap is as it was, or after
one, and the list has another head or the next page is another one. -/
theorem failed_cases (hv : h.nextPageVirtAddr < 2 ^ 32) (hr : selectSegment S fuel h t = .ok (.inr h')) :
    (∃ s', S.commit h.supply h.nextPageVirtAddr = .ok (false, s') ∧ h' = { h with supply := s' }) ∨
      (∃ s', S.commit h.supply h.nextPageVirtAddr = .ok (true, s')) ∧
        (h'.freeSegmentsHead ≠ h.freeSegmentsHead ∨ h'.nextPageVirtAddr ≠ h.nextPageVirtAddr) := by
  rcases selectSegment_inr hr with hc | ⟨h₁, n, len, hc, hg⟩
  · rcases commitFirstPage_any hc with ⟨-, htrue, -⟩ | ⟨-, s', hs, hsame⟩
    · cases htrue
    · exact .inl ⟨s', hs, hsame⟩
  · obtain ⟨k, hgrants, -, hhead, hpage, hnone, -⟩ := grow_any (commitFirstPage_nextPage hv hc) hg
    rcases commitFirstPage_any hc with ⟨-, -, rfl⟩ | ⟨hnil, s', hs, hfirst⟩
    · obtain ⟨b, s', hs, hsame⟩ := grow_none hg
      cases b with
      | false => exact .inl ⟨s', hs, hsame rfl⟩
      | true =>
        refine .inr ⟨⟨s', hs⟩, .inr ?_⟩
        rw [hpage]
        rcases grants_range hv hgrants with rfl | ⟨hlo, hhi⟩
        · exact absurd ⟨s', hs, trivial⟩ (hnone rfl)
        · have hk : k ≠ 0 := by
            rintro rfl
            exact hnone rfl ⟨s', hs, trivial⟩
          simp only [heapStart, kernelStart, maxKernelSize, pageSize] at *
          omega
    · -- The first page heads the list.
      have hlo := S.commit_range hv hs
      refine .inr ⟨⟨s', hs⟩, .inl ?_⟩
      rw [hhead, hfirst, hnil]
      exact (Nat.lt_of_lt_of_le (show 0 < heapStart by decide) hlo).ne'

end

/-! ## With the page frame allocator -/

/-- The frame of bit `n` is behind a page of a free segment. -/
def BacksFree (K : KernelImage) (h : Heap Pfa) (n : Nat) : Prop :=
  ∃ v a, OnFreeList h a ∧ a ≤ v ∧ v + pageSize ≤ a + h.length a ∧
    walk K h.supply v = some (pageFrame n ||| pageTableFlags)

/-- The heap is as it was: the list, the next page and, but for frames behind free
segments, the frames; and every later call does what it would have done. -/
structure LeavesHeap (K : KernelImage) (h h' : Heap Pfa) : Prop where
  head : h'.freeSegmentsHead = h.freeSegmentsHead
  segments : ∀ a, OnFreeList h a → h'.next a = h.next a ∧ h'.length a = h.length a
  nextPage : h'.nextPageVirtAddr = h.nextPageVirtAddr
  frames : ∀ n, isSet h'.supply.pageBitmap n = true → isSet h.supply.pageBitmap n = true ∨ BacksFree K h' n
  repeats : ∀ (later : Pfa) (fuel size : Nat), memoryAllocate (pfaSupply K) fuel { h' with supply := later } size =
    memoryAllocate (pfaSupply K) fuel { h with supply := later } size

/-- Every bit of the bitmap is set. -/
def NoFrameLeft (p : Pfa) : Prop := ∀ n < pfaPageBitmapLen * 32, isSet p.pageBitmap n = true

/-- A commit of the call fails. -/
def CommitFails (K : KernelImage) (fuel : Nat) (h : Heap Pfa) (size : Nat) : Prop :=
  ∃ h', selectSegment (pfaSupply K) fuel h (trueSize size) = .ok (.inr h')

variable {K : KernelImage} {p p' : Pfa} {v : Nat}

/-- A commit that returns fails if no frame is left, and changes nothing then. -/
theorem pfaCommitPage_fails {b : Bool} (hr : pfaCommitPage K p v = .ok (b, p')) :
    (b = false ∧ NoFrameLeft p ∧ p' = p) ∨ b = true ∧ ¬ NoFrameLeft p := by
  obtain ⟨_, -, hr⟩ := Res.bind_eq_ok.mp hr
  cases hf : firstClear p.pageBitmap pfaPageBitmapLen with
  | none =>
    rw [takeFrame, hf] at hr
    obtain ⟨rfl, rfl⟩ : false = b ∧ p = p' := by simpa using hr
    exact .inl ⟨rfl, firstClear_eq_none.mp hf, rfl⟩
  | some n =>
    have hne : pageFrame n ≠ 1 := by
      intro e
      have hal := pageFrame_aligned n
      rw [e] at hal
      exact absurd hal (by decide)
    have hleft : ¬ NoFrameLeft p := fun hall => by
      rw [firstClear_eq_none.mpr hall] at hf
      cases hf
    rw [takeFrame, hf] at hr
    simp only [hne, ↓reduceIte] at hr
    obtain ⟨_, -, hr⟩ := Res.bind_eq_ok.mp hr
    obtain ⟨_, -, hr⟩ := Res.bind_eq_ok.mp hr
    obtain ⟨_, -, hr⟩ := Res.bind_eq_ok.mp hr
    exact .inr ⟨(Prod.mk.inj (Res.ok.inj hr)).1.symm, hleft⟩

theorem LeavesHeap.refl (K : KernelImage) (h : Heap Pfa) : LeavesHeap K h h :=
  ⟨rfl, fun _ _ => ⟨rfl, rfl⟩, rfl, fun _ hn => .inl hn, fun _ _ _ => rfl⟩

/-- A call in which a commit fails leaves the heap as it was if and only if no frame was left. -/
theorem leavesHeap_iff {h h' : Heap Pfa} {fuel t : Nat} (hv : h.nextPageVirtAddr < 2 ^ 32)
    (hr : selectSegment (pfaSupply K) fuel h t = .ok (.inr h')) : LeavesHeap K h h' ↔ NoFrameLeft h.supply := by
  rcases failed_cases hv hr with ⟨s', hs, rfl⟩ | ⟨⟨s', hs⟩, hdiff⟩
  · rcases pfaCommitPage_fails hs with ⟨-, hnone, hsame⟩ | ⟨htrue, -⟩
    · rw [hsame]
      exact ⟨fun _ => hnone, fun _ => LeavesHeap.refl K h⟩
    · cases htrue
  · rcases pfaCommitPage_fails hs with ⟨hfalse, -, -⟩ | ⟨-, hleft⟩
    · cases hfalse
    · refine ⟨fun hsame => ?_, fun hnone => absurd hnone hleft⟩
      rcases hdiff with hhead | hpage
      · exact absurd hsame.head hhead
      · exact absurd hsame.nextPage hpage

/-- In every reachable state, a call that fails leaves the heap as it was if and
only if there was no frame left. -/
theorem memoryAllocate_leavesHeap (K : KernelImage) (s : HeapState Pfa)
    (h : (heapCalls (pfaSupply K)).Reachable (fun _ _ => True) s) (size fuel : Nat) (h' : Heap Pfa)
    (hfails : CommitFails K fuel s.heap size) (hr : memoryAllocate (pfaSupply K) fuel s.heap size = .ok (0, h')) :
    LeavesHeap K s.heap h' ↔ NoFrameLeft s.heap.supply := by
  obtain ⟨h₁, hsel⟩ := hfails
  rw [memoryAllocate_eq, hsel] at hr
  obtain rfl : h₁ = h' := by simpa using hr
  exact leavesHeap_iff (nextPage_lt h) hsel

/-- The heap after `memory_init`, with the frames of the clear bits left. -/
def freshHeap (bitmap : Framework.Bitmap.Words) : Heap Pfa :=
  memoryInit (fun _ => 0) ⟨bitmap, fun _ _ => 0, bootPageDirectory ⟨0x101000, 0x102000, 0x103000⟩⟩

theorem reachable_freshHeap (bitmap : Framework.Bitmap.Words) :
    (heapCalls (pfaSupply twoMegabyteImage)).Reachable (fun _ _ => True) ⟨freshHeap bitmap, []⟩ := .init ⟨_, _, rfl⟩

/-- Without a frame, the first call fails. -/
theorem selectSegment_freshHeap :
    selectSegment (pfaSupply twoMegabyteImage) 1 (freshHeap fun _ => 0xffffffff) (trueSize 100) =
      .ok (.inr (freshHeap fun _ => 0xffffffff)) := by
  have hcommit : pfaCommitPage twoMegabyteImage (freshHeap fun _ => 0xffffffff).supply heapStart =
      .ok (false, (freshHeap fun _ => 0xffffffff).supply) := by
    rw [pfaCommitPage_eq _ _ heapPage_first, firstClear_eq_none.mpr fun n _ => Framework.Bitmap.isSet_of_ones rfl]
  have hfirst : commitFirstPage (pfaSupply twoMegabyteImage) (freshHeap fun _ => 0xffffffff) =
      .ok (false, freshHeap fun _ => 0xffffffff) := commitFirstPage_empty rfl hcommit
  unfold selectSegment
  rw [hfirst]
  rfl

theorem memoryAllocate_leavesHeap_first :
    LeavesHeap twoMegabyteImage (freshHeap fun _ => 0xffffffff) (freshHeap fun _ => 0xffffffff) := by
  apply (memoryAllocate_leavesHeap twoMegabyteImage ⟨_, []⟩ (reachable_freshHeap _) 100 1 _
    ⟨_, selectSegment_freshHeap⟩ ?_).mpr fun n _ => Framework.Bitmap.isSet_of_ones rfl
  rw [memoryAllocate_eq, selectSegment_freshHeap]
  rfl

/-- Two frames. -/
def twoFrames (w : Nat) : BitVec 32 := if w = 0 then 0xfffffffc else 0xffffffff

theorem isSet_twoFrames {n : Nat} (hn : 2 ≤ n) : isSet twoFrames n = true := by
  by_cases hw : n / 32 = 0
  · have hall : ∀ k < 32, 2 ≤ k → isSet twoFrames k = true := by decide
    exact hall n (by omega) hn
  · exact Framework.Bitmap.isSet_of_ones (if_neg hw)

/-- A commit takes the lowest frame left. -/
theorem commit_lowest {n : Nat} (hv : HeapPage v) (hn : n < pfaPageBitmapLen * 32) (hclear : isSet p.pageBitmap n = false)
    (hlow : ∀ k < n, isSet p.pageBitmap k = true) : pfaCommitPage K p v = .ok (true, mapPage K p v n) := by
  rw [pfaCommitPage_eq K p hv, firstClear_eq_some_iff.mpr ⟨hn, hclear, hlow⟩]

/-- With two frames left, 9000 bytes fail: the first page is the free list, and the second is in no segment. -/
theorem selectSegment_twoFrames :
    ∃ h', selectSegment (pfaSupply twoMegabyteImage) 3 (freshHeap twoFrames) (trueSize 9000) = .ok (.inr h') := by
  have htrue : trueSize 9000 = 9004 := by decide
  -- The first page takes the first frame, and heads the list.
  let p₁ := mapPage twoMegabyteImage (freshHeap twoFrames).supply heapStart 0
  have hc₁ : pfaCommitPage twoMegabyteImage (freshHeap twoFrames).supply heapStart = .ok (true, p₁) :=
    commit_lowest heapPage_first (by decide) rfl fun k hk => absurd hk (Nat.not_lt_zero k)
  let h₁ := firstPageHeap { freshHeap twoFrames with supply := p₁ }
  have hfirst : commitFirstPage (pfaSupply twoMegabyteImage) (freshHeap twoFrames) = .ok (true, h₁) :=
    commitFirstPage_empty rfl hc₁
  have hlen : h₁.length heapStart = pageSize := firstPageHeap_length _
  have hnext : h₁.next heapStart = 0 := firstPageHeap_next _
  have hsearch : Res.loop (searchStep h₁ 9004) 3 ⟨0, 0, heapStart, false⟩ = .ok ⟨0, heapStart, 0, false⟩ := by
    rw [Res.loop_continue (c := ⟨0, heapStart, 0, false⟩)]
    · exact Res.loop_leave rfl 1
    · simp only [searchStep, hlen, hnext]
      rfl
  -- It grows by the page of the second one, and by no more.
  let p₂ := mapPage twoMegabyteImage p₁ (heapStart + pageSize) 1
  have hc₂ : pfaCommitPage twoMegabyteImage p₁ (heapStart + pageSize) = .ok (true, p₂) := by
    refine commit_lowest ⟨by decide, by decide, by decide⟩ (by decide) ?_ fun k hk => ?_
    · show isSet (setBit twoFrames 0) 1 = false
      rw [isSet_setBit]
      decide
    · obtain rfl : k = 0 := by omega
      show isSet (setBit twoFrames 0) 0 = true
      rw [isSet_setBit]
      decide
  have hc₃ : pfaCommitPage twoMegabyteImage p₂ (heapStart + 2 * pageSize) = .ok (false, p₂) := by
    rw [pfaCommitPage_eq _ _ ⟨by decide, by decide, by decide⟩, firstClear_eq_none.mpr fun n hn => ?_]
    show isSet (setBit (setBit twoFrames 0) 1) n = true
    rw [isSet_setBit, isSet_setBit]
    by_cases hlt : n < 2
    · have hn' : n = 0 ∨ n = 1 := by omega
      rcases hn' with rfl | rfl <;> decide
    · rw [isSet_twoFrames (by omega)]
      rfl
  have hpage₂ : h₁.nextPageVirtAddr = heapStart + pageSize :=
    show (heapStart + pageSize) % 2 ^ 32 = heapStart + pageSize by decide
  let h₂ := advancePage { h₁ with supply := p₂ }
  have hpage₃ : h₂.nextPageVirtAddr = heapStart + 2 * pageSize := by
    show (h₁.nextPageVirtAddr + pageSize) % 2 ^ 32 = heapStart + 2 * pageSize
    rw [hpage₂]
    decide
  have hgrow₂ := growStep_short (S := pfaSupply twoMegabyteImage) (h := h₁) (show pageSize < 9004 by decide)
    (hpage₂.symm ▸ hc₂)
  have hgrow₃ := growStep_short (S := pfaSupply twoMegabyteImage) (h := h₂) (show 2 * pageSize < 9004 by decide)
    (hpage₃.symm ▸ hc₃)
  have hgrow : ∃ h', Res.loop (growStep (pfaSupply twoMegabyteImage) 9004) 3 (h₁, pageSize) = .ok (h', none) :=
    ⟨_, (Res.loop_continue hgrow₂ 2).trans (Res.loop_leave hgrow₃ 1)⟩
  obtain ⟨h', hgrow⟩ := hgrow
  rw [htrue]
  refine ⟨h', selectSegment_fails hfirst hsearch rfl (by decide) ?_⟩
  rw [hlen]
  exact hgrow

/-- So the heap is not as it was. -/
theorem leavesHeap_fails : ¬ ∀ (K : KernelImage) (s : HeapState Pfa),
    (heapCalls (pfaSupply K)).Reachable (fun _ _ => True) s → ∀ (size fuel : Nat) (h' : Heap Pfa),
      CommitFails K fuel s.heap size → memoryAllocate (pfaSupply K) fuel s.heap size = .ok (0, h') →
        LeavesHeap K s.heap h' := by
  intro hall
  obtain ⟨h', hsel⟩ := selectSegment_twoFrames
  have hr : memoryAllocate (pfaSupply twoMegabyteImage) 3 (freshHeap twoFrames) 9000 = .ok (0, h') := by
    rw [memoryAllocate_eq, hsel]
    rfl
  have hleaves := hall twoMegabyteImage ⟨freshHeap twoFrames, []⟩ (reachable_freshHeap _) 9000 3 h' ⟨h', hsel⟩ hr
  have hnone := (leavesHeap_iff (show heapStart < 2 ^ 32 by decide) hsel).mp hleaves
  exact absurd (hnone 0 (by decide)) (by decide)

end OSForReal.Proof.Heap
