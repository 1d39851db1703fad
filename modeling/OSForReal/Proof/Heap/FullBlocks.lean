import OSForReal.Proof.Heap.FreeReturns
import OSForReal.Proof.Heap.Selection

/-!
# Blocks that hold what was asked for

`FullBlock`: the block is part of the segment it is taken from, and holds its
header and `size` bytes. In any reachable state that is so for sizes up to
2³² - 16, whatever the free list looks like (`memoryAllocate_fullBlock`). For
the next eight sizes the sum `true_size + sizeof(Memory_Segment)` wraps, and the
first segment is taken that holds what is left of it; for the last seven
`true_size` itself wraps to 0 or 4.
-/

namespace OSForReal.Proof.Heap

open Framework (Res Chain System)
open OSForReal.Heap

variable {σ : Type} {S : PageSupply σ} {h h' : Heap σ} {fuel size t p : Nat} {s : Selection σ}

/-- The bytes that a block of `t` bytes takes of the segment. -/
def Selection.taken (s : Selection σ) (t : Nat) : Nat := if s.segmentCanBeSplit then t else s.heap.length s.segment

/-- The block at `p` is within the segment that was selected for it, and has room for its header and `size` bytes. -/
def FullBlock (S : PageSupply σ) (fuel : Nat) (h : Heap σ) (size p : Nat) : Prop :=
  ∃ s, selectSegment S fuel h (trueSize size) = .ok (.inl s) ∧ p = (s.segment + sizeofSizeT) % 2 ^ 32 ∧
    s.taken (trueSize size) ≤ s.heap.length s.segment ∧ size + sizeofSizeT ≤ s.taken (trueSize size)

/-- No sum of `memory_allocate` wraps; or, where only that with `sizeof(Memory_Segment)` does, the first
free segment that is as long as what is left of the sum is long enough even so. -/
def SizeFits (h : Heap σ) (size : Nat) : Prop :=
  size + 15 < 2 ^ 32 ∨ size + 7 < 2 ^ 32 ∧ ∃ l a, Chain h.mem h.freeSegmentsHead l a ∧ 0 ∉ l ∧ a ≠ 0 ∧
    (∀ r ∈ l, h.length r < (trueSize size + sizeofMemorySegment) % 2 ^ 32) ∧
    (trueSize size + sizeofMemorySegment) % 2 ^ 32 ≤ h.length a ∧ trueSize size ≤ h.length a

/-- The last seven sizes wrap to nothing. -/
theorem trueSize_wraps (hsize : size < 2 ^ 32) (hwrap : 2 ^ 32 ≤ size + 7) : trueSize size ≤ 4 := by
  unfold trueSize alignForward
  rw [sizeofSizeT]
  generalize hm : ((size + 4) % 2 ^ 32 + 4 - 1) % 2 ^ 32 = m
  have hlt : m < 2 ^ 32 := by omega
  have hmask : m &&& (0xffffffff ^^^ (4 - 1)) = 4 * (m / 4) :=
    @Framework.Word.land_clear_low m 2 hlt (by decide)
  rw [hmask]
  omega

/-- Where the sum with `sizeof(Memory_Segment)` does not wrap, the segment is long enough. -/
theorem le_length_of_selected (hv : h.nextPageVirtAddr < 2 ^ 32) (ht : t + 8 < 2 ^ 32)
    (hr : selectSegment S fuel h t = .ok (.inl s)) : s.taken t ≤ s.heap.length s.segment ∧ t ≤ s.taken t := by
  obtain ⟨h₁, l, -, -, -, hsel, -⟩ := selectSegment_inl hv hr
  unfold Selection.taken
  rcases hsel with ⟨-, -, rfl, hacc⟩ | ⟨-, -, -, hle, hsplit⟩
  · unfold Accepts at hacc
    rw [Nat.mod_eq_of_lt ht] at hacc
    split at hacc
    · rename_i hb
      rw [if_pos hb]
      exact ⟨by omega, Nat.le_refl _⟩
    · rename_i hb
      rw [if_neg hb]
      exact ⟨Nat.le_refl _, hacc.2⟩
  · rw [hsplit]
    split
    · exact ⟨hle, Nat.le_refl _⟩
    · exact ⟨Nat.le_refl _, hle⟩

/-- Where `true_size` wraps, the block has no room. -/
theorem taken_lt_of_selected (hv : h.nextPageVirtAddr < 2 ^ 32) (ht : t ≤ 4)
    (hr : selectSegment S fuel h t = .ok (.inl s)) : s.taken t < 12 := by
  obtain ⟨h₁, l, -, -, -, hsel, -⟩ := selectSegment_inl hv hr
  have hmod : (t + sizeofMemorySegment) % 2 ^ 32 ≤ 12 := by
    rw [sizeofMemorySegment]
    omega
  unfold Selection.taken
  split
  · omega
  · rename_i hb
    rcases hsel with ⟨-, -, rfl, hacc⟩ | ⟨-, -, -, -, hsplit⟩
    · have hlt := hacc
      rw [Accepts, if_neg hb] at hlt
      omega
    · rw [hsplit, decide_eq_true_eq] at hb
      omega

/-- Where the other sum wraps, a selected segment is one that the search splits. -/
theorem split_of_selected (hv : h.nextPageVirtAddr < 2 ^ 32) (ht : 2 ^ 32 ≤ t + 8) (ht' : t < 2 ^ 32) (hal : t % 4 = 0)
    (hr : selectSegment S fuel h t = .ok (.inl s)) :
    ∃ l, commitFirstPage S h = .ok (true, s.heap) ∧ Chain s.heap.mem s.heap.freeSegmentsHead l s.segment ∧ 0 ∉ l ∧
      s.segment ≠ 0 ∧ (∀ r ∈ l, s.heap.length r < (t + sizeofMemorySegment) % 2 ^ 32) ∧
      (t + sizeofMemorySegment) % 2 ^ 32 ≤ s.heap.length s.segment ∧ s.segmentCanBeSplit = true := by
  obtain ⟨h₁, l, hc, h0, href, hsel, -⟩ := selectSegment_inl hv hr
  have hmod : (t + sizeofMemorySegment) % 2 ^ 32 ≤ 4 := by
    rw [sizeofMemorySegment]
    omega
  rcases hsel with ⟨hne, hchain, rfl, hacc⟩ | ⟨-, hmem, ⟨k, hg, hle⟩, hfit, -⟩
  · unfold Accepts at hacc
    split at hacc
    · rename_i hb
      exact ⟨l, hc, hchain, h0, hne, fun r hr => (href r hr).1, hacc, hb⟩
    · omega
  · -- The last segment, of less than 4 bytes, would grow by nearly 4 GiB.
    have hshort := (href _ hmem).1
    rcases grants_range (commitFirstPage_nextPage hv hc) hg with rfl | ⟨hlo, hhi⟩
    · omega
    · simp only [heapStart, kernelStart, maxKernelSize, pageSize] at *
      omega

/-- And it is long enough when the first free segment that is as long as what is left of the sum is. -/
theorem fits_iff_of_selected (hv : h.nextPageVirtAddr < 2 ^ 32) (ht : 2 ^ 32 ≤ t + 8) (ht' : t < 2 ^ 32) (hal : t % 4 = 0)
    (hr : selectSegment S fuel h t = .ok (.inl s)) : t ≤ s.heap.length s.segment ↔
      ∃ l a, Chain h.mem h.freeSegmentsHead l a ∧ 0 ∉ l ∧ a ≠ 0 ∧
        (∀ r ∈ l, h.length r < (t + sizeofMemorySegment) % 2 ^ 32) ∧
        (t + sizeofMemorySegment) % 2 ^ 32 ≤ h.length a ∧ t ≤ h.length a := by
  obtain ⟨l, hc, hchain, h0, hne, hl, hlen, -⟩ := split_of_selected hv ht ht' hal hr
  have hmod : (t + sizeofMemorySegment) % 2 ^ 32 ≤ 4 := by
    rw [sizeofMemorySegment]
    omega
  rcases commitFirstPage_any hc with ⟨-, -, hsame⟩ | ⟨hnil, s', -, hpage⟩
  · rw [hsame] at hchain hl hlen ⊢
    constructor
    · exact fun hfit => ⟨l, s.segment, hchain, h0, hne, hl, hlen, hfit⟩
    · rintro ⟨l', a, hchain', -, -, hl', hlen', hfit⟩
      have heq : s.segment = a := hchain.first_unique (P := fun r => (t + sizeofMemorySegment) % 2 ^ 32 ≤ h.length r)
        hchain' (fun r hr => Nat.not_le.mpr (hl r hr)) (fun r hr => Nat.not_le.mpr (hl' r hr)) hlen hlen'
      rwa [heq]
  · -- The segment is the first page.
    have hhead : s.heap.freeSegmentsHead = h.nextPageVirtAddr := by
      rw [hpage]
      rfl
    have hlen' : s.heap.length h.nextPageVirtAddr = pageSize := by
      rw [hpage]
      exact firstPageHeap_length { h with supply := s' }
    constructor
    · intro hfit
      have hseg : s.segment = h.nextPageVirtAddr := by
        cases l with
        | nil => exact hchain.symm.trans hhead
        | cons x l =>
          have hx : x = h.nextPageVirtAddr := hchain.1.symm.trans hhead
          have hshort := hl x List.mem_cons_self
          rw [hx, hlen'] at hshort
          simp only [pageSize] at hshort
          omega
      rw [hseg, hlen', pageSize] at hfit
      omega
    · rintro ⟨l', a, hchain', h0', ha, -⟩
      rw [hnil] at hchain'
      cases l' with
      | nil => exact absurd hchain'.symm ha
      | cons x l' => exact absurd (hchain'.1 ▸ List.mem_cons_self) h0'

/-- A block off a selected segment is full if and only if the size fits. -/
theorem full_iff_of_selected (hv : h.nextPageVirtAddr < 2 ^ 32) (hsize : size < 2 ^ 32)
    (hr : selectSegment S fuel h (trueSize size) = .ok (.inl s)) :
    (s.taken (trueSize size) ≤ s.heap.length s.segment ∧ size + sizeofSizeT ≤ s.taken (trueSize size)) ↔
      SizeFits h size := by
  unfold SizeFits
  by_cases hwrap : size + 7 < 2 ^ 32
  · have htrue := trueSize_eq hwrap
    have hpad := le_pad (size + 4)
    by_cases hsum : size + 15 < 2 ^ 32
    · obtain ⟨hle, hge⟩ := le_length_of_selected hv (by rw [htrue]; unfold pad; omega) hr
      refine ⟨fun _ => .inl hsum, fun _ => ⟨hle, ?_⟩⟩
      rw [sizeofSizeT]
      omega
    · have ht : 2 ^ 32 ≤ trueSize size + 8 ∧ trueSize size < 2 ^ 32 ∧ trueSize size % 4 = 0 := by
        rw [htrue]
        unfold pad
        omega
      obtain ⟨l, -, -, -, -, -, -, hsplit⟩ := split_of_selected hv ht.1 ht.2.1 ht.2.2 hr
      have htaken : s.taken (trueSize size) = trueSize size := if_pos hsplit
      rw [htaken, fits_iff_of_selected hv ht.1 ht.2.1 ht.2.2 hr]
      constructor
      · exact fun hfit => .inr ⟨hwrap, hfit.1⟩
      · rintro (hlt | ⟨-, hfit⟩)
        · exact absurd hlt hsum
        · refine ⟨hfit, ?_⟩
          rw [sizeofSizeT]
          omega
  · have hlt := taken_lt_of_selected hv (trueSize_wraps hsize (by omega)) hr
    constructor
    · rintro ⟨-, hroom⟩
      rw [sizeofSizeT] at hroom
      omega
    · rintro (hfit | ⟨hfit, -⟩) <;> omega

/-- The next page is an address in every state of a run. -/
theorem nextPage_lt {ok : HeapState σ → HeapEvent → Prop} {s : HeapState σ} (h : (heapCalls S).Reachable ok s) :
    s.heap.nextPageVirtAddr < 2 ^ 32 := by
  apply h.invariant (I := fun s => s.heap.nextPageVirtAddr < 2 ^ 32)
  · rintro _ ⟨mem, supply, rfl⟩
    exact (show heapStart < 2 ^ 32 by decide)
  · intro s i s' hs _ hstep
    cases hstep with
    | allocate _ hr => exact memoryAllocate_nextPage hs hr
    | free _ hr => exact (memoryFree_nextPage hr).trans_lt hs

/-- A block that `memory_allocate` returns in a reachable state is full if and only if the size fits. -/
theorem memoryAllocate_fullBlock (S : PageSupply σ) (s : HeapState σ) (h : (heapCalls S).Reachable (fun _ _ => True) s)
    (size fuel p : Nat) (h' : Heap σ) (hsize : size < 2 ^ 32) (hr : memoryAllocate S fuel s.heap size = .ok (p, h'))
    (hp : p ≠ 0) : FullBlock S fuel s.heap size p ↔ SizeFits s.heap size := by
  have hv := nextPage_lt h
  rw [memoryAllocate_eq] at hr
  obtain ⟨x, hx, hr⟩ := Res.bind_eq_ok.mp hr
  cases x with
  | inr h₁ =>
    cases hr
    exact absurd rfl hp
  | inl q =>
    have hpq : p = (q.segment + sizeofSizeT) % 2 ^ 32 := congrArg Prod.fst (Res.ok.inj hr).symm
    have hfull : FullBlock S fuel s.heap size p ↔ q.taken (trueSize size) ≤ q.heap.length q.segment ∧
        size + sizeofSizeT ≤ q.taken (trueSize size) := by
      constructor
      · rintro ⟨q', hq', -, hle⟩
        rw [hx] at hq'
        cases hq'
        exact hle
      · exact fun hle => ⟨q, hx, hpq, hle⟩
    rw [hfull]
    exact full_iff_of_selected hv hsize hx

theorem memoryAllocate_fullBlock_first : ∃ fuel, FullBlock everyPage fuel emptyState.heap 100 (heapStart + 4) := by
  have hrun : (runEvent everyPage 8 emptyState (.allocate 100 (heapStart + 4))).isSome = true := by decide +kernel
  obtain ⟨s, hs⟩ := Option.isSome_iff_exists.mp hrun
  have hreach : (heapCalls everyPage).Reachable (fun _ _ => True) emptyState := .init ⟨_, _, rfl⟩
  cases runEvent_step hs with
  | allocate _ hsize hr =>
    exact ⟨_, (memoryAllocate_fullBlock everyPage emptyState hreach 100 _ (heapStart + 4) _ hsize hr (by decide)).mpr
      (.inl (by decide))⟩

/-- The sum of `0xfffffffc` and the header is 0, and so is the block. -/
theorem fullBlock_fails : ¬ ∀ (S : PageSupply Unit) (s : HeapState Unit),
    (heapCalls S).Reachable (fun _ _ => True) s → ∀ (size fuel p : Nat) (h' : Heap Unit), size < 2 ^ 32 →
      memoryAllocate S fuel s.heap size = .ok (p, h') → p ≠ 0 → FullBlock S fuel s.heap size p := by
  intro hall
  have hrun : (runEvent everyPage 8 emptyState (.allocate 0xfffffffc (heapStart + 4))).isSome = true := by
    decide +kernel
  obtain ⟨s, hs⟩ := Option.isSome_iff_exists.mp hrun
  cases runEvent_step hs with
  | allocate _ hsize hr =>
    obtain ⟨q, hq, -, -, hroom⟩ := hall everyPage emptyState (.init ⟨_, _, rfl⟩) _ _ _ _ hsize hr (by decide)
    have hlt := taken_lt_of_selected (show heapStart < 2 ^ 32 by decide)
      (trueSize_wraps (show 0xfffffffc < 2 ^ 32 by decide) (by decide)) hq
    rw [sizeofSizeT] at hroom
    omega

end OSForReal.Proof.Heap
