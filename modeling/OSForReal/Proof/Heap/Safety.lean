import OSForReal.Proof.Heap.System

/-!
# Safety of the heap

`HeapSafe`: live blocks do not overlap one another or the free segments, and
all lie in the committed heap. It holds along every run in which growing the
last free segment runs into no live block (`GrowthRoom`), and fails on a run
in which it does: `memory_allocate` takes the last free segment to end at
`next_page_virt_addr`, which it need not.
-/

namespace OSForReal.Proof.Heap

open Framework (Res Chain Reaches System)
open OSForReal.Heap

variable {σ : Type}

/-- The bytes `[a, a')` and `[b, b')` do not overlap. -/
def Disjoint (a a' b b' : Nat) : Prop := a' ≤ b ∨ b' ≤ a

/-- `a` is on the free list. -/
def OnFreeList (h : Heap σ) (a : Nat) : Prop := Reaches h.mem 0 h.freeSegmentsHead a

/-- The blocks `[ptr - 4, ptr + size)` of the live allocations are pairwise
disjoint and disjoint from the segments `[a, a + length)` of the free list,
and all of them lie in `[heapStart, heapEnd)`. -/
structure HeapSafe (s : HeapState σ) : Prop where
  live : s.live.Pairwise fun b c => Disjoint (b.ptr - 4) (b.ptr + b.size) (c.ptr - 4) (c.ptr + c.size)
  free : ∀ b ∈ s.live, ∀ a, OnFreeList s.heap a →
    Disjoint (b.ptr - 4) (b.ptr + b.size) a (a + s.heap.length a)
  liveInside : ∀ b ∈ s.live, heapStart ≤ b.ptr - 4 ∧ b.ptr + b.size ≤ heapEnd s.heap
  freeInside : ∀ a, OnFreeList s.heap a → heapStart ≤ a ∧ a + s.heap.length a ≤ heapEnd s.heap

/-- Where `memory_allocate` grows the last free segment, `a`, by the pages that
`size` bytes need, no live block overlaps the bytes of it that are then used. -/
def GrowthRoom (S : PageSupply σ) (s : HeapState σ) (size : Nat) : Prop :=
  ∀ a, OnFreeList s.heap a → s.heap.next a = 0 →
    (∀ r, OnFreeList s.heap r → s.heap.length r < trueSize size) →
    S.Grants s.heap.supply s.heap.nextPageVirtAddr (pagesFor (trueSize size) (s.heap.length a)) →
    ∀ b ∈ s.live, Disjoint (b.ptr - 4) (b.ptr + b.size) a
      (a + claimed (s.heap.length a + pageSize * pagesFor (trueSize size) (s.heap.length a)) (trueSize size))

/-- Allocations of at most 2³¹ bytes. -/
def SmallSizes (_ : HeapState σ) : HeapEvent → Prop
  | .allocate size _ => size ≤ 2 ^ 31
  | .free _ => True

/-- Allocations of at most 2³¹ bytes, none of which grows a segment into a live block. -/
def RoomToGrow (S : PageSupply σ) (s : HeapState σ) : HeapEvent → Prop
  | .allocate size _ => size ≤ 2 ^ 31 ∧ GrowthRoom S s size
  | .free _ => True

variable {s : HeapState σ} {A : Arena}

theorem Holds.onFreeList (h : Holds s A) {a : Nat} : OnFreeList s.heap a ↔ ∃ r ∈ A.free, r.addr = a := h.reaches_iff

/-- A state that holds an arena is safe. -/
theorem Holds.safe (h : Holds s A) : HeapSafe s where
  live := by
    have hp : (s.live.map Block.seg).Pairwise Seg.Apart :=
      (h.live.pairwise_iff fun h => h.symm).mpr (List.pairwise_append.mp h.ok.apart).2.1
    refine (List.pairwise_map.mp hp).imp_of_mem fun {b c} hb hc hbc => ?_
    have hb' := h.ptr b hb; have hc' := h.ptr c hc
    have hbp := le_pad b.seg.len; have hcp := le_pad c.seg.len
    unfold Seg.Apart Seg.fin at hbc
    simp only [Block.seg_addr, Block.seg_len] at *
    unfold Disjoint
    omega
  free := by
    intro b hb a ha
    obtain ⟨r, hr, rfl⟩ := h.onFreeList.mp ha
    have hb' := h.ptr b hb
    have hbp := le_pad b.seg.len; have hrp := le_pad r.len
    have hbr := h.ok.free_live_apart hr (h.mem_live hb)
    rw [h.heap.lens r hr]
    unfold Seg.Apart Seg.fin at hbr
    simp only [Block.seg_addr, Block.seg_len] at *
    unfold Disjoint
    omega
  liveInside := by
    intro b hb
    have hb' := h.ptr b hb
    have hbp := le_pad b.seg.len
    have hw := h.ok.live_within (h.mem_live hb)
    have hlo := hw.lo; have hhi := hw.hi
    rw [h.heapEnd_eq]
    simp only [Seg.fin, Block.seg_addr, Block.seg_len] at *
    exact ⟨hlo, by omega⟩
  freeInside := by
    intro a ha
    obtain ⟨r, hr, rfl⟩ := h.onFreeList.mp ha
    have hw := h.ok.free_within hr
    have hhi := hw.hi; have hrp := le_pad r.len
    rw [h.heapEnd_eq, h.heap.lens r hr]
    simp only [Seg.fin] at hhi
    exact ⟨hw.lo, by omega⟩

theorem Holds.next_last {pre : List Seg} {x : Seg} (h : Holds s A) (hf : A.free = pre ++ [x]) :
    s.heap.next x.addr = 0 := by
  have hc := h.heap.chain
  rw [hf, List.map_append, List.map_cons, List.map_nil, Chain.concat_iff] at hc
  exact hc.2

/-- The condition on the state is the one on the arena it holds. -/
theorem Holds.growthClear {S : PageSupply σ} {size : Nat} (h : Holds s A) (hsize : size + 7 < 2 ^ 32)
    (hroom : GrowthRoom S s size) : GrowthClear S s.heap A size := by
  intro pre x hf hall hgrants b hb
  have hx : x ∈ A.free := by simp [hf]
  obtain ⟨c, hc, rfl⟩ := List.mem_map.mp (h.live.mem_iff.mpr hb)
  have hlen := h.heap.lens x hx
  have hroom := hroom x.addr (h.onFreeList.mpr ⟨x, hx, rfl⟩) (h.next_last hf)
  rw [trueSize_eq hsize, hlen] at hroom
  have hd := hroom (fun r hr => ?_) hgrants c hc
  · have := h.ptr c hc
    unfold Disjoint at hd
    simp only [Block.seg_addr, Block.seg_len]
    omega
  · obtain ⟨q, hq, rfl⟩ := h.onFreeList.mp hr
    rw [h.heap.lens q hq]
    exact hall q hq

/-- One step from a state that holds an arena leads to one that does. -/
theorem holds_step {S : PageSupply σ} {s' : HeapState σ} {i : HeapEvent} (h : Holds s A) (hok : RoomToGrow S s i)
    (hs : HeapStep S s i s') : ∃ A', Holds s' A' := by
  cases hs with
  | allocate h0 hsize hr =>
    obtain ⟨hle, hroom⟩ := hok
    obtain ⟨A', -, hA'⟩ := h.allocate h0 (by unfold pad; omega) (h.growthClear (by omega) hroom) hr
    exact ⟨A', hA'⟩
  | free hb hr =>
    rcases h.free hb hr with ⟨-, hA'⟩ | ⟨_, _, _, -, -, -, hA'⟩
    · exact ⟨_, hA'⟩
    · exact ⟨_, hA'⟩

/-- Every state of a run in which growing runs into no live block is safe. -/
theorem heapSafe_of_roomToGrow (S : PageSupply σ) (s : HeapState σ)
    (h : (heapSystem S).Reachable (RoomToGrow S) s) : HeapSafe s := by
  have hinv : ∃ A, Holds s A := h.invariant (I := fun s => ∃ A, Holds s A)
    (by rintro _ ⟨mem, supply, rfl⟩; exact ⟨_, holds_init mem supply⟩)
    fun s i s' ⟨A, hA⟩ hok hs => holds_step hA hok hs
  obtain ⟨A, hA⟩ := hinv
  exact hA.safe

/-- With no live block there is nothing to grow into. -/
theorem growthRoom_of_no_live {S : PageSupply σ} {size : Nat} (h : s.live = []) : GrowthRoom S s size := by
  intro _ _ _ _ _ b hb
  rw [h] at hb
  cases hb

/-- An allocation that the head of the list has room for grows nothing. -/
theorem growthRoom_of_head {S : PageSupply σ} {size : Nat} (h0 : s.heap.freeSegmentsHead ≠ 0)
    (hfit : trueSize size ≤ s.heap.length s.heap.freeSegmentsHead) : GrowthRoom S s size := by
  intro _ _ _ hall
  have hshort := hall _ (Reaches.start h0)
  omega

/-- Two blocks off the first page, of which the first is freed: a block that
neither of the two free segments has room for grows the last one, behind the
block that is still live. -/
theorem heapSafe_of_roomToGrow_first : ∃ s : HeapState Unit,
    s.live = [⟨heapStart + 312, 5000⟩, ⟨heapStart + 108, 200⟩] ∧ HeapSafe s := by
  have hrun : ((runEvent everyPage 8 emptyState (.allocate 100 (heapStart + 4))).bind fun s₁ =>
      (runEvent everyPage 8 s₁ (.allocate 200 (heapStart + 108))).bind fun s₂ =>
        (runEvent everyPage 8 s₂ (.free ⟨heapStart + 4, 100⟩)).bind fun s₃ =>
          (runEvent everyPage 8 s₃ (.allocate 5000 (heapStart + 312))).map fun s =>
            ([s₁.heap.freeSegmentsHead, s₁.heap.length s₁.heap.freeSegmentsHead, s₃.heap.freeSegmentsHead,
              s₃.heap.next heapStart, s₃.heap.next (heapStart + 308), s₃.heap.length (heapStart + 308)],
              s₃.live, s.live)) =
      some ([heapStart + 104, 3992, heapStart, heapStart + 308, 0, 3788], [⟨heapStart + 108, 200⟩],
        [⟨heapStart + 312, 5000⟩, ⟨heapStart + 108, 200⟩]) := by decide +kernel
  obtain ⟨s₁, hs₁, hrun⟩ := Option.bind_eq_some_iff.mp hrun
  obtain ⟨s₂, hs₂, hrun⟩ := Option.bind_eq_some_iff.mp hrun
  obtain ⟨s₃, hs₃, hrun⟩ := Option.bind_eq_some_iff.mp hrun
  obtain ⟨s, hs, he⟩ := Option.map_eq_some_iff.mp hrun
  simp only [Prod.mk.injEq, List.cons.injEq, and_true] at he
  obtain ⟨⟨hhead₁, hlen₁, hhead₃, hnext₃, hlast₃, hlen₃⟩, hlive₃, hlive⟩ := he
  have hroom₁ : GrowthRoom everyPage s₁ 200 := growthRoom_of_head (by rw [hhead₁]; decide) (by rw [hlen₁]; decide)
  have hchain : Chain s₃.heap.mem s₃.heap.freeSegmentsHead [heapStart, heapStart + 308] 0 :=
    ⟨hhead₃, hnext₃, hlast₃⟩
  have hroom₃ : GrowthRoom everyPage s₃ 5000 := by
    intro a ha hlast _ _ b hb
    rw [hlive₃, List.mem_singleton] at hb
    have hmem := (hchain.reaches_iff (by decide)).mp ha
    simp only [List.mem_cons, List.not_mem_nil, or_false] at hmem
    rcases hmem with rfl | rfl
    · exact absurd (hnext₃.symm.trans hlast) (by decide)
    · rw [hb, hlen₃]
      exact .inl (by decide)
  have hreach₁ : (heapSystem everyPage).Reachable (RoomToGrow everyPage) s₁ :=
    .step (i := .allocate 100 _) (reachable_emptyState _) ⟨by decide, growthRoom_of_no_live rfl⟩ (runEvent_step hs₁)
  have hreach₃ : (heapSystem everyPage).Reachable (RoomToGrow everyPage) s₃ :=
    .step (i := .free _) (.step (i := .allocate 200 _) hreach₁ ⟨by decide, hroom₁⟩ (runEvent_step hs₂)) trivial
      (runEvent_step hs₃)
  exact ⟨s, hlive, heapSafe_of_roomToGrow everyPage s
    (.step (i := .allocate 5000 _) hreach₃ ⟨by decide, hroom₃⟩ (runEvent_step hs))⟩

/-- Two blocks fill the first page and a third starts the second. The first is
freed, and a block that fits exactly takes the rest of the second page: the
last free segment is now the first block's, with the second block behind it. -/
def overlapEvents : List HeapEvent :=
  [.allocate 2044 (heapStart + 4), .allocate 2044 (heapStart + 2052), .allocate 1020 (heapStart + 4100),
    .free ⟨heapStart + 4, 2044⟩, .allocate 3068 (heapStart + 5124), .allocate 4092 (heapStart + 4)]

/-- The last allocation of `overlapEvents` returns a block that overlaps a live one. -/
theorem heapSafe_fails : ¬ ∀ (S : PageSupply Unit) (s : HeapState Unit),
    (heapSystem S).Reachable SmallSizes s → HeapSafe s := by
  intro hall
  have hrun : (overlapEvents.foldlM (runEvent everyPage 8) emptyState).map HeapState.live =
      some [⟨heapStart + 4, 4092⟩, ⟨heapStart + 5124, 3068⟩, ⟨heapStart + 4100, 1020⟩, ⟨heapStart + 2052, 2044⟩] := by
    decide +kernel
  obtain ⟨s, hs, hlive⟩ := Option.map_eq_some_iff.mp hrun
  have hsmall : ∀ i ∈ overlapEvents, ∀ s s', runEvent everyPage 8 s i = some s' →
      SmallSizes s i ∧ HeapStep everyPage s i s' := by
    intro i hi s s' h
    refine ⟨?_, runEvent_step h⟩
    simp only [overlapEvents, List.mem_cons, List.not_mem_nil, or_false] at hi
    rcases hi with rfl | rfl | rfl | rfl | rfl | rfl <;> simp only [SmallSizes] <;> decide
  have hsafe := (hall everyPage s ((reachable_emptyState _).exec hsmall hs)).live
  rw [hlive] at hsafe
  revert hsafe
  unfold Disjoint
  decide

end OSForReal.Proof.Heap
