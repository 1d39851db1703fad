import OSForReal.Proof.Heap.Safety

/-!
# When `memory_free` returns

`memory_free` looks for the free segments between which a block lies. It finds
them, and returns, when the free list is empty or a free segment lies above the
block (`freeReturns_iff`). For a block above every free segment its second loop
never ends (`freeReturns_fails`).
-/

namespace OSForReal.Proof.Heap

open Framework (Res Chain Reaches System)
open OSForReal.Heap

variable {σ : Type}

/-! ## The search -/

/-- `x` is the greatest free segment below `a`, or 0. -/
def GreatestBelow (h : Heap σ) (a x : Nat) : Prop :=
  (x = 0 ∧ ∀ r, OnFreeList h r → ¬ r < a) ∨ OnFreeList h x ∧ x < a ∧ ∀ r, OnFreeList h r → r < a → r ≤ x

/-- `x` is the least free segment above `a`, or 0. -/
def LeastAbove (h : Heap σ) (a x : Nat) : Prop :=
  (x = 0 ∧ ∀ r, OnFreeList h r → ¬ a < r) ∨ OnFreeList h x ∧ a < x ∧ ∀ r, OnFreeList h r → a < r → x ≤ r

/-- `memory_free` of the block returns, no `ASSERT` of it fails, and where the
free list is not empty its search ends at the block's neighbours. -/
structure FreeReturns (h : Heap σ) (b : Block) : Prop where
  returns : ∃ fuel h', memoryFree fuel h b.ptr = .ok h'
  search : h.freeSegmentsHead ≠ 0 → ∃ fuel s, searchNeighbours fuel h (b.ptr - 4) = .ok s ∧
    GreatestBelow h (b.ptr - 4) s.prevSegment ∧ LeastAbove h (b.ptr - 4) s.nextSegment

variable {h : Heap σ} {A : Arena} {b : Seg}

/-- Where a free segment lies above a live block, the search ends at the block's neighbours. -/
theorem searchNeighbours_returns (hA : A.Ok) (hR : Represents h A) (hb : b ∈ A.live)
    (habove : ∃ r ∈ A.free, b.addr < r.addr) : ∃ pre n post, A.free = pre ++ n :: post ∧
      (∀ r ∈ pre, r.addr < b.addr) ∧ (∀ r ∈ n :: post, b.addr < r.addr) ∧
      ∃ fuel, searchNeighbours fuel h b.addr =
        .ok ⟨(lastTwo (0, 0) pre).1, (lastTwo (0, 0) pre).2, n.addr, headAddr post⟩ := by
  have hbw := hA.live_within hb
  have hne := hA.free_addr_ne hb
  obtain ⟨k, s, hs⟩ : ∃ k s, Res.loop (neighboursStep h b.addr) k ⟨0, 0, 0, h.freeSegmentsHead⟩ = .ok s :=
    neighbours_returns (q := (0, 0)) hR.chain hne hbw.pos
  obtain ⟨pre, post, hf, hpre, hpost, -, e₂, e₃⟩ := neighbours_ok (q := (0, 0)) hR.chain hne hbw.pos hs
  have hlt := lastTwo_lt hbw.pos hpre
  cases post with
  | nil =>
    obtain ⟨r, hr, hgt⟩ := habove
    rw [hf, List.append_nil] at hr
    have hbelow := hpre r hr
    omega
  | cons n post =>
    have hpass := pass_once h (s := s) (by rwa [e₂]) (by rw [e₃]; exact hpost n rfl)
    have hsearch : ∃ fuel s, searchNeighbours fuel h b.addr = .ok s := by
      refine ⟨max k 2, ⟨s.prevSegment, s.nextSegment, s.nextNextSegment, h.next s.nextNextSegment⟩, ?_⟩
      unfold searchNeighbours
      rw [Res.loop_mono (Nat.le_max_left k 2) hs, Res.ok_bind, Res.loop_mono (Nat.le_max_right k 2) hpass]
    obtain ⟨fuel, s', hsearch⟩ := hsearch
    obtain ⟨pre, n, post, hf, hpre, hpost, rfl⟩ := searchNeighbours_ok hA hR hb hsearch
    exact ⟨pre, n, post, hf, hpre, hpost, fuel, hsearch⟩

/-- The call returns where a free segment lies above the block. -/
theorem memoryFree_returns (hA : A.Ok) (hR : Represents h A) (hb : b ∈ A.live)
    (habove : ∃ r ∈ A.free, b.addr < r.addr) : ∃ fuel h', memoryFree fuel h (b.addr + 4) = .ok h' := by
  obtain ⟨pre, n, post, hf, hpre, hpost, fuel, hs⟩ := searchNeighbours_returns hA hR hb habove
  have h0 : h.freeSegmentsHead ≠ 0 := by
    rw [Ne, hR.head_eq_zero hA, hf]
    simp
  have hlt := lastTwo_lt (hA.live_within hb).pos hpre
  have hn := hpost n List.mem_cons_self
  have hlink := linkFreed_eq hA hR hf hb hpre hn rfl
  refine ⟨fuel, _, Eq.trans ?_ hlink⟩
  rw [memoryFree_eq h0 (hA.live_addr_lt hb), hs, Res.ok_bind, Res.assert_bind (.inl ⟨hlt, hn⟩)]

/-! ## States -/

variable {s : HeapState σ}

/-- The neighbours that the search finds are those on the free list. -/
theorem Holds.neighbours {n : Seg} {pre post : List Seg} {a : Nat} (hH : Holds s A) (hf : A.free = pre ++ n :: post)
    (hpre : ∀ r ∈ pre, r.addr < a) (hpost : ∀ r ∈ n :: post, a < r.addr) :
    GreatestBelow s.heap a (lastTwo (0, 0) pre).2 ∧ LeastAbove s.heap a n.addr := by
  have hsorted := hH.ok.sorted
  rw [hf, List.pairwise_append, List.pairwise_cons] at hsorted
  have hon : ∀ r, OnFreeList s.heap r ↔ ∃ q ∈ pre ++ n :: post, q.addr = r := fun r => by
    rw [hH.onFreeList, hf]
  constructor
  · rcases List.eq_nil_or_concat pre with rfl | ⟨pre, p, rfl⟩
    · refine .inl ⟨rfl, fun r hr hlt => ?_⟩
      obtain ⟨q, hq, rfl⟩ := (hon r).mp hr
      have := hpost q hq
      omega
    · rw [List.concat_eq_append] at *
      rw [lastTwo_concat]
      refine .inr ⟨(hon _).mpr ⟨p, by simp, rfl⟩, hpre p (by simp), fun r hr hlt => ?_⟩
      obtain ⟨q, hq, rfl⟩ := (hon r).mp hr
      rcases List.mem_append.mp hq with hq | hq
      · rcases List.mem_append.mp hq with hq | hq
        · exact Nat.le_of_lt ((List.pairwise_append.mp hsorted.1).2.2 q hq p (by simp))
        · rw [List.mem_singleton.mp hq]
      · have := hpost q hq
        omega
  · refine .inr ⟨(hon _).mpr ⟨n, by simp, rfl⟩, hpost n List.mem_cons_self, fun r hr hlt => ?_⟩
    obtain ⟨q, hq, rfl⟩ := (hon r).mp hr
    rcases List.mem_append.mp hq with hq | hq
    · have := hpre q hq
      omega
    · rcases List.mem_cons.mp hq with rfl | hq
      · exact Nat.le_refl _
      · exact Nat.le_of_lt (hsorted.2.1.1 q hq)

/-- Freeing a live block of a state that holds an arena. -/
theorem Holds.freeReturns_iff {b : Block} (hH : Holds s A) (hb : b ∈ s.live) :
    FreeReturns s.heap b ↔ s.heap.freeSegmentsHead = 0 ∨ ∃ a, OnFreeList s.heap a ∧ b.ptr < a := by
  have hbl := hH.mem_live hb
  have hptr := hH.ptr_eq hb
  have habove : (∃ r ∈ A.free, b.seg.addr < r.addr) ↔ ∃ a, OnFreeList s.heap a ∧ b.ptr < a := by
    constructor
    · rintro ⟨r, hr, hlt⟩
      refine ⟨r.addr, hH.onFreeList.mpr ⟨r, hr, rfl⟩, ?_⟩
      have hfin := hH.ok.block_fin_le hr hbl hlt
      have hw := (hH.ok.live_within hbl).words
      omega
    · rintro ⟨a, ha, hlt⟩
      obtain ⟨r, hr, rfl⟩ := hH.onFreeList.mp ha
      exact ⟨r, hr, by omega⟩
  constructor
  · intro hret
    obtain ⟨fuel, h', hr⟩ := hret.returns
    rw [← hptr] at hr
    rcases memoryFree_ok hH.ok hH.heap hbl hr with ⟨hnil, -⟩ | ⟨pre, n, post, hf, -, hpost, -⟩
    · exact .inl ((hH.heap.head_eq_zero hH.ok).mpr hnil)
    · exact .inr (habove.mp ⟨n, by simp [hf], hpost n List.mem_cons_self⟩)
  · rintro (h0 | hex)
    · exact ⟨⟨0, s.heap, if_pos h0⟩, fun hne => absurd h0 hne⟩
    · have hex := habove.mpr hex
      refine ⟨?_, fun _ => ?_⟩
      · rw [← hptr]
        exact memoryFree_returns hH.ok hH.heap hbl hex
      · obtain ⟨pre, n, post, hf, hpre, hpost, fuel, hs⟩ := searchNeighbours_returns hH.ok hH.heap hbl hex
        exact ⟨fuel, _, hs, hH.neighbours hf hpre hpost⟩

/-! ## Runs -/

/-- `memory_allocate` of any size, or `memory_free` of a live block; either returns. -/
inductive HeapCall (S : PageSupply σ) : HeapState σ → HeapEvent → HeapState σ → Prop
  | allocate {s : HeapState σ} {size ptr fuel : Nat} {h' : Heap σ} (hsize : size < 2 ^ 32)
      (h : memoryAllocate S fuel s.heap size = .ok (ptr, h')) :
      HeapCall S s (.allocate size ptr) ⟨h', if ptr = 0 then s.live else ⟨ptr, size⟩ :: s.live⟩
  | free {s : HeapState σ} {b : Block} {fuel : Nat} {h' : Heap σ} (hb : b ∈ s.live)
      (h : memoryFree fuel s.heap b.ptr = .ok h') : HeapCall S s (.free b) ⟨h', s.live.erase b⟩

/-- The heap from `memory_init` on, under any calls. -/
def heapCalls (S : PageSupply σ) : System (HeapState σ) HeapEvent where
  init s := ∃ mem supply, s = ⟨memoryInit mem supply, []⟩
  step := HeapCall S

/-- An allocation of some bytes that neither wraps nor grows a segment into a live block. -/
def SafeAllocation (S : PageSupply σ) (s : HeapState σ) (size : Nat) : Prop :=
  1 ≤ size ∧ size + 15 < 2 ^ 32 ∧ GrowthRoom S s size

/-- Safe allocations, and any frees. -/
def SafeAllocations (S : PageSupply σ) (s : HeapState σ) : HeapEvent → Prop
  | .allocate size _ => SafeAllocation S s size
  | .free _ => True

theorem holds_safe {S : PageSupply σ} {s' : HeapState σ} {i : HeapEvent} (h : Holds s A)
    (hok : SafeAllocations S s i) (hs : HeapCall S s i s') : ∃ A', Holds s' A' := by
  cases hs with
  | allocate hsize hr =>
    obtain ⟨h0, hwrap, hroom⟩ := hok
    obtain ⟨A', -, hA'⟩ := h.allocate h0 (by unfold pad; omega) (h.growthClear (by omega) hroom) hr
    exact ⟨A', hA'⟩
  | free hb hr => exact holds_step (S := S) (i := .free _) h trivial (.free hb hr)

/-- After a run of safe allocations, `memory_free` of a live block returns
when the free list is empty or a free segment lies above the block. -/
theorem memoryFree_returns_iff (S : PageSupply σ) (s : HeapState σ)
    (h : (heapCalls S).Reachable (SafeAllocations S) s) (b : Block) (hb : b ∈ s.live) :
    FreeReturns s.heap b ↔ s.heap.freeSegmentsHead = 0 ∨ ∃ a, OnFreeList s.heap a ∧ b.ptr < a := by
  have hinv : ∃ A, Holds s A := h.invariant (I := fun s => ∃ A, Holds s A)
    (by rintro _ ⟨mem, supply, rfl⟩; exact ⟨_, holds_init mem supply⟩)
    fun s i s' ⟨A, hA⟩ hok hs => holds_safe hA hok hs
  obtain ⟨A, hA⟩ := hinv
  exact hA.freeReturns_iff hb

theorem HeapStep.call {S : PageSupply σ} {s' : HeapState σ} {i : HeapEvent} (h : HeapStep S s i s') :
    HeapCall S s i s' := by
  cases h with
  | allocate _ hsize hr => exact .allocate hsize hr
  | free hb hr => exact .free hb hr

/-- The rest of the first page lies above its first block. -/
theorem memoryFree_returns_iff_first : ∃ s : HeapState Unit, s.live = [⟨heapStart + 4, 100⟩] ∧
    FreeReturns s.heap ⟨heapStart + 4, 100⟩ := by
  have hrun : (runEvent everyPage 8 emptyState (.allocate 100 (heapStart + 4))).map
      (fun s => (s.live, s.heap.freeSegmentsHead)) = some ([⟨heapStart + 4, 100⟩], heapStart + 104) := by decide +kernel
  obtain ⟨s, hs, hstate⟩ := Option.map_eq_some_iff.mp hrun
  obtain ⟨hlive, hhead⟩ := Prod.mk.inj hstate
  have hroom : GrowthRoom everyPage emptyState 100 := growthRoom_of_no_live rfl
  have hreach : (heapCalls everyPage).Reachable (SafeAllocations everyPage) s :=
    .step (s := emptyState) (i := .allocate 100 (heapStart + 4)) (.init ⟨_, _, rfl⟩) ⟨by decide, by decide, hroom⟩
      (runEvent_step hs).call
  refine ⟨s, hlive, (memoryFree_returns_iff everyPage s hreach _ (by rw [hlive]; exact List.mem_cons_self)).mpr ?_⟩
  refine .inr ⟨heapStart + 104, ?_, by decide⟩
  have hstart : OnFreeList s.heap s.heap.freeSegmentsHead := Reaches.start (by rw [hhead]; decide)
  rwa [hhead] at hstart

/-- After all but the last of `overlapEvents` the only free segment is that of
the first block, and freeing the block at the end of the heap runs on. -/
theorem freeReturns_fails : ¬ ∀ (S : PageSupply Unit) (s : HeapState Unit),
    (heapCalls S).Reachable (fun _ _ => True) s → ∀ b ∈ s.live, FreeReturns s.heap b := by
  intro hall
  have hrun : ((overlapEvents.take 5).foldlM (runEvent everyPage 8) emptyState).map (fun s =>
      (s.live, s.heap.freeSegmentsHead, (Res.loop (neighboursStep s.heap (heapStart + 5120)) 8
        ⟨0, 0, 0, s.heap.freeSegmentsHead⟩ : Res Neighbours))) =
      some ([⟨heapStart + 5124, 3068⟩, ⟨heapStart + 4100, 1020⟩, ⟨heapStart + 2052, 2044⟩], heapStart,
        .ok ⟨0, 0, heapStart, 0⟩) := by decide +kernel
  obtain ⟨s, hs, hstate⟩ := Option.map_eq_some_iff.mp hrun
  obtain ⟨hlive, hstate⟩ := Prod.mk.inj hstate
  obtain ⟨hhead, hloop⟩ := Prod.mk.inj hstate
  have hreach : (heapCalls everyPage).Reachable (fun _ _ => True) s :=
    System.Reachable.exec (.init ⟨_, _, rfl⟩) (fun i _ s s' h => ⟨trivial, (runEvent_step h).call⟩) hs
  have hret := hall everyPage s hreach ⟨heapStart + 5124, 3068⟩ (by rw [hlive]; exact List.mem_cons_self)
  obtain ⟨fuel, n, hn, -⟩ := hret.search (by rw [hhead]; decide)
  have hseg : (⟨heapStart + 5124, 3068⟩ : Block).ptr - 4 = heapStart + 5120 := by decide
  rw [hseg] at hn
  obtain ⟨m, hm, hn⟩ := Res.bind_eq_ok.mp hn
  -- The first loop ends at the last free segment, below the block.
  have hsame : m = ⟨0, 0, heapStart, 0⟩ := Res.loop_unique hm hloop
  have hdiv := pass_diverges (h := s.heap) (show 0 < heapStart + 5120 by decide) fuel (s := m) (by
    rw [hsame]
    decide)
  rw [hdiv] at hn
  cases hn

end OSForReal.Proof.Heap
