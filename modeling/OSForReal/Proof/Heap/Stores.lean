import OSForReal.Proof.Heap.FreeList
import OSForReal.Std.Stores

/-!
# Where `memory_free` stores

`memoryFreeTraced` is `memory_free` (`memoryFreeTraced_val`), and every store of
it is to the first two words of the freed block or of a free segment, but for
one: the block is linked behind the segment before it, and where it has become
the head of the list there is none, and the store goes to address 0. So
`memory_free` stays within the heap's own words exactly when a free segment
below the block is left that the block does not become part of
(`memoryFree_inFrame`).
-/

namespace OSForReal.Proof.Heap

open Framework (Res Chain System Traced)
open OSForReal.Heap

variable {σ : Type} {h : Heap σ} {A : Arena} {s : HeapState σ} {b : Block} {q : Neighbours} {P : Nat → Prop}
  {segment fuel : Nat}

/-! ## The stores are those of `memory_free` -/

theorem joinNextTraced_val (h : Heap σ) (segment : Nat) (q : Neighbours) : (joinNextTraced h segment q).val =
    if (segment + h.length segment) % 2 ^ 32 = q.nextSegment then
      (h.setLength segment ((h.length segment + h.length q.nextSegment) % 2 ^ 32), q.nextNextSegment)
    else (h, q.nextSegment) := by
  unfold joinNextTraced
  split <;> rfl

theorem joinPrevTraced_val (h : Heap σ) (segment : Nat) (q : Neighbours) : (joinPrevTraced h segment q).val =
    if q.prevSegment ≠ 0 ∧ (q.prevSegment + h.length q.prevSegment) % 2 ^ 32 = segment then
      (h.setLength q.prevSegment ((h.length q.prevSegment + h.length segment) % 2 ^ 32), q.prevPrevSegment,
        q.prevSegment)
    else (h, q.prevSegment, segment) := by
  unfold joinPrevTraced
  split <;> rfl

theorem linkFreedTraced_val (h : Heap σ) (segment : Nat) (q : Neighbours) :
    (linkFreedTraced h segment q).val = linkFreed h segment q := by
  unfold linkFreedTraced linkFreed
  rw [Traced.val_bind, Traced.val_after]
  apply bind_congr
  intro _
  rw [Traced.val_bind, joinNextTraced_val, Traced.val_bind, joinPrevTraced_val]
  rfl

/-- A search that ends with an assertion, and what comes after it. -/
theorem val_after_search {α β γ ε : Type} (x : Res α) (f : α → Res β) (c : β → Prop) [∀ b, Decidable (c b)]
    (g : β → Traced ε (Res γ)) :
    (Traced.after (x >>= fun a => f a >>= fun b => Res.assert (c b) >>= fun _ => .ok b) g).val =
      x >>= fun a => f a >>= fun b => Res.assert (c b) >>= fun _ => (g b).val := by
  rw [Traced.val_after]
  simp only [bind_assoc, Res.ok_bind]

/-- `memory_free` with its stores is `memory_free`. -/
theorem memoryFreeTraced_val (fuel : Nat) (h : Heap σ) (address : Nat) :
    (memoryFreeTraced fuel h address).val = memoryFree fuel h address := by
  unfold memoryFreeTraced memoryFree
  split
  · rfl
  · simp only [val_after_search, linkFreedTraced_val]

/-! ## Its stores -/

theorem joinNextTraced_all : (joinNextTraced h segment q).All P ↔
    ((segment + h.length segment) % 2 ^ 32 = q.nextSegment → P (segment + 4)) := by
  rw [joinNextTraced, Traced.all_ite, and_iff_left fun _ => Traced.all_pure, Traced.all_bind, storeTraced, Traced.all_record,
    and_iff_left Traced.all_pure]

theorem joinPrevTraced_all : (joinPrevTraced h segment q).All P ↔
    (q.prevSegment ≠ 0 ∧ (q.prevSegment + h.length q.prevSegment) % 2 ^ 32 = segment → P (q.prevSegment + 4)) := by
  rw [joinPrevTraced, Traced.all_ite, and_iff_left fun _ => Traced.all_pure, Traced.all_bind, storeTraced, Traced.all_record,
    and_iff_left Traced.all_pure]

theorem linkTraced_all {prevSegment nextSegment : Nat} :
    (linkTraced h prevSegment segment nextSegment).All P ↔ P prevSegment ∧ P segment := by
  unfold linkTraced
  simp only [Traced.all_bind, storeTraced, Traced.all_record]

theorem linkFreedTraced_all (ha : (segment + (h.setLength segment (h.mem segment)).length segment) % 2 ^ 32 =
    q.nextSegment → q.nextSegment ≠ 0) {r : Traced Nat (Heap σ × Nat × Nat)}
    (hr : r = joinPrevTraced (joinNextTraced (h.setLength segment (h.mem segment)) segment q).val.1 segment q) :
    (linkFreedTraced h segment q).All P ↔ P (segment + 4) ∧ r.All P ∧ P r.val.2.1 ∧ P r.val.2.2 := by
  have hlast : (linkTraced r.val.1 r.val.2.1 r.val.2.2
      (joinNextTraced (h.setLength segment (h.mem segment)) segment q).val.2).All P ↔ P r.val.2.1 ∧ P r.val.2.2 :=
    linkTraced_all
  subst hr
  unfold linkFreedTraced
  rw [Traced.all_bind, Traced.all_after]
  constructor
  · intro ⟨hsecond, hrest⟩
    have hrest := hrest () (if_pos ha)
    simp only [Traced.all_bind] at hrest
    obtain ⟨-, hprev, hlink, -⟩ := hrest
    exact ⟨Traced.all_record.mp hsecond, hprev, hlast.mp hlink⟩
  · intro ⟨hsecond, hprev, hlink⟩
    refine ⟨Traced.all_record.mpr hsecond, fun _ _ => ?_⟩
    simp only [Traced.all_bind]
    exact ⟨joinNextTraced_all.mpr fun _ => hsecond, hprev, hlast.mpr hlink, Traced.all_pure⟩

/-- Joining to the segment behind stores to the second word of `segment` only. -/
theorem joinNextTraced_mem {a v : Nat} (ha : a ≠ segment + 4) :
    (joinNextTraced (h.setLength segment v) segment q).val.1.mem a = h.mem a := by
  rw [joinNextTraced_val]
  split
  · show Function.update (Function.update h.mem (segment + 4) v) (segment + 4) _ a = h.mem a
    rw [Function.update_of_ne ha, Function.update_of_ne ha]
  · exact Function.update_of_ne ha _ _

/-- The stores for a live block between the free segments `pre` and `n :: post`. -/
theorem linkFreed_stores {pre post : List Seg} {n x : Seg} (hA : A.Ok) (hR : Represents h A)
    (hf : A.free = pre ++ n :: post) (hx : x ∈ A.live) (hpre : ∀ r ∈ pre, r.addr < x.addr) :
    (linkFreedTraced h x.addr ⟨(lastTwo (0, 0) pre).1, (lastTwo (0, 0) pre).2, n.addr, headAddr post⟩).All P ↔
      P (x.addr + 4) ∧ ((joinPrev pre x).2.addr ≠ x.addr → P ((joinPrev pre x).2.addr + 4)) ∧
        P (lastTwo (0, 0) (joinPrev pre x).1).2 ∧ P (joinPrev pre x).2.addr := by
  have hn : n ∈ A.free := by simp [hf]
  rw [linkFreedTraced_all (fun _ => (hA.free_within hn).pos.ne') rfl, joinPrevTraced_val, joinPrevTraced_all]
  rcases List.eq_nil_or_concat pre with rfl | ⟨pre, p, rfl⟩
  · simp
  · rw [List.concat_eq_append] at *
    have hp : p ∈ A.free := by simp [hf]
    have hpw := hA.free_within hp
    have hlt : p.addr < x.addr := hpre p (by simp)
    have hfin := hA.fin_le_block hp hx hlt
    have hx32 := hA.live_addr_lt hx
    have hpad := le_pad p.len
    unfold Seg.fin at hfin
    have hlen (v : Nat) (q : Neighbours) : (joinNextTraced (h.setLength x.addr v) x.addr q).val.1.length p.addr = p.len := by
      rw [← hR.lens p hp]
      exact joinNextTraced_mem (by omega)
    rw [lastTwo_concat, joinPrev_concat]
    simp only [hlen]
    rw [Nat.mod_eq_of_lt (by omega)]
    by_cases ht : p.addr + p.len = x.addr
    · have hcond : p.addr ≠ 0 ∧ p.addr + p.len = x.addr := ⟨hpw.pos.ne', ht⟩
      rw [if_pos hcond, if_pos ht]
      simp only
      rw [forall_prop_of_true hcond, forall_prop_of_true hlt.ne]
    · have hcond : ¬ (p.addr ≠ 0 ∧ p.addr + p.len = x.addr) := fun hc => ht hc.2
      rw [if_neg hcond, if_neg ht]
      simp only
      rw [forall_prop_of_false hcond, lastTwo_concat]
      simp

/-- The stores of `memory_free`, on a list that is not empty, are those for the segments it found. -/
theorem memoryFreeTraced_all {a : Nat} (h0 : h.freeSegmentsHead ≠ 0) (ha : a < 2 ^ 32) :
    (memoryFreeTraced fuel h (a + 4)).All P ↔ ∀ q, searchNeighbours fuel h a = .ok q →
      ((q.prevSegment < a ∧ q.nextSegment > a) ∨ (q.prevSegment < a ∧ q.nextSegment = 0) ∨
        (q.prevSegment = 0 ∧ q.nextSegment > a)) → (linkFreedTraced h a q).All P := by
  have hseg : (a + 4 + 2 ^ 32 - sizeofSizeT) % 2 ^ 32 = a := by
    rw [sizeofSizeT, show a + 4 + 2 ^ 32 - 4 = a + 2 ^ 32 by omega, Nat.add_mod_right, Nat.mod_eq_of_lt ha]
  unfold memoryFreeTraced
  rw [if_neg h0, hseg, Traced.all_after]
  constructor
  · intro hall q hq hc
    apply hall q
    obtain ⟨q', hq', hpass⟩ := Res.bind_eq_ok.mp hq
    rw [hq', Res.ok_bind, hpass, Res.ok_bind, Res.assert_bind hc]
  · intro hall q hq
    obtain ⟨q', hq', hpass⟩ := Res.bind_eq_ok.mp hq
    obtain ⟨q'', hq'', hc⟩ := Res.bind_eq_ok.mp hpass
    obtain ⟨_, hassert, e⟩ := Res.bind_eq_ok.mp hc
    rw [← Res.ok.inj e]
    refine hall q'' ?_ (Res.assert_eq_ok.mp hassert)
    unfold searchNeighbours
    rw [hq', Res.ok_bind, hq'']

/-! ## What they are allowed to be -/

/-- The word at `x` is the header or the first word of the block, or a field of a
free segment; it is in the heap, and part of no other block. -/
structure InFrame (s : HeapState σ) (b : Block) (x : Nat) : Prop where
  owner : x = b.ptr - 4 ∨ x = b.ptr ∨ ∃ r, OnFreeList s.heap r ∧ (x = r ∨ x = r + 4)
  others : ∀ c ∈ s.live.erase b, Disjoint x (x + 4) (c.ptr - 4) (c.ptr + c.size)
  inside : heapStart ≤ x ∧ x + 4 ≤ heapEnd s.heap

/-- `memory_free` of the block stores to such words only, however far it gets. -/
def StoresInFrame (s : HeapState σ) (b : Block) : Prop := ∀ fuel, (memoryFreeTraced fuel s.heap b.ptr).All (InFrame s b)

/-- A free segment lies below the block and does not touch it. -/
def LeavesBefore (h : Heap σ) (b : Block) : Prop := ∃ r, OnFreeList h r ∧ r < b.ptr ∧ r + h.length r ≠ b.ptr - 4

/-- The first two words of the block and of the free segments are in the frame. -/
theorem Holds.inFrame {x : Nat} {r : Seg} (hH : Holds s A) (hb : b ∈ s.live) (hr : r = b.seg ∨ r ∈ A.free)
    (hx : x = r.addr ∨ x = r.addr + 4) : InFrame s b x := by
  have hbl := hH.mem_live hb
  have hptr := hH.ptr_eq hb
  have hw : r.Within A.top := by
    rcases hr with rfl | hr
    · exact hH.ok.live_within hbl
    · exact hH.ok.free_within hr
  have hwords := hw.words
  refine ⟨?_, fun c hc => ?_, ?_⟩
  · rcases hr with rfl | hr
    · rcases hx with rfl | rfl
      · exact .inl rfl
      · exact .inr (.inl hptr)
    · exact .inr (.inr ⟨r.addr, hH.onFreeList.mpr ⟨r, hr, rfl⟩, hx⟩)
  · have hapart : r.Apart c.seg := by
      rcases hr with rfl | hr
      · have hperm : (b.seg :: (s.live.erase b).map Block.seg).Perm A.live :=
          ((List.perm_cons_erase hb).map Block.seg).symm.trans hH.live
        have hlive := (hperm.pairwise_iff fun h => h.symm).mpr (List.pairwise_append.mp hH.ok.apart).2.1
        exact (List.pairwise_cons.mp hlive).1 _ (List.mem_map_of_mem hc)
      · exact hH.ok.free_live_apart hr (hH.mem_live (List.mem_of_mem_erase hc))
    have hcptr := hH.ptr_eq (List.mem_of_mem_erase hc)
    have hpad := le_pad c.seg.len
    unfold Seg.Apart at hapart
    simp only [Seg.fin, Block.seg_addr, Block.seg_len] at hapart hwords hcptr hpad
    unfold Disjoint
    omega
  · rw [hH.heapEnd_eq]
    have hlo := hw.lo
    have hhi := hw.hi
    omega

/-- What is left before the block is a segment that it does not become part of. -/
theorem joinPrev_ne_nil {pre : List Seg} {x : Seg} (hw : ∀ r ∈ pre, r.addr < r.fin)
    (hord : pre.Pairwise fun r t => r.fin ≤ t.addr) (hfin : ∀ r ∈ pre, r.fin ≤ x.addr) :
    (joinPrev pre x).1 ≠ [] ↔ ∃ r ∈ pre, r.addr + r.len ≠ x.addr := by
  rcases List.eq_nil_or_concat pre with rfl | ⟨pre, p, rfl⟩
  · simp
  · rw [List.concat_eq_append] at *
    rw [joinPrev_concat]
    have hp := (List.pairwise_append.mp hord).2.2
    split
    · rename_i ht
      constructor
      · intro hne
        obtain ⟨r, hr⟩ := List.exists_mem_of_ne_nil pre hne
        have hrp := hp r hr p (by simp)
        have hpx := hw p (by simp)
        have hpfin := hfin p (by simp)
        have hpad := le_pad r.len
        unfold Seg.fin at hrp hpx hpfin
        exact ⟨r, by simp [hr], by omega⟩
      · rintro ⟨r, hr, hne⟩ rfl
        obtain rfl : r = p := by simpa using hr
        exact hne ht
    · rename_i ht
      exact ⟨fun _ => ⟨p, by simp, ht⟩, fun _ => by simp⟩

/-- A segment that is left before a live block is one of those below it. -/
theorem Holds.leavesBefore_iff {pre post : List Seg} {n : Seg} (hH : Holds s A) (hb : b ∈ s.live)
    (hf : A.free = pre ++ n :: post) (hpre : ∀ r ∈ pre, r.addr < b.seg.addr) (hpost : ∀ r ∈ n :: post, b.seg.addr < r.addr) :
    LeavesBefore s.heap b ↔ ∃ r ∈ pre, r.addr + r.len ≠ b.seg.addr := by
  have hbl := hH.mem_live hb
  have hptr := hH.ptr_eq hb
  constructor
  · rintro ⟨a, ha, hlt, hgap⟩
    obtain ⟨r, hr, rfl⟩ := hH.onFreeList.mp ha
    rw [hH.heap.lens r hr] at hgap
    rw [hf] at hr
    rcases List.mem_append.mp hr with hr | hr
    · exact ⟨r, hr, hgap⟩
    · have hfin := hH.ok.block_fin_le (by simp [hf, hr]) hbl (hpost r hr)
      have hw := (hH.ok.live_within hbl).words
      omega
  · intro ⟨r, hr, hgap⟩
    have hrf : r ∈ A.free := by simp [hf, hr]
    have hlt := hpre r hr
    refine ⟨r.addr, hH.onFreeList.mpr ⟨r, hrf, rfl⟩, by omega, ?_⟩
    rw [hH.heap.lens r hrf]
    exact hgap

/-- In a state that holds an arena, the stores for a live block are in the frame if and only if
a segment is left before it. -/
theorem Holds.linkFreed_inFrame {pre post : List Seg} {n : Seg} (hH : Holds s A) (hb : b ∈ s.live)
    (hf : A.free = pre ++ n :: post) (hpre : ∀ r ∈ pre, r.addr < b.seg.addr)
    (hpost : ∀ r ∈ n :: post, b.seg.addr < r.addr) :
    (linkFreedTraced s.heap b.seg.addr
      ⟨(lastTwo (0, 0) pre).1, (lastTwo (0, 0) pre).2, n.addr, headAddr post⟩).All (InFrame s b) ↔
      LeavesBefore s.heap b := by
  have hbl := hH.mem_live hb
  have hptr := hH.ptr_eq hb
  have hfree : ∀ r ∈ pre, r ∈ A.free := fun r hr => by simp [hf, hr]
  have hord := hH.ok.ordered
  rw [hf, List.pairwise_append] at hord
  have hfin : ∀ r ∈ pre, r.fin ≤ b.seg.addr := fun r hr => hH.ok.fin_le_block (hfree r hr) hbl (hpre r hr)
  have hne := joinPrev_ne_nil (x := b.seg) (fun r hr => by
    have hw := (hH.ok.free_within (hfree r hr)).words
    omega) hord.1 hfin
  rw [linkFreed_stores hH.ok hH.heap hf hbl hpre, hH.leavesBefore_iff hb hf hpre hpost, ← hne]
  have hcases := joinPrev_cases pre b.seg
  have hmem : ∀ r ∈ (joinPrev pre b.seg).1, r ∈ A.free := by
    intro r hr
    apply hfree
    rcases hcases with ⟨e, -⟩ | ⟨p, e, -⟩
    · rwa [e]
    · rw [e]
      exact List.mem_append_left _ hr
  have hseg : (joinPrev pre b.seg).2.addr = b.seg.addr ∨ ∃ r ∈ pre, (joinPrev pre b.seg).2.addr = r.addr := by
    rcases hcases with ⟨-, e⟩ | ⟨p, e, e'⟩
    · exact .inl e
    · exact .inr ⟨p, by rw [e]; simp, e'⟩
  constructor
  · intro ⟨_, _, hprev, _⟩ hnil
    rw [hnil] at hprev
    exact absurd hprev.inside.1 (by decide)
  · intro hne
    obtain ⟨p, hp, e⟩ := lastTwo_mem hne
    refine ⟨hH.inFrame hb (.inl rfl) (.inr rfl), ?_, ?_, ?_⟩
    · intro hjoined
      rcases hseg with hsame | ⟨r, hr, e⟩
      · exact absurd hsame hjoined
      · rw [e]
        exact hH.inFrame hb (.inr (hfree r hr)) (.inr rfl)
    · rw [e]
      exact hH.inFrame hb (.inr (hmem p hp)) (.inl rfl)
    · rcases hseg with hsame | ⟨r, hr, e⟩
      · exact hH.inFrame hb (.inl rfl) (.inl hsame)
      · exact hH.inFrame hb (.inr (hfree r hr)) (.inl e)

/-- Freeing a live block of a state that holds an arena. -/
theorem Holds.storesInFrame_iff (hH : Holds s A) (hb : b ∈ s.live) : StoresInFrame s b ↔
    s.heap.freeSegmentsHead = 0 ∨ (∀ a, OnFreeList s.heap a → a < b.ptr) ∨ LeavesBefore s.heap b := by
  have hbl := hH.mem_live hb
  have hptr := hH.ptr_eq hb
  have hb32 := hH.ok.live_addr_lt hbl
  unfold StoresInFrame
  rw [← hptr]
  by_cases h0 : s.heap.freeSegmentsHead = 0
  · refine ⟨fun _ => .inl h0, fun _ fuel => ?_⟩
    unfold memoryFreeTraced
    rw [if_pos h0]
    exact Traced.all_pure
  · constructor
    · intro hall
      by_cases habove : ∀ a, OnFreeList s.heap a → a < b.seg.addr + 4
      · exact .inr (.inl habove)
      · refine .inr (.inr ?_)
        obtain ⟨a, ha, hge⟩ : ∃ a, OnFreeList s.heap a ∧ ¬ a < b.seg.addr + 4 := by simpa using habove
        obtain ⟨r, hr, rfl⟩ := hH.onFreeList.mp ha
        obtain ⟨pre, n, post, hf, hpre, hpost, fuel, hs⟩ :=
          searchNeighbours_returns hH.ok hH.heap hbl ⟨r, hr, by omega⟩
        have hlt := lastTwo_lt (hH.ok.live_within hbl).pos hpre
        have hfuel := (memoryFreeTraced_all h0 hb32).mp (hall fuel) _ hs (.inl ⟨hlt, hpost n List.mem_cons_self⟩)
        exact (hH.linkFreed_inFrame hb hf hpre hpost).mp hfuel
    · intro hcond fuel
      refine (memoryFreeTraced_all h0 hb32).mpr fun q hq _ => ?_
      obtain ⟨pre, n, post, hf, hpre, hpost, rfl⟩ := searchNeighbours_ok hH.ok hH.heap hbl hq
      apply (hH.linkFreed_inFrame hb hf hpre hpost).mpr
      rcases hcond with hnil | hbelow | hleaves
      · exact absurd hnil h0
      · have hn : n ∈ A.free := by simp [hf]
        have hlt := hbelow n.addr (hH.onFreeList.mpr ⟨n, hn, rfl⟩)
        have hfin := hH.ok.block_fin_le hn hbl (hpost n List.mem_cons_self)
        have hw := (hH.ok.live_within hbl).words
        omega
      · exact hleaves

/-! ## Runs -/

/-- After a run of safe allocations, `memory_free` of a live block stores within its
frame if and only if it finds no list, or never ends, or leaves a segment before the block. -/
theorem memoryFree_inFrame (S : PageSupply σ) (s : HeapState σ) (h : (heapCalls S).Reachable (SafeAllocations S) s)
    (b : Block) (hb : b ∈ s.live) : StoresInFrame s b ↔
      s.heap.freeSegmentsHead = 0 ∨ (∀ a, OnFreeList s.heap a → a < b.ptr) ∨ LeavesBefore s.heap b := by
  have hinv : ∃ A, Holds s A := h.invariant (I := fun s => ∃ A, Holds s A)
    (by rintro _ ⟨mem, supply, rfl⟩; exact ⟨_, holds_init mem supply⟩)
    fun s i s' ⟨A, hA⟩ hok hs => holds_safe hA hok hs
  obtain ⟨A, hA⟩ := hinv
  exact hA.storesInFrame_iff hb

/-- Of three blocks the first is freed; the last is then linked behind it. -/
theorem memoryFree_inFrame_first : ∃ s : HeapState Unit,
    s.live = [⟨heapStart + 212, 100⟩, ⟨heapStart + 108, 100⟩] ∧ StoresInFrame s ⟨heapStart + 212, 100⟩ := by
  have hrun : ((runEvent everyPage 8 emptyState (.allocate 100 (heapStart + 4))).bind fun s₁ =>
      (runEvent everyPage 8 s₁ (.allocate 100 (heapStart + 108))).bind fun s₂ =>
        (runEvent everyPage 8 s₂ (.allocate 100 (heapStart + 212))).bind fun s₃ =>
          (runEvent everyPage 8 s₃ (.free ⟨heapStart + 4, 100⟩)).map fun s₄ =>
            ((s₁.heap.freeSegmentsHead, s₁.heap.length s₁.heap.freeSegmentsHead),
              (s₂.heap.freeSegmentsHead, s₂.heap.length s₂.heap.freeSegmentsHead),
              s₄.live, s₄.heap.freeSegmentsHead, s₄.heap.length heapStart)) =
      some ((heapStart + 104, 3992), (heapStart + 208, 3888), [⟨heapStart + 212, 100⟩, ⟨heapStart + 108, 100⟩],
        heapStart, 104) := by decide +kernel
  obtain ⟨s₁, hs₁, hrun⟩ := Option.bind_eq_some_iff.mp hrun
  obtain ⟨s₂, hs₂, hrun⟩ := Option.bind_eq_some_iff.mp hrun
  obtain ⟨s₃, hs₃, hrun⟩ := Option.bind_eq_some_iff.mp hrun
  obtain ⟨s₄, hs₄, hrun⟩ := Option.map_eq_some_iff.mp hrun
  simp only [Prod.mk.injEq] at hrun
  obtain ⟨⟨hhead₁, hlen₁⟩, ⟨hhead₂, hlen₂⟩, hlive, hhead, hlen⟩ := hrun
  have hreach₁ : (heapCalls everyPage).Reachable (SafeAllocations everyPage) s₁ :=
    .step (s := emptyState) (i := .allocate 100 (heapStart + 4)) (.init ⟨_, _, rfl⟩)
      ⟨by decide, by decide, growthRoom_of_no_live rfl⟩ (runEvent_step hs₁).call
  have hreach₂ : (heapCalls everyPage).Reachable (SafeAllocations everyPage) s₂ := by
    have hroom : GrowthRoom everyPage s₁ 100 := growthRoom_of_head (by rw [hhead₁]; decide) (by rw [hlen₁]; decide)
    exact .step (i := .allocate 100 (heapStart + 108)) hreach₁ ⟨by decide, by decide, hroom⟩ (runEvent_step hs₂).call
  have hreach₃ : (heapCalls everyPage).Reachable (SafeAllocations everyPage) s₃ := by
    have hroom : GrowthRoom everyPage s₂ 100 := growthRoom_of_head (by rw [hhead₂]; decide) (by rw [hlen₂]; decide)
    exact .step (i := .allocate 100 (heapStart + 212)) hreach₂ ⟨by decide, by decide, hroom⟩ (runEvent_step hs₃).call
  have hreach₄ : (heapCalls everyPage).Reachable (SafeAllocations everyPage) s₄ :=
    .step (i := .free ⟨heapStart + 4, 100⟩) hreach₃ trivial (runEvent_step hs₄).call
  refine ⟨s₄, hlive, (memoryFree_inFrame everyPage s₄ hreach₄ _ (by rw [hlive]; exact List.mem_cons_self)).mpr ?_⟩
  have hstart : OnFreeList s₄.heap s₄.heap.freeSegmentsHead := Framework.Reaches.start (by rw [hhead]; decide)
  rw [hhead] at hstart
  refine .inr (.inr ⟨heapStart, hstart, by decide, ?_⟩)
  rw [hlen]
  decide

/-- No free segment lies below the head of the list. -/
theorem Holds.head_le (hH : Holds s A) {a : Nat} (ha : OnFreeList s.heap a) : s.heap.freeSegmentsHead ≤ a := by
  obtain ⟨r, hr, rfl⟩ := hH.onFreeList.mp ha
  have hhead := hH.heap.chain.head_eq
  have hsorted := hH.ok.sorted
  cases hf : A.free with
  | nil =>
    rw [hf] at hr
    cases hr
  | cons x l =>
    rw [hf] at hr hhead hsorted
    rw [hhead]
    rcases List.mem_cons.mp hr with rfl | hr
    · exact Nat.le_refl _
    · exact Nat.le_of_lt ((List.pairwise_cons.mp hsorted).1 r hr)

/-- The first block of the heap has the rest of its page behind it and nothing
before it: freeing it stores to address 0. -/
theorem storesInFrame_fails : ¬ ∀ (S : PageSupply Unit) (s : HeapState Unit),
    (heapCalls S).Reachable (fun _ _ => True) s → ∀ b ∈ s.live, StoresInFrame s b := by
  intro hall
  have hrun : (runEvent everyPage 8 emptyState (.allocate 100 (heapStart + 4))).map
      (fun s => (s.live, s.heap.freeSegmentsHead)) = some ([⟨heapStart + 4, 100⟩], heapStart + 104) := by decide +kernel
  obtain ⟨s, hs, hstate⟩ := Option.map_eq_some_iff.mp hrun
  obtain ⟨hlive, hhead⟩ := Prod.mk.inj hstate
  have hcall : HeapCall everyPage emptyState (.allocate 100 (heapStart + 4)) s := (runEvent_step hs).call
  have hb : ⟨heapStart + 4, 100⟩ ∈ s.live := by
    rw [hlive]
    exact List.mem_cons_self
  have hframe := hall everyPage s (.step (.init ⟨_, _, rfl⟩) trivial hcall) _ hb
  have hsafe : SafeAllocations everyPage emptyState (.allocate 100 (heapStart + 4)) :=
    ⟨by decide, by decide, growthRoom_of_no_live rfl⟩
  obtain ⟨A, hA⟩ := holds_safe (holds_init (fun _ => 0) ()) hsafe hcall
  rcases (hA.storesInFrame_iff hb).mp hframe with h0 | hbelow | ⟨a, ha, hlt, -⟩
  · rw [hhead] at h0
    exact absurd h0 (by decide)
  · have hlt := hbelow _ (Framework.Reaches.start (show s.heap.freeSegmentsHead ≠ 0 by rw [hhead]; decide))
    rw [hhead] at hlt
    exact absurd hlt (by decide)
  · have hle := hA.head_le ha
    rw [hhead] at hle
    exact absurd (Nat.lt_of_le_of_lt hle hlt) (by decide)

end OSForReal.Proof.Heap
