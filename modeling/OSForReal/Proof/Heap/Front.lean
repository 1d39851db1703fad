import OSForReal.Proof.Heap.Backing
import OSForReal.Proof.Heap.FreeReturns

/-!
# The front of the free list

What `memory_allocate` and `memory_free` do where only the front of the free
list is known: the segments `pre`, in order, and that the list goes on at `x`
(`Front`). Neither call looks behind the first segment that is long enough, or
behind the first one above the block that is freed, so that the rest of the list
may be anything. `allocate_fit` and `allocate_grown` say when a block is taken
off `x`, `carve_front` what that leaves, and `free_front` what a block that lies
between `pre` and `x` becomes when it is freed.
-/

namespace OSForReal.Proof.Heap

open Framework (Res Chain)
open OSForReal.Heap

variable {σ : Type} {S : PageSupply σ} {h h' : Heap σ} {pre : List Seg} {a b m n p size t x : Nat}

/-- The free list begins with the segments `pre`, which ascend below `top` and do
not overlap, and goes on at `x`. -/
structure Front (h : Heap σ) (pre : List Seg) (x top : Nat) : Prop where
  chain : Chain h.mem h.freeSegmentsHead (pre.map Seg.addr) x
  lens : ∀ r ∈ pre, h.length r.addr = r.len
  within : ∀ r ∈ pre, r.Within top
  sorted : pre.Pairwise fun r q => r.fin ≤ q.addr

/-- The length that is stored is read back. -/
theorem setLength_length {v : Nat} : (h.setLength a v).length a = v := Function.update_self ..

/-- No other word is changed. -/
theorem setLength_mem {v w : Nat} (hw : w ≠ a + 4) : (h.setLength a v).mem w = h.mem w := Function.update_of_ne hw _ _

namespace Front

variable {top : Nat}

theorem addr_pos (hF : Front h pre x top) : ∀ r ∈ pre, r.addr ≠ 0 := fun r hr => (hF.within r hr).pos.ne'

theorem below (hF : Front h pre x top) : ∀ r ∈ pre, r.addr + 8 ≤ top := fun r hr =>
  Nat.le_trans (hF.within r hr).words (hF.within r hr).hi

theorem addr_sorted (hF : Front h pre x top) : pre.Pairwise (·.addr < ·.addr) :=
  hF.sorted.imp_of_mem fun {r q} hr _ hle => by
    have := (hF.within r hr).words
    omega

theorem head_ne_zero (hF : Front h pre x top) (hx : x ≠ 0) : h.freeSegmentsHead ≠ 0 := by
  rw [hF.chain.head_eq]
  cases pre with
  | nil => exact hx
  | cons r pre => exact hF.addr_pos r List.mem_cons_self

/-- The headers of two segments do not share a word. -/
theorem second_ne (hF : Front h pre x top) {r q : Seg} (hr : r ∈ pre) (hq : q ∈ pre) :
    r.addr + 4 ≠ q.addr := by
  by_cases e : r = q
  · subst e
    omega
  · have hw := (hF.within r hr).words
    have hw' := (hF.within q hq).words
    have hap : r.fin ≤ q.addr ∨ q.fin ≤ r.addr := by
      have hs : pre.Pairwise Seg.Apart := hF.sorted.imp fun h => Or.inl h
      exact hs.forall hr hq e
    omega

/-- The front depends on the headers of its segments only. -/
theorem congr {y : Nat} (hF : Front h pre x top) (hchain : Chain h'.mem h'.freeSegmentsHead (pre.map Seg.addr) y)
    (hmem : ∀ r ∈ pre, h'.mem (r.addr + 4) = h.mem (r.addr + 4)) : Front h' pre y top :=
  ⟨hchain, fun r hr => (hmem r hr).trans (hF.lens r hr), hF.within, hF.sorted⟩

/-- The segments up to one of the front. -/
theorem before {post : List Seg} {r : Seg} (hF : Front h (pre ++ r :: post) x top) : Front h pre r.addr r.addr := by
  have hchain := hF.chain
  rw [List.map_append, Chain.append_iff] at hchain
  obtain ⟨c, hc, hc', -⟩ := hchain
  have hs := List.pairwise_append.mp hF.sorted
  refine ⟨hc' ▸ hc, fun q hq => hF.lens q (by simp [hq]), fun q hq => ?_, hs.1⟩
  have hw := hF.within q (by simp [hq])
  exact ⟨hw.lo, hs.2.2 q hq r List.mem_cons_self, hw.aligned, hw.len⟩

theorem mono {top' : Nat} (hF : Front h pre x top) (ht : top ≤ top') : Front h pre x top' :=
  ⟨hF.chain, hF.lens, fun r hr => (hF.within r hr).mono ht, hF.sorted⟩

/-! ## Allocating -/

/-- The search passes the segments that are too short. -/
theorem search_passes {l : List Seg} {q : Nat × Nat} {c : Bool} (hc : Chain h.mem b (l.map Seg.addr) x)
    (hl : ∀ r ∈ l, r.addr ≠ 0 ∧ h.length r.addr < t) (ht : t + 8 < 2 ^ 32) (k : Nat) :
    Res.loop (searchStep h t) (l.length + k) ⟨q.1, q.2, b, c⟩ =
      Res.loop (searchStep h t) k ⟨(lastTwo q l).1, (lastTwo q l).2, x, c⟩ := by
  induction l generalizing b q with
  | nil =>
    obtain rfl : b = x := hc
    rw [List.length_nil, Nat.zero_add, lastTwo_nil]
  | cons r l ih =>
    obtain ⟨rfl, hc⟩ : b = r.addr ∧ _ := hc
    obtain ⟨hr0, hshort⟩ := hl r List.mem_cons_self
    rw [List.length_cons, Nat.add_right_comm, Res.loop_continue (c := ⟨q.2, r.addr, h.next r.addr, c⟩)]
    · exact ih (q := (q.2, r.addr)) hc fun q hq => hl q (List.mem_cons_of_mem _ hq)
    · simp only [searchStep, hr0, ↓reduceIte, sizeofMemorySegment, Nat.mod_eq_of_lt ht]
      rw [if_neg (by omega), if_neg (by omega)]

/-- The first page is committed before anything else. -/
theorem allocate_commit {h₁ : Heap σ} (hcommit : commitFirstPage S h = .ok (true, h₁)) (h0 : h₁.freeSegmentsHead ≠ 0)
    (fuel : Nat) : memoryAllocate S fuel h size = memoryAllocate S fuel h₁ size := by
  have hagain : commitFirstPage S h₁ = .ok (true, h₁) := if_neg h0
  simp only [memoryAllocate, hcommit, hagain, Res.ok_bind]

theorem commitFirstPage_eq (h0 : h.freeSegmentsHead ≠ 0) : commitFirstPage S h = .ok (true, h) := by
  unfold commitFirstPage
  rw [if_neg h0]

section

variable (hF : Front h pre x top) (hsize : pad (size + 4) + 8 < 2 ^ 32) (hpre : ∀ r ∈ pre, r.len < pad (size + 4))

include hF hsize hpre

theorem search_first_passes (k : Nat) :
    Res.loop (searchStep h (pad (size + 4))) (pre.length + k) ⟨0, 0, h.freeSegmentsHead, false⟩ =
      Res.loop (searchStep h (pad (size + 4))) k ⟨(lastTwo (0, 0) pre).1, (lastTwo (0, 0) pre).2, x, false⟩ :=
  search_passes (q := (0, 0)) hF.chain (fun r hr => ⟨hF.addr_pos r hr, by rw [hF.lens r hr]; exact hpre r hr⟩) hsize k

variable (hx : x ≠ 0)

include hx

variable (S size) in
/-- Where the segments before it are too short, the block is taken off `x`. -/
theorem allocate_fit (hfit : pad (size + 4) ≤ h.length x) : Res.Returns (fun fuel => memoryAllocate S fuel h size)
    (h.carve size (pad (size + 4)) (lastTwo (0, 0) pre).2 x (pad (size + 4) + 8 ≤ h.length x)) := by
  have hpad := le_pad (size + 4)
  have hstep (p q : Nat) : searchStep h (pad (size + 4)) ⟨p, q, x, false⟩ =
      .ok (.inr ⟨p, q, x, decide (pad (size + 4) + 8 ≤ h.length x)⟩) := by
    simp only [searchStep, hx, ↓reduceIte, sizeofMemorySegment, Nat.mod_eq_of_lt hsize, hfit]
    split <;> simp [*]
  have hsearch := (hF.search_first_passes hsize hpre 1).trans (Res.loop_leave (hstep _ _) 0)
  simp only [memoryAllocate, trueSize_eq (show size + 7 < 2 ^ 32 by omega), commitFirstPage_eq (hF.head_ne_zero hx),
    Res.ok_bind]
  refine (Res.Returns.loop hsearch).bind ?_
  simp only [if_neg hx]
  exact Res.Returns.ok _

variable (S size) in
/-- Where all segments are too short, the last one, `x`, is grown by a page. -/
theorem allocate_grown {supply : σ} (hlast : h.next x = 0) (hshort : h.length x < pad (size + 4))
    (hfit : pad (size + 4) ≤ h.length x + pageSize) (hmod : h.length x + pageSize < 2 ^ 32)
    (hpage : S.commit h.supply h.nextPageVirtAddr = .ok (true, supply)) :
    Res.Returns (fun fuel => memoryAllocate S fuel h size)
      (((advancePage { h with supply }).setLength x (h.length x + pageSize)).carve size (pad (size + 4))
        (lastTwo (0, 0) pre).2 x (pad (size + 4) + 8 ≤ h.length x + pageSize)) := by
  have hpad := le_pad (size + 4)
  have hstep (p q : Nat) : searchStep h (pad (size + 4)) ⟨p, q, x, false⟩ = .ok (.inl ⟨q, x, 0, false⟩) := by
    simp only [searchStep, hx, ↓reduceIte, sizeofMemorySegment, Nat.mod_eq_of_lt hsize, hlast]
    rw [if_neg (by omega), if_neg (by omega)]
  have hend (p q : Nat) : searchStep h (pad (size + 4)) ⟨p, q, 0, false⟩ = .ok (.inr ⟨p, q, 0, false⟩) := by
    simp only [searchStep, ↓reduceIte]
  have hsearch := (hF.search_first_passes hsize hpre 2).trans
    ((Res.loop_continue (hstep _ _) 1).trans (Res.loop_leave (hend _ _) 0))
  have hgrow : Res.loop (growStep S (pad (size + 4))) 2 (h, h.length x) =
      .ok (advancePage { h with supply }, some (h.length x + pageSize)) := by
    rw [Res.loop_continue (growStep_short hshort hpage), Nat.mod_eq_of_lt hmod]
    refine Res.loop_leave ?_ 0
    unfold growStep
    simp only [Nat.not_lt_of_le hfit, ↓reduceIte]
  have hlen : ((advancePage { h with supply }).setLength x (h.length x + pageSize)).length x =
      h.length x + pageSize := setLength_length
  simp only [memoryAllocate, trueSize_eq (show size + 7 < 2 ^ 32 by omega), commitFirstPage_eq (hF.head_ne_zero hx),
    Res.ok_bind]
  refine (Res.Returns.loop hsearch).bind ?_
  simp only [↓reduceIte, Res.assert_bind hx]
  refine (Res.Returns.loop hgrow).bind ?_
  simp only [hlen, sizeofMemorySegment, Nat.mod_eq_of_lt hsize]
  exact Res.Returns.ok _

end

/-- What is left when a block is taken off `x` and the rest of the segment stays on the list. -/
theorem carve_front (size t : Nat) (hF : Front h pre x x) (ht : 8 ≤ t) (hend : x + t + 8 ≤ 2 ^ 32) (hlen : t ≤ h.length x)
    (hlen' : h.length x < 2 ^ 32) : ∃ h', h.carve size t (lastTwo (0, 0) pre).2 x true = (x + 4, h') ∧
      Front h' pre (x + t) x ∧ SameSupply h h' ∧ h'.mem x = (size + 4) % 2 ^ 32 ∧ h'.next (x + t) = h.next x ∧
      h'.length (x + t) = h.length x - t ∧
      ∀ a, (∀ r ∈ pre, a ≠ r.addr) → a ≠ x → a ≠ x + t → a ≠ x + t + 4 → h'.mem a = h.mem a := by
  have hr : (x + t) % 2 ^ 32 = x + t := Nat.mod_eq_of_lt (by omega)
  have hx : (x + 4) % 2 ^ 32 = x + 4 := Nat.mod_eq_of_lt (by omega)
  obtain ⟨h', e, hhead, -, hblock, hnext, hlength, hother⟩ := @carve_split _ h size t (lastTwo (0, 0) pre).2 x _ hr (by omega)
  have hlt : ∀ r ∈ pre, r.addr + 8 ≤ x := hF.below
  -- The link that is changed is in the first word of a segment.
  have hkeep : ∀ a, (∀ r ∈ pre, a ≠ r.addr) → (relink h (lastTwo (0, 0) pre).2 x (x + t)).mem a = h.mem a :=
    fun a ha => relink_mem ha
  have hsupply := sameSupply_carve h size t (lastTwo (0, 0) pre).2 x true
  rw [e] at hsupply
  refine ⟨h', by rw [e, hx], hF.congr ?_ fun r hr => ?_, hsupply, hblock, ?_, ?_, fun a ha hax har har4 => ?_⟩
  · rw [hhead]
    refine (relink_chain (x + t) hF.chain (fun r hr => ?_) hF.addr_pos hF.addr_sorted).frame fun a ha => ?_
    · have := hlt r hr
      omega
    · obtain ⟨r, hr, rfl⟩ := List.mem_map.mp ha
      have := hlt r hr
      exact hother _ (by omega) (by omega) (by omega)
  · have := hlt r hr
    rw [hother _ (by omega) (by omega) (by omega), hkeep _ fun q hq => hF.second_ne hr hq]
  · rw [next, hnext, hkeep x fun r hr => ?_]
    have := hlt r hr
    omega
  · rw [length, hlength, hkeep (x + 4) fun r hr => ?_]
    · change (h.length x + 2 ^ 32 - t) % 2 ^ 32 = _
      omega
    · have := hlt r hr
      omega
  · rw [hother a hax har har4, hkeep a ha]

/-- What is left when all of `x` becomes the block. -/
theorem carve_front_whole (size t : Nat) (hF : Front h pre x x) (hx0 : x ≠ 0) (hx : x + 4 < 2 ^ 32) :
    ∃ h', h.carve size t (lastTwo (0, 0) pre).2 x false = (x + 4, h') ∧ Front h' pre (h.next x) x ∧
      h'.mem x = (size + 4) % 2 ^ 32 ∧ ∀ a, (∀ r ∈ pre, a ≠ r.addr) → a ≠ x → h'.mem a = h.mem a := by
  have hlt : ∀ r ∈ pre, r.addr + 8 ≤ x := hF.below
  have hps : (lastTwo (0, 0) pre).2 ≠ x := by
    by_cases hnil : pre = []
    · rw [hnil]
      exact hx0.symm
    · obtain ⟨q, hq, e⟩ := lastTwo_mem hnil
      have := hlt q hq
      rw [e]
      omega
  rw [carve_whole hps, Nat.mod_eq_of_lt hx]
  refine ⟨_, rfl, hF.congr ?_ fun r hr => ?_, Function.update_self .., fun a ha hax => ?_⟩
  · refine (relink_chain (h.next x) hF.chain (fun r hr => ?_) hF.addr_pos hF.addr_sorted).frame fun a ha => ?_
    · have := hlt r hr
      omega
    · obtain ⟨r, hr, rfl⟩ := List.mem_map.mp ha
      have := hlt r hr
      exact Function.update_of_ne (by omega) _ _
  · have := hlt r hr
    exact (Function.update_of_ne (by omega) _ _).trans (relink_mem fun q hq => hF.second_ne hr hq)
  · exact (Function.update_of_ne hax _ _).trans (relink_mem ha)

/-! ## Freeing -/

/-- The first loop passes the segments below the block. -/
theorem neighbours_pass {l : List Seg} {q : Nat × Nat} (pp : Nat) (hc : Chain h.mem b (l.map Seg.addr) n)
    (hl : ∀ r ∈ l, r.addr ≠ 0 ∧ r.addr < a) (hq : q.2 < a) (hn : a < n) : ∃ pp',
      Res.loop (neighboursStep h a) (l.length + 1) ⟨pp, q.1, q.2, b⟩ =
        .ok ⟨pp', (lastTwo q l).1, (lastTwo q l).2, n⟩ := by
  induction l generalizing b q pp with
  | nil =>
    obtain rfl : b = n := hc
    exact ⟨pp, Res.loop_leave ((neighboursStep_eq h pp q.1 (by omega) (by omega) hq).trans (if_pos hn)) 0⟩
  | cons r l ih =>
    obtain ⟨rfl, hc⟩ : b = r.addr ∧ _ := hc
    obtain ⟨hr0, hra⟩ := hl r List.mem_cons_self
    have hstep := (neighboursStep_eq h pp q.1 hr0 hra.ne hq).trans (if_neg (by omega))
    obtain ⟨pp', hrest⟩ := @ih (h.next r.addr) (q.2, r.addr) q.1 hc (fun s hs => hl s (List.mem_cons_of_mem _ hs)) hra
    exact ⟨pp', (Res.loop_continue hstep _).trans hrest⟩

/-- What `memory_free` links in between `p` and `n`: the block, or the segment `p`
that it touches, before `n` or, where it touches that, before the next one. -/
theorem linkFreed_between (h : Heap σ) (pp : Nat) {p : Nat} (hp : p < a) (hn : a < n) : ∃ H,
    linkFreed h a ⟨pp, p, n, h.next n⟩ = .ok (linkSegment H
      (if p ≠ 0 ∧ (p + h.length p) % 2 ^ 32 = a then pp else p) (if p ≠ 0 ∧ (p + h.length p) % 2 ^ 32 = a then p else a)
      (if (a + h.mem a) % 2 ^ 32 = n then h.next n else n)) ∧
    H.freeSegmentsHead = h.freeSegmentsHead ∧ (∀ w, w ≠ a + 4 →
      (p ≠ 0 ∧ (p + h.length p) % 2 ^ 32 = a → w ≠ p + 4) → H.mem w = h.mem w) ∧
    (¬ (p ≠ 0 ∧ (p + h.length p) % 2 ^ 32 = a) → H.length a =
      if (a + h.mem a) % 2 ^ 32 = n then (h.mem a + h.length n) % 2 ^ 32 else h.mem a) := by
  have hnext (v : Nat) : (h.setLength a v).length n = h.length n := setLength_mem (by omega)
  have hprev (v : Nat) : (h.setLength a v).length p = h.length p := setLength_mem (by omega)
  unfold linkFreed
  simp only [setLength_length]
  rw [Res.assert_bind fun _ => by omega]
  -- Joining the block to the segment after it changes only its length.
  have hjoin : ∃ v, v = (if (a + h.mem a) % 2 ^ 32 = n then (h.mem a + h.length n) % 2 ^ 32 else h.mem a) ∧
      (if (a + h.mem a) % 2 ^ 32 = n then
        ((h.setLength a (h.mem a)).setLength a ((h.mem a + (h.setLength a (h.mem a)).length n) % 2 ^ 32), h.next n)
      else (h.setLength a (h.mem a), n)) =
      (h.setLength a v, if (a + h.mem a) % 2 ^ 32 = n then h.next n else n) := by
    refine ⟨_, rfl, ?_⟩
    split
    · rw [setLength_setLength, hnext]
    · rfl
  obtain ⟨v, hv, hjoin⟩ := hjoin
  rw [hjoin]
  simp only [hprev, setLength_length]
  split
  · rename_i htouch
    refine ⟨_, rfl, rfl, fun w hwa hwp => ?_, fun hnot => absurd htouch hnot⟩
    exact (Function.update_of_ne (hwp htouch) _ _).trans (setLength_mem hwa)
  · refine ⟨_, rfl, rfl, fun w hwa _ => setLength_mem hwa, fun _ => ?_⟩
    rw [setLength_length, hv]

/-- The last segment before the block, or 0, lies below it. -/
theorem lastTwo_lt (hpre : ∀ r ∈ pre, r.addr ≠ 0 ∧ r.addr < a) (ha : 0 < a) : (lastTwo (0, 0) pre).2 < a := by
  by_cases hnil : pre = []
  · rwa [hnil]
  · obtain ⟨q, hq, e⟩ := lastTwo_mem hnil
    rw [e]
    exact (hpre q hq).2

/-- What freeing a block between the segments `pre` and `n` leaves: the block is a segment of
its own, or part of the last of `pre`, and is linked to `n` or, where it touches that, to the next one. -/
structure FreedBetween (h h' : Heap σ) (pre : List Seg) (a n : Nat) (l : List Nat) : Prop where
  chain : Chain h'.mem h'.freeSegmentsHead l (if (a + h.mem a) % 2 ^ 32 = n then h.next n else n)
  same : ∀ w, w ≠ 0 → w ≠ a → w ≠ a + 4 → (∀ r ∈ pre, w ≠ r.addr ∧ w ≠ r.addr + 4) → h'.mem w = h.mem w
  linked : l = pre.map Seg.addr ++ [a] ∧ h'.length a =
      (if (a + h.mem a) % 2 ^ 32 = n then (h.mem a + h.length n) % 2 ^ 32 else h.mem a) ∨
    l = pre.map Seg.addr ∧ ∃ r ∈ pre, (r.addr + h.length r.addr) % 2 ^ 32 = a

section

variable (hc : Chain h.mem h.freeSegmentsHead (pre.map Seg.addr) n) (hs : pre.Pairwise (·.addr < ·.addr))
  (hpre : ∀ r ∈ pre, r.addr ≠ 0 ∧ r.addr < a) (ha : 0 < a) (ha' : a < 2 ^ 32) (hn : a < n)

include hc hpre ha ha' hn

/-- The search ends at the segments between which the block lies, and the call returns. -/
theorem free_returns (hlink : linkFreed h a ⟨(lastTwo (0, 0) pre).1, (lastTwo (0, 0) pre).2, n, h.next n⟩ = .ok h') :
    Res.Returns (fun fuel => memoryFree fuel h (a + 4)) h' := by
  have hlt := lastTwo_lt hpre ha
  have hhead : h.freeSegmentsHead ≠ 0 := by
    rw [hc.head_eq]
    cases pre with
    | nil => exact (Nat.zero_lt_of_lt hn).ne'
    | cons r pre => exact (hpre r List.mem_cons_self).1
  obtain ⟨pp, hfirst⟩ := neighbours_pass (q := (0, 0)) 0 hc hpre ha hn
  have hsecond := pass_once h (s := ⟨pp, (lastTwo (0, 0) pre).1, (lastTwo (0, 0) pre).2, n⟩) hlt hn
  simp only [memoryFree_eq hhead ha', searchNeighbours, bind_assoc]
  refine (Res.Returns.loop hfirst).bind ((Res.Returns.loop hsecond).bind ?_)
  have hbetween : (lastTwo (0, 0) pre).2 < a ∧ n > a ∨ (lastTwo (0, 0) pre).2 < a ∧ n = 0 ∨
      (lastTwo (0, 0) pre).2 = 0 ∧ n > a := .inl ⟨hlt, hn⟩
  simp only [Res.assert_bind hbetween, hlink]
  exact Res.Returns.ok _

include hs

/-- Where the last segment before it does not touch the block, the block becomes a segment. -/
theorem free_apart
    (hnot : ¬ ((lastTwo (0, 0) pre).2 ≠ 0 ∧ ((lastTwo (0, 0) pre).2 + h.length (lastTwo (0, 0) pre).2) % 2 ^ 32 = a)) :
    ∃ h', Res.Returns (fun fuel => memoryFree fuel h (a + 4)) h' ∧ FreedBetween h h' pre a n (pre.map Seg.addr ++ [a]) := by
  obtain ⟨H, hlink, hhead, hmem, hlen⟩ := linkFreed_between h (lastTwo (0, 0) pre).1 (lastTwo_lt hpre ha) hn
  rw [if_neg hnot, if_neg hnot] at hlink
  have hsame : ∀ w, w ≠ a + 4 → H.mem w = h.mem w := fun w hw => hmem w hw fun h0 => absurd h0 hnot
  have hcH : Chain H.mem H.freeSegmentsHead (pre.map Seg.addr) n := by
    rw [hhead]
    refine hc.frame fun w hw => ?_
    obtain ⟨r, hr, rfl⟩ := List.mem_map.mp hw
    have := (hpre r hr).2
    exact hsame _ (by omega)
  refine ⟨_, free_returns hc hpre ha ha' hn hlink, ?_, fun w hw hwa hwa4 hwl => ?_, .inl ⟨rfl, ?_⟩⟩
  · refine Chain.concat_iff.mpr ⟨linkSegment_pre hs (fun r hr => (hpre r hr).2) hcH fun hnil => ?_, Function.update_self ..⟩
    rw [hcH.head_eq, hnil]
    exact hn.le
  · rw [linkSegment_keep hw (fun r hr => (hwl r hr).1) hwa, hsame w hwa4]
  · rw [length, linkSegment_keep (by omega) (fun r hr => ?_) (by omega)]
    · exact hlen hnot
    · have := (hpre r hr).2
      omega

omit hc hs hpre in
/-- Where it does, the block becomes part of it. -/
theorem free_joined {p : Seg} (hc : Chain h.mem h.freeSegmentsHead ((pre ++ [p]).map Seg.addr) n)
    (hs : (pre ++ [p]).Pairwise (·.addr < ·.addr)) (hpre : ∀ r ∈ pre ++ [p], r.addr ≠ 0 ∧ r.addr < a)
    (htouch : (p.addr + h.length p.addr) % 2 ^ 32 = a) :
    ∃ h', Res.Returns (fun fuel => memoryFree fuel h (a + 4)) h' ∧
      FreedBetween h h' (pre ++ [p]) a n ((pre ++ [p]).map Seg.addr) := by
  obtain ⟨hp0, hpa⟩ := hpre p (by simp)
  have hlast : ∀ r ∈ pre, r.addr < p.addr := fun r hr => (List.pairwise_append.mp hs).2.2 r hr p (by simp)
  obtain ⟨H, hlink, hhead, hmem, -⟩ := linkFreed_between h (lastTwo (0, 0) pre).2 hpa hn
  rw [if_pos ⟨hp0, htouch⟩, if_pos ⟨hp0, htouch⟩] at hlink
  have hr := free_returns hc hpre ha ha' hn (by rw [lastTwo_concat]; exact hlink)
  rw [List.map_append, List.map_cons, List.map_nil, Chain.concat_iff] at hc
  have hcH : Chain H.mem H.freeSegmentsHead (pre.map Seg.addr) p.addr := by
    rw [hhead]
    refine hc.1.frame fun w hw => ?_
    obtain ⟨r, hr, rfl⟩ := List.mem_map.mp hw
    have := hlast r hr
    exact hmem _ (by omega) fun _ => by omega
  refine ⟨_, hr, ?_, fun w hw hwa hwa4 hwl => ?_, .inr ⟨rfl, p, by simp, htouch⟩⟩
  · rw [List.map_append, List.map_cons, List.map_nil, Chain.concat_iff]
    refine ⟨linkSegment_pre (List.pairwise_append.mp hs).1 hlast hcH fun hnil => ?_, Function.update_self ..⟩
    rw [hcH.head_eq, hnil]
    exact Nat.le_refl _
  · obtain ⟨hwp, hwp4⟩ := hwl p (by simp)
    rw [linkSegment_keep hw (fun r hr => (hwl r (by simp [hr])).1) hwp, hmem w hwa4 fun _ => hwp4]

/-- Freeing a block between the segments `pre` and `n`. -/
theorem free_front : ∃ h' l, Res.Returns (fun fuel => memoryFree fuel h (a + 4)) h' ∧ FreedBetween h h' pre a n l := by
  by_cases htouch : (lastTwo (0, 0) pre).2 ≠ 0 ∧ ((lastTwo (0, 0) pre).2 + h.length (lastTwo (0, 0) pre).2) % 2 ^ 32 = a
  · rcases List.eq_nil_or_concat pre with rfl | ⟨pre, p, rfl⟩
    · exact absurd rfl htouch.1
    · rw [List.concat_eq_append, lastTwo_concat] at htouch
      rw [List.concat_eq_append] at hc hs hpre ⊢
      obtain ⟨h', hr, hfreed⟩ := free_joined ha ha' hn hc hs hpre htouch.2
      exact ⟨h', _, hr, hfreed⟩
  · obtain ⟨h', hr, hfreed⟩ := free_apart hc hs hpre ha ha' hn htouch
    exact ⟨h', _, hr, hfreed⟩

end

/-- As `free_front`, of the addresses on the list. -/
theorem free_list {l : List Nat} (hc : Chain h.mem h.freeSegmentsHead l n) (hs : l.Pairwise (· < ·))
    (hl : ∀ y ∈ l, y ≠ 0 ∧ y < a) (ha : 0 < a) (ha' : a < 2 ^ 32) (hn : a < n) :
    ∃ h' l', Res.Returns (fun fuel => memoryFree fuel h (a + 4)) h' ∧
      Chain h'.mem h'.freeSegmentsHead l' (if (a + h.mem a) % 2 ^ 32 = n then h.next n else n) ∧
      (∀ w, w ≠ 0 → w ≠ a → w ≠ a + 4 → (∀ y ∈ l, w ≠ y ∧ w ≠ y + 4) → h'.mem w = h.mem w) ∧
      (l' = l ++ [a] ∧ h'.length a =
          (if (a + h.mem a) % 2 ^ 32 = n then (h.mem a + h.length n) % 2 ^ 32 else h.mem a) ∨
        l' = l ∧ ∃ y ∈ l, (y + h.length y) % 2 ^ 32 = a) := by
  obtain ⟨pre, rfl⟩ : ∃ pre : List Seg, l = pre.map Seg.addr :=
    ⟨l.map (⟨·, 0⟩), by rw [List.map_map]; exact (List.map_id l).symm⟩
  rw [List.pairwise_map] at hs
  rw [List.forall_mem_map] at hl
  obtain ⟨h', l', hr, hc', hmem, hcases⟩ := free_front hc hs hl ha ha' hn
  refine ⟨h', l', hr, hc', fun w hw hwa hwa4 hwl => hmem w hw hwa hwa4 fun r hr => hwl _ (List.mem_map_of_mem hr), ?_⟩
  rcases hcases with hcases | ⟨rfl, r, hr, htouch⟩
  · exact .inl hcases
  · exact .inr ⟨rfl, r.addr, List.mem_map_of_mem hr, htouch⟩

/-- Freeing a block with segments `l` before it and `u` after it, none of which joins it to `n`. -/
theorem free_into {l u : List Nat} (hc : Chain h.mem h.freeSegmentsHead (l ++ u) n) (hs : (l ++ u).Pairwise (· < ·))
    (hl : ∀ y ∈ l, y ≠ 0 ∧ y < a) (hu : ∀ y ∈ u, a + 8 ≤ y) (ha : 0 < a) (ha' : a < 2 ^ 32) (hn : a < n)
    (htouch : u = [] → (a + h.mem a) % 2 ^ 32 ≠ n) :
    ∃ h' l', Res.Returns (fun fuel => memoryFree fuel h (a + 4)) h' ∧ Chain h'.mem h'.freeSegmentsHead l' n ∧
      l'.Pairwise (· < ·) ∧ (∀ y ∈ l', y ∈ l ∨ y = a ∨ y ∈ u) ∧
      ∀ w, w ≠ 0 → w ≠ a → w ≠ a + 4 → (∀ y ∈ l, w ≠ y ∧ w ≠ y + 4) → h'.mem w = h.mem w := by
  obtain ⟨hsl, hsu, hlu⟩ := List.pairwise_append.mp hs
  obtain ⟨c, hcl, hcu⟩ := Chain.append_iff.mp hc
  have hac : a < c := by
    rw [hcu.head_eq]
    cases u with
    | nil => exact hn
    | cons y u =>
      have := hu y List.mem_cons_self
      exact Nat.lt_of_lt_of_le (by omega) this
  obtain ⟨h', l', hr, hc', hmem, hcases⟩ := free_list hcl hsl hl ha ha' hac
  -- What is left of `u` behind the block.
  obtain ⟨v, hsub, hv⟩ : ∃ v, v.Sublist u ∧ Chain h.mem (if (a + h.mem a) % 2 ^ 32 = c then h.next c else c) v n := by
    split
    · rename_i hjoin
      cases u with
      | nil =>
        obtain rfl : c = n := hcu
        exact absurd hjoin (htouch rfl)
      | cons y u =>
        obtain ⟨rfl, hrest⟩ := hcu
        exact ⟨u, List.sublist_cons_self c u, hrest⟩
    · exact ⟨u, List.Sublist.refl u, hcu⟩
  have hkeep : ∀ w ∈ v, h'.mem w = h.mem w := fun w hw => by
    have hwa := hu w (hsub.subset hw)
    refine hmem w (by omega) (by omega) (by omega) fun y hy => ?_
    have := hl y hy
    omega
  -- What is left before it.
  have hl' : l'.Pairwise (· < ·) ∧ ∀ y ∈ l', y ∈ l ∨ y = a := by
    rcases hcases with ⟨rfl, -⟩ | ⟨rfl, -⟩
    · refine ⟨List.pairwise_append.mpr ⟨hsl, List.pairwise_singleton .., fun y hy z hz => ?_⟩, fun y hy => ?_⟩
      · rw [List.mem_singleton.mp hz]
        exact (hl y hy).2
      · simpa using hy
    · exact ⟨hsl, fun y hy => .inl hy⟩
  refine ⟨h', l' ++ v, hr, Chain.append_iff.mpr ⟨_, hc', hv.frame hkeep⟩,
    List.pairwise_append.mpr ⟨hl'.1, hsu.sublist hsub, fun y hy z hz => ?_⟩, fun y hy => ?_, hmem⟩
  · have hz' := hu z (hsub.subset hz)
    rcases hl'.2 y hy with hyl | rfl
    · have := (hl y hyl).2
      omega
    · omega
  · rcases List.mem_append.mp hy with hy | hy
    · rcases hl'.2 y hy with hyl | rfl
      · exact .inl hyl
      · exact .inr (.inl rfl)
    · exact .inr (.inr (hsub.subset hy))

end Front

end OSForReal.Proof.Heap
