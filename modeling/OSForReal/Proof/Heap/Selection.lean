import OSForReal.Framework.Chain
import OSForReal.Std.Memory

/-!
# The segment that `memory_allocate` takes a block from

`memory_allocate` selects a free segment, growing the last one if none is long
enough, and takes the block off it (`memoryAllocate_eq`). What is proven here
of the selection holds in any heap, whatever its free list looks like:
`search_first` says where the search ends, and `grow_any` how many pages the
segment grows by before the loop ends or a commit fails.
-/

namespace OSForReal.Proof.Heap

open Framework (Res Chain)
open OSForReal.Heap

variable {σ : Type} {S : PageSupply σ} {h h' : Heap σ} {fuel size t n : Nat}

/-- A segment for a block, in the heap in which it has its length. -/
structure Selection (σ : Type) where
  heap : Heap σ
  prevSegment : Nat
  segment : Nat
  segmentCanBeSplit : Bool

/-- `memory_allocate` up to taking the block: a segment, or the heap after a failed commit. -/
def selectSegment (S : PageSupply σ) (fuel : Nat) (h : Heap σ) (trueSize : Nat) : Res (Selection σ ⊕ Heap σ) := do
  match ← commitFirstPage S h with
  | (false, h) => .ok (.inr h)
  | (true, h) =>
    let s ← Res.loop (searchStep h trueSize) fuel ⟨0, 0, h.freeSegmentsHead, false⟩
    if s.segment = 0 then
      Res.assert (s.prevSegment ≠ 0)
      match ← Res.loop (growStep S trueSize) fuel (h, h.length s.prevSegment) with
      | (h, none) => .ok (.inr h)
      | (h, some lastSegmentLength) =>
        let h := h.setLength s.prevSegment lastSegmentLength
        .ok (.inl ⟨h, s.prevPrevSegment, s.prevSegment,
          (trueSize + sizeofMemorySegment) % 2 ^ 32 ≤ h.length s.prevSegment⟩)
    else .ok (.inl ⟨h, s.prevSegment, s.segment, s.segmentCanBeSplit⟩)

theorem memoryAllocate_eq (S : PageSupply σ) (fuel : Nat) (h : Heap σ) (size : Nat) :
    memoryAllocate S fuel h size = selectSegment S fuel h (trueSize size) >>= fun
      | .inl s => .ok (s.heap.carve size (trueSize size) s.prevSegment s.segment s.segmentCanBeSplit)
      | .inr h => .ok (0, h) := by
  unfold memoryAllocate selectSegment
  rw [bind_assoc]
  apply bind_congr
  rintro ⟨b, h₁⟩
  cases b with
  | false => rfl
  | true =>
    simp only
    rw [bind_assoc]
    apply bind_congr
    intro s
    split
    · rw [bind_assoc]
      apply bind_congr
      intro _
      rw [bind_assoc]
      apply bind_congr
      rintro ⟨h₂, r⟩
      cases r with
      | none => rfl
      | some L => rfl
    · rfl

/-! ## The first page -/

/-- The heap with its first page, on an empty list. -/
def firstPageHeap (h : Heap σ) : Heap σ :=
  (((h.setHead h.nextPageVirtAddr).setNext h.nextPageVirtAddr 0).setLength h.nextPageVirtAddr pageSize).advancePage

theorem firstPageHeap_length (h : Heap σ) : (firstPageHeap h).length h.nextPageVirtAddr = pageSize := by
  show Function.update (Function.update h.mem h.nextPageVirtAddr 0) (h.nextPageVirtAddr + 4) pageSize
    (h.nextPageVirtAddr + 4) = pageSize
  exact Function.update_self ..

theorem firstPageHeap_next (h : Heap σ) : (firstPageHeap h).next h.nextPageVirtAddr = 0 := by
  show Function.update (Function.update h.mem h.nextPageVirtAddr 0) (h.nextPageVirtAddr + 4) pageSize
    h.nextPageVirtAddr = 0
  rw [Function.update_of_ne (by omega), Function.update_self]

theorem firstPageHeap_mem (h : Heap σ) {a : Nat} (ha : a ≠ h.nextPageVirtAddr) (ha4 : a ≠ h.nextPageVirtAddr + 4) :
    (firstPageHeap h).mem a = h.mem a := by
  show Function.update (Function.update h.mem h.nextPageVirtAddr 0) (h.nextPageVirtAddr + 4) pageSize a = h.mem a
  rw [Function.update_of_ne ha4, Function.update_of_ne ha]

/-- `commitFirstPage` on an empty list. -/
theorem commitFirstPage_empty {b : Bool} {s' : σ} (h0 : h.freeSegmentsHead = 0)
    (hc : S.commit h.supply h.nextPageVirtAddr = .ok (b, s')) : commitFirstPage S h =
      .ok (b, if b then firstPageHeap { h with supply := s' } else { h with supply := s' }) := by
  unfold commitFirstPage commitNextPage
  rw [if_pos h0, hc]
  cases b <;> rfl

/-- What `commitFirstPage` returns. -/
theorem commitFirstPage_any {b : Bool} (hr : commitFirstPage S h = .ok (b, h')) :
    (h.freeSegmentsHead ≠ 0 ∧ b = true ∧ h' = h) ∨
      h.freeSegmentsHead = 0 ∧ ∃ s', S.commit h.supply h.nextPageVirtAddr = .ok (b, s') ∧
        h' = if b then firstPageHeap { h with supply := s' } else { h with supply := s' } := by
  by_cases h0 : h.freeSegmentsHead = 0
  · have hc := hr
    unfold commitFirstPage at hc
    rw [if_pos h0] at hc
    obtain ⟨⟨b', h₁⟩, hc, -⟩ := Res.bind_eq_ok.mp hc
    obtain ⟨⟨b'', s'⟩, hs, -⟩ := Res.bind_eq_ok.mp hc
    rw [commitFirstPage_empty h0 hs] at hr
    obtain ⟨rfl, rfl⟩ := Prod.mk.inj (Res.ok.inj hr)
    exact .inr ⟨h0, s', hs, rfl⟩
  · unfold commitFirstPage at hr
    rw [if_neg h0] at hr
    cases hr
    exact .inl ⟨h0, rfl, rfl⟩

theorem commitFirstPage_nextPage {b : Bool} (hv : h.nextPageVirtAddr < 2 ^ 32) (hr : commitFirstPage S h = .ok (b, h')) :
    h'.nextPageVirtAddr < 2 ^ 32 := by
  rcases commitFirstPage_any hr with ⟨-, -, rfl⟩ | ⟨-, s', -, rfl⟩
  · exact hv
  · cases b with
    | false => exact hv
    | true => exact Nat.mod_lt _ (by decide)

/-! ## The search -/

/-- The segment is long enough for `t` bytes, as the search compares them. -/
def Accepts (h : Heap σ) (t segment : Nat) (segmentCanBeSplit : Bool) : Prop :=
  if segmentCanBeSplit then (t + sizeofMemorySegment) % 2 ^ 32 ≤ h.length segment
  else h.length segment < (t + sizeofMemorySegment) % 2 ^ 32 ∧ t ≤ h.length segment

/-- The segment is too short, as the search compares them. -/
def Refuses (h : Heap σ) (t segment : Nat) : Prop :=
  h.length segment < (t + sizeofMemorySegment) % 2 ^ 32 ∧ h.length segment < t

/-- The search ends at the first segment that is accepted, or behind the last one. -/
theorem search_first {s s' : Search} (hr : Res.loop (searchStep h t) n s = .ok s') :
    ∃ l, Chain h.mem s.segment l s'.segment ∧ 0 ∉ l ∧ (∀ r ∈ l, Refuses h t r) ∧
      (s'.segment = 0 ∧ (s'.prevSegment = s.prevSegment ∨ s'.prevSegment ∈ l) ∨
        s'.segment ≠ 0 ∧ Accepts h t s'.segment s'.segmentCanBeSplit) := by
  induction n generalizing s with
  | zero => cases hr
  | succ n ih =>
    by_cases h0 : s.segment = 0
    · rw [Res.loop_leave (b := s) (by simp only [searchStep, h0, ↓reduceIte])] at hr
      cases hr
      exact ⟨[], rfl, List.not_mem_nil, by simp, .inl ⟨h0, .inl rfl⟩⟩
    · by_cases hsplit : (t + sizeofMemorySegment) % 2 ^ 32 ≤ h.length s.segment
      · rw [Res.loop_leave (b := { s with segmentCanBeSplit := true })
          (by simp only [searchStep, h0, ↓reduceIte, hsplit])] at hr
        cases hr
        exact ⟨[], rfl, List.not_mem_nil, by simp, .inr ⟨h0, hsplit⟩⟩
      · by_cases hfit : t ≤ h.length s.segment
        · rw [Res.loop_leave (b := { s with segmentCanBeSplit := false })
            (by simp only [searchStep, h0, ↓reduceIte, hsplit, hfit])] at hr
          cases hr
          exact ⟨[], rfl, List.not_mem_nil, by simp, .inr ⟨h0, Nat.lt_of_not_le hsplit, hfit⟩⟩
        · rw [Res.loop_continue (c := ⟨s.prevSegment, s.segment, h.next s.segment, s.segmentCanBeSplit⟩)
            (by simp only [searchStep, h0, ↓reduceIte, hsplit, hfit])] at hr
          obtain ⟨l, hc, h0l, hl, hs⟩ := ih hr
          refine ⟨s.segment :: l, ⟨rfl, hc⟩, ?_, ?_, ?_⟩
          · simpa using ⟨Ne.symm h0, h0l⟩
          · exact List.forall_mem_cons.mpr ⟨⟨Nat.lt_of_not_le hsplit, Nat.lt_of_not_le hfit⟩, hl⟩
          · rcases hs with ⟨hend, hp⟩ | hs
            · refine .inl ⟨hend, .inr ?_⟩
              rcases hp with hp | hp
              · rw [hp]
                exact List.mem_cons_self
              · exact List.mem_cons_of_mem _ hp
            · exact .inr hs

/-! ## Growing -/

/-- Pages in a row lie in the heap, so there are at most 1016 MiB of them. -/
theorem grants_range {p : σ} {v k : Nat} (hv : v < 2 ^ 32) (hg : S.Grants p v k) :
    k = 0 ∨ heapStart ≤ v ∧ v + pageSize * k < 2 ^ 32 + pageSize := by
  induction k generalizing p v with
  | zero => exact .inl rfl
  | succ k ih =>
    obtain ⟨p', hc, hg⟩ := hg
    have hlo := S.commit_range hv hc
    have hnext := ih (Nat.mod_lt _ (by decide)) hg
    simp only [pageSize, heapStart, kernelStart, maxKernelSize] at *
    right
    omega

/-- `growStep` where the segment is too short. -/
theorem growStep_short {b : Bool} {s' : σ} {len : Nat} (hlt : len < t)
    (hc : S.commit h.supply h.nextPageVirtAddr = .ok (b, s')) : growStep S t (h, len) =
      .ok (if b then .inl (advancePage { h with supply := s' }, (len + pageSize) % 2 ^ 32)
        else .inr ({ h with supply := s' }, none)) := by
  unfold growStep commitNextPage
  simp only [hlt, ↓reduceIte]
  rw [hc]
  cases b <;> rfl

/-- The loop commits a page where the segment is too short. -/
theorem growStep_commits {len : Nat} {r : Heap σ × Option Nat} (hlt : len < t)
    (hr : Res.loop (growStep S t) (n + 1) (h, len) = .ok r) :
    ∃ b s', S.commit h.supply h.nextPageVirtAddr = .ok (b, s') := by
  obtain ⟨x, hx, -⟩ := Res.bind_eq_ok.mp hr
  unfold growStep at hx
  simp only [hlt, ↓reduceIte] at hx
  obtain ⟨_, hc, -⟩ := Res.bind_eq_ok.mp hx
  obtain ⟨⟨b, s'⟩, hs, -⟩ := Res.bind_eq_ok.mp hc
  exact ⟨b, s', hs⟩

/-- The pages that a segment of `len` bytes must grow by to hold `t`. -/
def pagesFor (t len : Nat) : Nat := (t - len + (pageSize - 1)) / pageSize

theorem pagesFor_of_le {len : Nat} (h : t ≤ len) : pagesFor t len = 0 := by
  simp only [pagesFor, pageSize]
  omega

theorem pagesFor_of_lt {len : Nat} (h : len < t) : pagesFor t len = pagesFor t (len + pageSize) + 1 := by
  simp only [pagesFor, pageSize]
  omega

/-- What the loop that commits pages returns, and after how many of them. -/
theorem grow_any {len : Nat} {r : Option Nat} (hv : h.nextPageVirtAddr < 2 ^ 32)
    (hr : Res.loop (growStep S t) n (h, len) = .ok (h', r)) :
    ∃ k, S.Grants h.supply h.nextPageVirtAddr k ∧ h'.mem = h.mem ∧ h'.freeSegmentsHead = h.freeSegmentsHead ∧
      h'.nextPageVirtAddr = (h.nextPageVirtAddr + pageSize * k) % 2 ^ 32 ∧
      (r = none → ¬ S.Grants h.supply h.nextPageVirtAddr (k + 1)) ∧
      ∀ L, r = some L → t ≤ L ∧ L ≤ len + pageSize * k ∧
        (len + pageSize * k < 2 ^ 32 → L = len + pageSize * k ∧ k = pagesFor t len) := by
  induction n generalizing h len with
  | zero => cases hr
  | succ n ih =>
    by_cases hlt : len < t
    · obtain ⟨b, s', hs⟩ := growStep_commits hlt hr
      cases b with
      | false =>
        rw [Res.loop_leave (growStep_short hlt hs)] at hr
        obtain ⟨rfl, rfl⟩ := Prod.mk.inj (Res.ok.inj hr)
        refine ⟨0, trivial, rfl, rfl, (Nat.mod_eq_of_lt hv).symm, fun _ hg => ?_, nofun⟩
        obtain ⟨s'', hs', -⟩ := hg
        rw [hs] at hs'
        cases hs'
      | true =>
        rw [Res.loop_continue (growStep_short hlt hs)] at hr
        obtain ⟨k, hg, hmem, hhead, hpage, hnone, hL⟩ := ih (Nat.mod_lt _ (by decide)) hr
        rw [advancePage_mem] at hmem
        rw [advancePage_head] at hhead
        refine ⟨k + 1, ⟨s', hs, hg⟩, hmem, hhead, ?_, fun e hg' => ?_, fun L e => ?_⟩
        · rw [hpage]
          simp only [advancePage_nextPage, pageSize]
          omega
        · obtain ⟨s'', hs', hg'⟩ := hg'
          rw [hs] at hs'
          cases hs'
          exact hnone e hg'
        · obtain ⟨hle, hL, hexact⟩ := hL L e
          have hmod := Nat.mod_le (len + pageSize) (2 ^ 32)
          have hsucc : pageSize * (k + 1) = pageSize + pageSize * k := by rw [Nat.mul_add, Nat.mul_one, Nat.add_comm]
          rw [hsucc]
          refine ⟨hle, by omega, fun hroom => ?_⟩
          rw [Nat.mod_eq_of_lt (by omega)] at hexact
          obtain ⟨hL, hk⟩ := hexact (by omega)
          rw [pagesFor_of_lt hlt, ← hk]
          exact ⟨by omega, rfl⟩
    · rw [Res.loop_leave (b := (h, some len)) (by simp [growStep, hlt])] at hr
      cases hr
      refine ⟨0, trivial, rfl, rfl, (Nat.mod_eq_of_lt hv).symm, nofun, fun L e => ?_⟩
      cases e
      exact ⟨by omega, by omega, fun _ => ⟨by omega, (pagesFor_of_le (by omega)).symm⟩⟩

/-! ## The selection -/

/-- A segment that is selected was accepted by the search, or is the last one, refused before it grew. -/
theorem selectSegment_inl {s : Selection σ} (hv : h.nextPageVirtAddr < 2 ^ 32) (hr : selectSegment S fuel h t = .ok (.inl s)) :
    ∃ h₁ l, commitFirstPage S h = .ok (true, h₁) ∧ 0 ∉ l ∧ (∀ r ∈ l, Refuses h₁ t r) ∧
      ((s.segment ≠ 0 ∧ Chain h₁.mem h₁.freeSegmentsHead l s.segment ∧ s.heap = h₁ ∧
          Accepts h₁ t s.segment s.segmentCanBeSplit) ∨
        Chain h₁.mem h₁.freeSegmentsHead l 0 ∧ s.segment ∈ l ∧
          (∃ k, S.Grants h₁.supply h₁.nextPageVirtAddr k ∧
            s.heap.length s.segment ≤ h₁.length s.segment + pageSize * k) ∧
          t ≤ s.heap.length s.segment ∧ s.segmentCanBeSplit =
            decide ((t + sizeofMemorySegment) % 2 ^ 32 ≤ s.heap.length s.segment)) ∧
      s.heap.nextPageVirtAddr < 2 ^ 32 := by
  obtain ⟨⟨b, h₁⟩, hc, hr⟩ := Res.bind_eq_ok.mp hr
  cases b with
  | false => cases hr
  | true =>
    obtain ⟨q, hq, hr⟩ := Res.bind_eq_ok.mp hr
    obtain ⟨l, hl, h0, href, hend⟩ := search_first hq
    refine ⟨h₁, l, hc, h0, href, ?_⟩
    rcases hend with ⟨hseg, hprev⟩ | ⟨hseg, hacc⟩
    · rw [if_pos hseg] at hr
      obtain ⟨_, hp, hr⟩ := Res.bind_eq_ok.mp hr
      obtain ⟨⟨h₂, r⟩, hg, hr⟩ := Res.bind_eq_ok.mp hr
      obtain ⟨k, hgrants, -, -, hpage, -, hL⟩ := grow_any (commitFirstPage_nextPage hv hc) hg
      cases r with
      | none => cases hr
      | some L =>
        cases hr
        obtain ⟨hle, hL, -⟩ := hL L rfl
        have hself : (h₂.setLength q.prevSegment L).length q.prevSegment = L := Function.update_self ..
        refine ⟨.inr ⟨hseg ▸ hl, ?_, ⟨k, hgrants, by simpa only [hself] using hL⟩, by simpa only [hself] using hle, rfl⟩, ?_⟩
        · exact hprev.resolve_left (Res.assert_eq_ok.mp hp)
        · show h₂.nextPageVirtAddr < 2 ^ 32
          rw [hpage]
          exact Nat.mod_lt _ (by decide)
    · rw [if_neg hseg] at hr
      cases hr
      exact ⟨.inl ⟨hseg, hl, rfl, hacc⟩, commitFirstPage_nextPage hv hc⟩

/-- A selection fails when the first page or, after it, one that the last segment grows by cannot be committed. -/
theorem selectSegment_inr (hr : selectSegment S fuel h t = .ok (.inr h')) :
    commitFirstPage S h = .ok (false, h') ∨
      ∃ h₁ n len, commitFirstPage S h = .ok (true, h₁) ∧ Res.loop (growStep S t) n (h₁, len) = .ok (h', none) := by
  obtain ⟨⟨b, h₁⟩, hc, hr⟩ := Res.bind_eq_ok.mp hr
  cases b with
  | false =>
    cases hr
    exact .inl hc
  | true =>
    obtain ⟨q, -, hr⟩ := Res.bind_eq_ok.mp hr
    simp only at hr
    split at hr
    · obtain ⟨_, -, hr⟩ := Res.bind_eq_ok.mp hr
      obtain ⟨⟨h₂, r⟩, hg, hr⟩ := Res.bind_eq_ok.mp hr
      cases r with
      | none =>
        cases hr
        exact .inr ⟨h₁, _, _, hc, hg⟩
      | some L => cases hr
    · cases hr

/-- A selection fails where a page that the last segment needs cannot be committed. -/
theorem selectSegment_fails {h₁ : Heap σ} {q : Search} (hfirst : commitFirstPage S h = .ok (true, h₁))
    (hsearch : Res.loop (searchStep h₁ t) fuel ⟨0, 0, h₁.freeSegmentsHead, false⟩ = .ok q) (hseg : q.segment = 0)
    (hprev : q.prevSegment ≠ 0)
    (hgrow : Res.loop (growStep S t) fuel (h₁, h₁.length q.prevSegment) = .ok (h', none)) :
    selectSegment S fuel h t = .ok (.inr h') := by
  unfold selectSegment
  rw [hfirst, Res.ok_bind]
  simp only
  rw [hsearch, Res.ok_bind, if_pos hseg, Res.assert_bind hprev, hgrow, Res.ok_bind]

/-! ## The next page -/

theorem carve_nextPage (h : Heap σ) (size t p s : Nat) (b : Bool) :
    (h.carve size t p s b).2.nextPageVirtAddr = h.nextPageVirtAddr := by
  simp only [carve]
  split <;> split <;> split <;> rfl

/-- The next page stays an address. -/
theorem memoryAllocate_nextPage {p : Nat} (hv : h.nextPageVirtAddr < 2 ^ 32)
    (hr : memoryAllocate S fuel h size = .ok (p, h')) : h'.nextPageVirtAddr < 2 ^ 32 := by
  rw [memoryAllocate_eq] at hr
  obtain ⟨x, hx, hr⟩ := Res.bind_eq_ok.mp hr
  cases x with
  | inl s =>
    obtain ⟨h₁, l, -, -, -, -, hpage⟩ := selectSegment_inl hv hx
    simp only [Res.ok.injEq] at hr
    have hsnd := congrArg Prod.snd hr
    rw [← show _ = h' from hsnd, carve_nextPage]
    exact hpage
  | inr h₁ =>
    cases hr
    rcases selectSegment_inr hx with hc | ⟨h₂, n, len, hc, hg⟩
    · exact commitFirstPage_nextPage hv hc
    · obtain ⟨k, -, -, -, hpage, -, -⟩ := grow_any (commitFirstPage_nextPage hv hc) hg
      rw [hpage]
      exact Nat.mod_lt _ (by decide)

theorem linkFreed_nextPage {segment : Nat} {q : Neighbours} (hr : linkFreed h segment q = .ok h') :
    h'.nextPageVirtAddr = h.nextPageVirtAddr := by
  unfold linkFreed at hr
  obtain ⟨_, -, hr⟩ := Res.bind_eq_ok.mp hr
  split at hr
  rename_i h₁ n₁ e₁
  split at hr
  rename_i h₂ p₂ s₂ e₂
  have hpage₁ : h₁.nextPageVirtAddr = h.nextPageVirtAddr := by
    split at e₁ <;>
    · obtain ⟨rfl, -⟩ := Prod.mk.inj e₁
      rfl
  have hpage₂ : h₂.nextPageVirtAddr = h₁.nextPageVirtAddr := by
    split at e₂ <;>
    · obtain ⟨rfl, -⟩ := Prod.mk.inj e₂
      rfl
  rw [← Res.ok.inj hr, ← hpage₁, ← hpage₂]
  simp only [setNext, store_nextPage]
  split <;> rfl

/-- `memory_free` leaves it as it is. -/
theorem memoryFree_nextPage {address : Nat} (hr : memoryFree fuel h address = .ok h') :
    h'.nextPageVirtAddr = h.nextPageVirtAddr := by
  unfold memoryFree at hr
  split at hr
  · cases hr
    rfl
  · obtain ⟨_, -, hr⟩ := Res.bind_eq_ok.mp hr
    obtain ⟨q, -, hr⟩ := Res.bind_eq_ok.mp hr
    obtain ⟨_, -, hr⟩ := Res.bind_eq_ok.mp hr
    exact linkFreed_nextPage hr

end OSForReal.Proof.Heap
