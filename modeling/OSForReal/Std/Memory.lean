import Mathlib.Tactic.Ring
import OSForReal.Framework.Res

/-!
# The kernel's heap (`std/memory.c`)

`memory_allocate` and `memory_free` as the kernel computes them, on a memory of
32-bit words at addresses divisible by 4 (every pointer the two functions
follow is one). A `Memory_Segment` at address `a` is the word `next` at `a`
and the word `length` at `a + 4`; a live block begins with the word that its
allocation stored there, the requested size plus `sizeof(size_t)`.

`pfa_commit_page` is the `commit` of a `PageSupply`: where the frames come
from is another module's matter. Loops take fuel; an `ASSERT` that fails
stops the machine (`cpu_halt`). Additions that can wrap are taken modulo
2³², as `size_t` and pointer additions are on this target.
-/

namespace OSForReal

open Framework (Res)

/-- `PAGE_SIZE` -/
abbrev pageSize : Nat := 4096

/-- `MAX_KERNEL_SIZE` -/
abbrev maxKernelSize : Nat := 8 * (1024 * 1024)

/-- `__kernel_start`: the origin of `KERNELVIRT` in `link.ld`. -/
abbrev kernelStart : Nat := 0xC0000000

/-- Where the heap begins. -/
abbrev heapStart : Nat := kernelStart + maxKernelSize

/-- `sizeof(size_t)` -/
abbrev sizeofSizeT : Nat := 4

/-- `sizeof(Memory_Segment)` -/
abbrev sizeofMemorySegment : Nat := 8

/-- `align_backwards`; its `ASSERT` is about `alignment`, which every caller
passes as 4 or `PAGE_SIZE`. -/
def alignBackwards (size alignment : Nat) : Nat := size &&& (0xffffffff ^^^ (alignment - 1))

/-- `align_forward` -/
def alignForward (size alignment : Nat) : Nat :=
  ((size + alignment - 1) % 2 ^ 32) &&& (0xffffffff ^^^ (alignment - 1))

/-- What the heap needs of `pfa_commit_page`: whether a page could be mapped at
an address, and the supply after the call. The index `ASSERT` of
`mapped_virt_to_pfa_tables_index` stops the machine below the heap. -/
structure PageSupply (σ : Type) where
  commit : σ → Nat → Res (Bool × σ)
  commit_range {s s' : σ} {v : Nat} : v < 2 ^ 32 → commit s v = .ok (true, s') → heapStart ≤ v

/-- `n` pages in a row can be committed, the first at `v`. -/
def PageSupply.Grants {σ : Type} (S : PageSupply σ) : σ → Nat → Nat → Prop
  | _, _, 0 => True
  | s, v, n + 1 => ∃ s', S.commit s v = .ok (true, s') ∧ S.Grants s' ((v + pageSize) % 2 ^ 32) n

/-- The memory and the globals of `memory.c`. -/
structure Heap (σ : Type) where
  mem : Nat → Nat
  freeSegmentsHead : Nat
  nextPageVirtAddr : Nat
  supply : σ

namespace Heap

variable {σ : Type}

/-- `segment->next` -/
abbrev next (h : Heap σ) (segment : Nat) : Nat := h.mem segment

/-- `segment->length` -/
abbrev length (h : Heap σ) (segment : Nat) : Nat := h.mem (segment + 4)

def store (h : Heap σ) (a v : Nat) : Heap σ := { h with mem := Function.update h.mem a v }

def setNext (h : Heap σ) (segment v : Nat) : Heap σ := h.store segment v

def setLength (h : Heap σ) (segment v : Nat) : Heap σ := h.store (segment + 4) v

def setHead (h : Heap σ) (segment : Nat) : Heap σ := { h with freeSegmentsHead := segment }

@[simp] theorem store_mem (h : Heap σ) (a v : Nat) : (h.store a v).mem = Function.update h.mem a v := rfl
@[simp] theorem store_head (h : Heap σ) (a v : Nat) :
    (h.store a v).freeSegmentsHead = h.freeSegmentsHead := rfl
@[simp] theorem store_nextPage (h : Heap σ) (a v : Nat) :
    (h.store a v).nextPageVirtAddr = h.nextPageVirtAddr := rfl
@[simp] theorem setHead_mem (h : Heap σ) (a : Nat) : (h.setHead a).mem = h.mem := rfl
@[simp] theorem setHead_head (h : Heap σ) (a : Nat) : (h.setHead a).freeSegmentsHead = a := rfl
@[simp] theorem setHead_nextPage (h : Heap σ) (a : Nat) :
    (h.setHead a).nextPageVirtAddr = h.nextPageVirtAddr := rfl

/-- `memory_init`, on the zero-initialised `free_segments_head`. -/
def memoryInit (mem : Nat → Nat) (supply : σ) : Heap σ where
  mem
  freeSegmentsHead := 0
  nextPageVirtAddr := heapStart
  supply

/-- `pfa_commit_page(next_page_virt_addr)` -/
def commitNextPage (S : PageSupply σ) (h : Heap σ) : Res (Bool × Heap σ) := do
  let (success, supply) ← S.commit h.supply h.nextPageVirtAddr
  .ok (success, { h with supply })

/-- `next_page_virt_addr += PAGE_SIZE` -/
def advancePage (h : Heap σ) : Heap σ :=
  { h with nextPageVirtAddr := (h.nextPageVirtAddr + pageSize) % 2 ^ 32 }

@[simp] theorem advancePage_mem (h : Heap σ) : h.advancePage.mem = h.mem := by simp only [advancePage]
@[simp] theorem advancePage_head (h : Heap σ) : h.advancePage.freeSegmentsHead = h.freeSegmentsHead := by
  simp only [advancePage]
@[simp] theorem advancePage_nextPage (h : Heap σ) :
    h.advancePage.nextPageVirtAddr = (h.nextPageVirtAddr + pageSize) % 2 ^ 32 := by
  simp only [advancePage]

/-! ## `memory_allocate` -/

/-- The first page, committed when the free list is empty; `false` if there is
no frame for it. -/
def commitFirstPage (S : PageSupply σ) (h : Heap σ) : Res (Bool × Heap σ) :=
  if h.freeSegmentsHead = 0 then do
    match ← commitNextPage S h with
    | (false, h) => .ok (false, h)
    | (true, h) =>
      let h := h.setHead h.nextPageVirtAddr
      let h := h.setNext h.freeSegmentsHead 0
      let h := h.setLength h.freeSegmentsHead pageSize
      .ok (true, h.advancePage)
  else .ok (true, h)

/-- The variables of the search in `memory_allocate`. -/
structure Search where
  prevPrevSegment : Nat
  prevSegment : Nat
  segment : Nat
  segmentCanBeSplit : Bool

/-- One step of the search for a segment of `trueSize` bytes. -/
def searchStep (h : Heap σ) (trueSize : Nat) (s : Search) : Res (Search ⊕ Search) :=
  if s.segment = 0 then .ok (.inr s)
  else if (trueSize + sizeofMemorySegment) % 2 ^ 32 ≤ h.length s.segment then
    .ok (.inr { s with segmentCanBeSplit := true })
  else if trueSize ≤ h.length s.segment then
    .ok (.inr { s with segmentCanBeSplit := false })
  else .ok (.inl ⟨s.prevSegment, s.segment, h.next s.segment, s.segmentCanBeSplit⟩)

/-- One step of the loop that commits pages until the last segment, now of
`lastSegmentLength` bytes, holds `trueSize`; leaves with no length if there is
no frame. -/
def growStep (S : PageSupply σ) (trueSize : Nat) :
    Heap σ × Nat → Res ((Heap σ × Nat) ⊕ (Heap σ × Option Nat))
  | (h, lastSegmentLength) =>
    if lastSegmentLength < trueSize then do
      match ← commitNextPage S h with
      | (false, h) => .ok (.inr (h, none))
      | (true, h) => .ok (.inl (h.advancePage, (lastSegmentLength + pageSize) % 2 ^ 32))
    else .ok (.inr (h, some lastSegmentLength))

/-- Takes a block of `trueSize` bytes off the front of `segment`, leaving the
remainder or nothing in its place on the free list, and stores the header. -/
def carve (h : Heap σ) (size trueSize prevSegment segment : Nat) (segmentCanBeSplit : Bool) :
    Nat × Heap σ :=
  let h :=
    if segmentCanBeSplit then
      let remainingSegment := (segment + trueSize) % 2 ^ 32
      let h := if prevSegment ≠ 0 then h.setNext prevSegment remainingSegment else h
      let h := h.setNext remainingSegment (h.next segment)
      let h := h.setLength remainingSegment ((h.length segment + 2 ^ 32 - trueSize) % 2 ^ 32)
      if segment = h.freeSegmentsHead then h.setHead remainingSegment else h
    else
      let h := if prevSegment ≠ 0 then h.setNext prevSegment (h.next segment) else h
      if segment = h.freeSegmentsHead then h.setHead (h.next segment) else h
  let h := h.store segment ((size + sizeofSizeT) % 2 ^ 32)
  ((segment + sizeofSizeT) % 2 ^ 32, h)

/-- `true_size`: the bytes that `memory_allocate` takes for `size` of them and the header. -/
def trueSize (size : Nat) : Nat := alignForward ((size + sizeofSizeT) % 2 ^ 32) sizeofSizeT

/-- `memory_allocate`: the address of the block, 0 if there is no memory. -/
def memoryAllocate (S : PageSupply σ) (fuel : Nat) (h : Heap σ) (size : Nat) : Res (Nat × Heap σ) := do
  let trueSize := trueSize size
  match ← commitFirstPage S h with
  | (false, h) => .ok (0, h)
  | (true, h) =>
    let s ← Res.loop (searchStep h trueSize) fuel ⟨0, 0, h.freeSegmentsHead, false⟩
    if s.segment = 0 then
      -- No free segment is big enough: the last one grows by whole pages.
      Res.assert (s.prevSegment ≠ 0)
      match ← Res.loop (growStep S trueSize) fuel (h, h.length s.prevSegment) with
      | (h, none) => .ok (0, h)
      | (h, some lastSegmentLength) =>
        let h := h.setLength s.prevSegment lastSegmentLength
        .ok (h.carve size trueSize s.prevPrevSegment s.prevSegment
          ((trueSize + sizeofMemorySegment) % 2 ^ 32 ≤ h.length s.prevSegment))
    else .ok (h.carve size trueSize s.prevSegment s.segment s.segmentCanBeSplit)

/-! ## `memory_free` -/

/-- The variables of the search in `memory_free`. -/
structure Neighbours where
  prevPrevSegment : Nat
  prevSegment : Nat
  nextSegment : Nat
  nextNextSegment : Nat
deriving DecidableEq

/-- One step of the first loop: stops when `segment` lies between the next
segment and the one after it. -/
def neighboursStep (h : Heap σ) (segment : Nat) (s : Neighbours) : Res (Neighbours ⊕ Neighbours) := do
  if s.nextNextSegment ≠ 0 then
    Res.assert (s.nextSegment ≠ segment)
    Res.assert (s.nextNextSegment ≠ segment)
    if s.nextNextSegment > segment ∧ s.nextSegment < segment then .ok (.inr s)
    else .ok (.inl ⟨s.prevSegment, s.nextSegment, s.nextNextSegment, h.next s.nextNextSegment⟩)
  else .ok (.inr s)

/-- One step of the second loop: moves on until the next segment lies above
`segment`. -/
def passStep (h : Heap σ) (segment : Nat) (s : Neighbours) : Res (Neighbours ⊕ Neighbours) :=
  if s.nextSegment < segment then
    .ok (.inl ⟨s.prevSegment, s.nextSegment, s.nextNextSegment,
      if s.nextNextSegment ≠ 0 then h.next s.nextNextSegment else s.nextNextSegment⟩)
  else .ok (.inr s)

/-- `memory_free` from the two segments that `segment` lies between: joins it to
those it touches and links it in. -/
def linkFreed (h : Heap σ) (segment : Nat) (s : Neighbours) : Res (Heap σ) := do
  let h := h.setLength segment (h.mem segment)
  let touchesNext := (segment + h.length segment) % 2 ^ 32 = s.nextSegment
  Res.assert (touchesNext → s.nextSegment ≠ 0)
  let (h, nextSegment) :=
    if touchesNext then
      (h.setLength segment ((h.length segment + h.length s.nextSegment) % 2 ^ 32), s.nextNextSegment)
    else (h, s.nextSegment)
  let (h, prevSegment, segment) :=
    if s.prevSegment ≠ 0 ∧ (s.prevSegment + h.length s.prevSegment) % 2 ^ 32 = segment then
      (h.setLength s.prevSegment ((h.length s.prevSegment + h.length segment) % 2 ^ 32),
        s.prevPrevSegment, s.prevSegment)
    else (h, s.prevSegment, segment)
  let h := if h.freeSegmentsHead > segment then h.setHead segment else h
  -- With no segment before it, `prevSegment` is 0 and the store goes to address 0.
  let h := h.setNext prevSegment segment
  .ok (h.setNext segment nextSegment)

/-- `memory_free` -/
def memoryFree (fuel : Nat) (h : Heap σ) (address : Nat) : Res (Heap σ) :=
  if h.freeSegmentsHead = 0 then .ok h
  else do
    let segment := (address + 2 ^ 32 - sizeofSizeT) % 2 ^ 32
    let s ← Res.loop (neighboursStep h segment) fuel ⟨0, 0, 0, h.freeSegmentsHead⟩
    let s ← Res.loop (passStep h segment) fuel s
    Res.assert ((s.prevSegment < segment ∧ s.nextSegment > segment) ∨
      (s.prevSegment < segment ∧ s.nextSegment = 0) ∨ (s.prevSegment = 0 ∧ s.nextSegment > segment))
    linkFreed h segment s

end Heap

end OSForReal
