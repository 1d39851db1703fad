import OSForReal.Framework.Run
import OSForReal.Proof.Heap.Free

/-!
# The heap as a system

A state is the heap with the blocks that are live; an event is a call of
`memory_allocate` with what it returned, or of `memory_free` on a live block.
`Holds` relates a state to an arena: the arena's live blocks are the state's,
each with its header.
-/

namespace OSForReal.Proof.Heap

open Framework (Res Chain Reaches System)
open OSForReal.Heap

variable {σ : Type}

/-- What `memory_allocate` returned for `size` bytes. -/
structure Block where
  ptr : Nat
  size : Nat
deriving DecidableEq, Repr

/-- The header and the bytes of a block. -/
def Block.seg (b : Block) : Seg := ⟨b.ptr - 4, b.size + 4⟩

@[simp] theorem Block.seg_addr (b : Block) : b.seg.addr = b.ptr - 4 := rfl
@[simp] theorem Block.seg_len (b : Block) : b.seg.len = b.size + 4 := rfl

/-- The heap and the blocks allocated and not freed since. -/
structure HeapState (σ : Type) where
  heap : Heap σ
  live : List Block

/-- A call that returned. -/
inductive HeapEvent
  | allocate (size ptr : Nat)
  | free (b : Block)

/-- `memory_allocate` of some bytes, or `memory_free` of a live block; either returns. -/
inductive HeapStep (S : PageSupply σ) : HeapState σ → HeapEvent → HeapState σ → Prop
  | allocate {s : HeapState σ} {size ptr fuel : Nat} {h' : Heap σ} (h0 : 1 ≤ size) (hsize : size < 2 ^ 32)
      (h : memoryAllocate S fuel s.heap size = .ok (ptr, h')) :
      HeapStep S s (.allocate size ptr) ⟨h', if ptr = 0 then s.live else ⟨ptr, size⟩ :: s.live⟩
  | free {s : HeapState σ} {b : Block} {fuel : Nat} {h' : Heap σ} (hb : b ∈ s.live)
      (h : memoryFree fuel s.heap b.ptr = .ok h') : HeapStep S s (.free b) ⟨h', s.live.erase b⟩

/-- The heap from `memory_init` on, over any memory and page supply. -/
def heapSystem (S : PageSupply σ) : System (HeapState σ) HeapEvent where
  init s := ∃ mem supply, s = ⟨memoryInit mem supply, []⟩
  step := HeapStep S

/-- An event as a computation: what the call returns with `fuel`, if it is what the event says. -/
def runEvent (S : PageSupply σ) (fuel : Nat) (s : HeapState σ) : HeapEvent → Option (HeapState σ)
  | .allocate size ptr =>
    match memoryAllocate S fuel s.heap size with
    | .ok (p, h') =>
      if 1 ≤ size ∧ size < 2 ^ 32 ∧ p = ptr then some ⟨h', if ptr = 0 then s.live else ⟨ptr, size⟩ :: s.live⟩
      else none
    | _ => none
  | .free b =>
    match memoryFree fuel s.heap b.ptr with
    | .ok h' => if b ∈ s.live then some ⟨h', s.live.erase b⟩ else none
    | _ => none

theorem runEvent_step {S : PageSupply σ} {fuel : Nat} {s s' : HeapState σ} {i : HeapEvent}
    (h : runEvent S fuel s i = some s') : HeapStep S s i s' := by
  cases i with
  | allocate size ptr =>
    simp only [runEvent] at h
    split at h
    · rename_i hr
      split at h
      · rename_i hc
        obtain ⟨h0, hsize, rfl⟩ := hc
        cases h
        exact .allocate h0 hsize hr
      · cases h
    · cases h
  | free b =>
    simp only [runEvent] at h
    split at h
    · rename_i hr
      split at h
      · rename_i hb
        cases h
        exact .free hb hr
      · cases h
    · cases h

/-- A supply that commits every page of the heap. -/
def everyPage : PageSupply Unit where
  commit _ v := if heapStart ≤ v then .ok (true, ()) else .halt
  commit_range _ h := by
    split at h
    · assumption
    · cases h

/-- The heap after `memory_init` on zeroed memory. -/
def emptyState : HeapState Unit := ⟨memoryInit (fun _ => 0) (), []⟩

theorem reachable_emptyState (ok : HeapState Unit → HeapEvent → Prop) :
    (heapSystem everyPage).Reachable ok emptyState := .init ⟨_, _, rfl⟩

/-- The end of the committed pages, which is 2³² where `next_page_virt_addr` has wrapped. -/
def heapEnd (h : Heap σ) : Nat := if h.nextPageVirtAddr = 0 then 2 ^ 32 else h.nextPageVirtAddr

/-- The state holds the arena: its free list, and its live blocks with their headers. -/
structure Holds (s : HeapState σ) (A : Arena) : Prop where
  ok : A.Ok
  heap : Represents s.heap A
  live : (s.live.map Block.seg).Perm A.live
  ptr : ∀ b ∈ s.live, 4 ≤ b.ptr

/-- The arena of an empty heap. -/
def emptyArena : Arena := ⟨[], [], heapStart⟩

theorem holds_init (mem : Nat → Nat) (supply : σ) : Holds ⟨memoryInit mem supply, []⟩ emptyArena where
  ok := by
    refine ⟨by simp [emptyArena], by simp [emptyArena], by simp [emptyArena], Nat.le_refl _, ?_, ?_⟩ <;>
      simp only [emptyArena] <;> decide
  heap := by
    refine ⟨rfl, by simp [emptyArena], by simp [emptyArena], ?_⟩
    simp only [memoryInit, emptyArena]
    decide
  live := List.Perm.nil
  ptr := by simp

namespace Holds

variable {s : HeapState σ} {A : Arena}

theorem heapEnd_eq (h : Holds s A) : heapEnd s.heap = A.top := by
  have hlo : 0 < A.top := Nat.lt_of_lt_of_le (by decide) h.ok.lo
  have hhi := h.ok.hi
  unfold heapEnd
  rw [h.heap.page]
  split <;> omega

theorem zero_not_mem (h : Holds s A) : 0 ∉ A.free.map Seg.addr := by
  intro h0
  obtain ⟨r, hr, e⟩ := List.mem_map.mp h0
  have := (h.ok.free_within hr).pos
  omega

/-- The segments on the free list are those of the arena. -/
theorem reaches_iff (h : Holds s A) {a : Nat} :
    Reaches s.heap.mem 0 s.heap.freeSegmentsHead a ↔ ∃ r ∈ A.free, r.addr = a := by
  rw [h.heap.chain.reaches_iff h.zero_not_mem, List.mem_map]

theorem mem_live (h : Holds s A) {b : Block} : b ∈ s.live → b.seg ∈ A.live := fun hb =>
  h.live.mem_iff.mp (List.mem_map_of_mem hb)

theorem ptr_eq (h : Holds s A) {b : Block} (hb : b ∈ s.live) : b.seg.addr + 4 = b.ptr := by
  have := h.ptr b hb
  rw [Block.seg_addr]
  omega

/-- Dropping a block from the state and from the arena. -/
theorem erase_live (h : Holds s A) {b : Block} (hb : b ∈ s.live) :
    ((s.live.erase b).map Block.seg).Perm (A.live.erase b.seg) := by
  have hp : (b.seg :: (s.live.erase b).map Block.seg).Perm A.live :=
    ((List.perm_cons_erase hb).map Block.seg).symm.trans h.live
  have := hp.erase b.seg
  rwa [List.erase_cons_head] at this

end Holds

/-! ## The steps -/

/-- What a call of `memory_free` that returns does: it forgets the block, if the
free list is empty, or releases it. -/
theorem Holds.free {s : HeapState σ} {A : Arena} {b : Block} {fuel : Nat} {h' : Heap σ} (h : Holds s A)
    (hb : b ∈ s.live) (hr : memoryFree fuel s.heap b.ptr = .ok h') :
    (A.free = [] ∧ Holds ⟨h', s.live.erase b⟩ ⟨A.free, A.live.erase b.seg, A.top⟩) ∨
      ∃ pre n post, A.free = pre ++ n :: post ∧ (∀ r ∈ pre, r.addr < b.seg.addr) ∧
        (∀ r ∈ n :: post, b.seg.addr < r.addr) ∧
        Holds ⟨h', s.live.erase b⟩ (A.release pre b.seg (n :: post)) := by
  have hptr : ∀ c ∈ s.live.erase b, 4 ≤ c.ptr := fun c hc => h.ptr c (List.mem_of_mem_erase hc)
  rw [← h.ptr_eq hb] at hr
  rcases memoryFree_ok h.ok h.heap (h.mem_live hb) hr with ⟨hnil, rfl⟩ | ⟨pre, n, post, hf, hpre, hpost, hR⟩
  · have hsub : List.Sublist (A.free ++ A.live.erase b.seg) (A.free ++ A.live) :=
      (List.erase_sublist ..).append_left _
    refine .inl ⟨hnil, ⟨?_, ?_, h.erase_live hb, hptr⟩⟩
    · exact ⟨fun r hr => h.ok.within r (hsub.subset hr), h.ok.apart.sublist hsub, h.ok.sorted, h.ok.lo, h.ok.hi,
        h.ok.page⟩
    · exact ⟨h.heap.chain, h.heap.lens, fun r hr => h.heap.headers r (List.mem_of_mem_erase hr), h.heap.page⟩
  · exact .inr ⟨pre, n, post, hf, hpre, hpost, h.ok.release hf (h.mem_live hb) hpre hpost, hR, h.erase_live hb, hptr⟩

/-- What a call of `memory_allocate` does, when growing runs into no live block. -/
theorem Holds.allocate {S : PageSupply σ} {s : HeapState σ} {A : Arena} {fuel size p : Nat} {h' : Heap σ}
    (h : Holds s A) (hsize : 1 ≤ size) (hsize' : pad (size + 4) + 8 < 2 ^ 32)
    (hgrow : GrowthClear S s.heap A size) (hr : memoryAllocate S fuel s.heap size = .ok (p, h')) :
    ∃ A', (Allocates A.firstPage size p A' ∨ (p = 0 ∧ A' = A)) ∧
      Holds ⟨h', if p = 0 then s.live else ⟨p, size⟩ :: s.live⟩ A' := by
  obtain ⟨A', ha, hOk, hR⟩ := memoryAllocate_ok h.ok h.heap hsize hsize' hgrow hr
  have hlive : A.firstPage.live = A.live := by
    unfold Arena.firstPage
    split <;> rfl
  refine ⟨A', ha, hOk, hR, ?_, ?_⟩
  · rcases ha with ha | ⟨rfl, rfl⟩
    · cases ha with
      | fit | grow => simpa [hlive, Block.seg] using h.live
      | fail => simpa [hlive] using h.live
    · simpa using h.live
  · intro b hb
    split at hb
    · exact h.ptr b hb
    · rcases List.mem_cons.mp hb with rfl | hb
      · rcases ha with ha | ⟨rfl, rfl⟩
        · cases ha with
          | fit | grow => simp only; omega
          | fail => contradiction
        · contradiction
      · exact h.ptr b hb

end OSForReal.Proof.Heap
