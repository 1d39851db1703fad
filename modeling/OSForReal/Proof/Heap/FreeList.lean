import OSForReal.Proof.Heap.FreeReturns

/-!
# The free list

`IsFreeList`: the segments on the list ascend, are whole words of at least a
`Memory_Segment`, and none overlaps or touches another. Growing and splitting
segments keeps that, and so does freeing a block of whole words
(`freeList_of_wholeWords`). `memory_free` takes the length of a segment from the
header, which has the size that was asked for: for one that is not a multiple
of 4 the list is no such list from then on.
-/

namespace OSForReal.Proof.Heap

open Framework (Res Chain System)
open OSForReal.Heap

variable {σ : Type}

/-- The free list visits the segments `l`: ascending from the head on, of whole
words with room for a `Memory_Segment`, and with a gap after each. -/
structure IsFreeList (h : Heap σ) (l : List Nat) : Prop where
  chain : Chain h.mem h.freeSegmentsHead l 0
  nonzero : 0 ∉ l
  ascending : l.Pairwise (· < ·)
  aligned : ∀ a ∈ l, a % 4 = 0
  words : ∀ a ∈ l, h.length a % 4 = 0
  room : ∀ a ∈ l, sizeofMemorySegment ≤ h.length a
  apart : l.Pairwise fun a b => a + h.length a < b

/-- The free list is in order. -/
def FreeListOk (h : Heap σ) : Prop := ∃ l, IsFreeList h l

/-- Safe allocations; and frees of whole words, or of anything while the free list is empty. -/
def WholeWords (S : PageSupply σ) (s : HeapState σ) : HeapEvent → Prop
  | .allocate size _ => SafeAllocation S s size
  | .free b => b.size % 4 = 0 ∨ s.heap.freeSegmentsHead = 0

/-- A length of whole words with room for a `Memory_Segment`. -/
def WordsLen (n : Nat) : Prop := n % 4 = 0 ∧ sizeofMemorySegment ≤ n

theorem WordsLen.add {m n : Nat} (hm : WordsLen m) (hn : WordsLen n) : WordsLen (m + n) := by
  obtain ⟨hm, hm'⟩ := hm
  obtain ⟨hn, hn'⟩ := hn
  exact ⟨by omega, by omega⟩

/-- An arena whose free segments are whole words and do not touch. -/
structure Arena.Tidy (A : Arena) : Prop where
  joined : A.Joined
  words : ∀ r ∈ A.free, WordsLen r.len

variable {A : Arena} {pre post : List Seg} {b x : Seg} {s : HeapState σ}

theorem tidy_emptyArena : emptyArena.Tidy := ⟨by simp [Arena.Joined, emptyArena], by simp [emptyArena]⟩

theorem Arena.Tidy.firstPage (h : A.Tidy) : A.firstPage.Tidy := by
  by_cases hnil : A.free = []
  · rw [Arena.firstPage_nil hnil]
    refine ⟨List.pairwise_singleton .., fun r hr => ?_⟩
    obtain rfl := List.mem_singleton.mp hr
    exact ⟨show pageSize % 4 = 0 by decide, show 8 ≤ pageSize by decide⟩
  · rwa [Arena.firstPage_cons hnil]

/-- What is left of a segment of whole words is one. -/
theorem wordsLen_remainder {a L t : Nat} (hL : WordsLen L) (ht : t % 4 = 0) : ∀ r ∈ remainder a L t, WordsLen r.len := by
  intro r hr
  unfold remainder at hr
  split at hr
  · obtain rfl := List.mem_singleton.mp hr
    obtain ⟨hL, -⟩ := hL
    exact ⟨by simp only; omega, by simp only [sizeofMemorySegment]; omega⟩
  · cases hr

/-- Taking a block off a segment, or off the last one grown by pages. -/
theorem Arena.Tidy.carve {size n : Nat} (h : A.Tidy) (hA : A.Ok) (hf : A.free = pre ++ x :: post)
    (hpost : n = 0 ∨ post = []) : Arena.Tidy ⟨pre ++ remainder x.addr (x.len + pageSize * n) (pad (size + 4)) ++ post,
      ⟨x.addr, size + 4⟩ :: A.live, A.top + pageSize * n⟩ := by
  have hpad := le_pad (size + 4)
  refine ⟨hA.joined_carve h.joined hf ?_ (by omega), fun r hr => ?_⟩
  · rcases hpost with rfl | rfl
    · exact .inl rfl
    · exact .inr rfl
  · have hold : ∀ r ∈ pre ++ x :: post, WordsLen r.len := fun r hr => h.words r (hf ▸ hr)
    simp only [List.mem_append] at hr
    rcases hr with (hr | hr) | hr
    · exact hold r (by simp [hr])
    · obtain ⟨hx, hx'⟩ := hold x (by simp)
      refine wordsLen_remainder ⟨?_, by omega⟩ (by unfold pad; omega) r hr
      simp only [pageSize]
      omega
    · exact hold r (by simp [hr])

/-- Freeing a block of whole words. -/
theorem Arena.Tidy.release (h : A.Tidy) (hA : A.Ok) (hf : A.free = pre ++ post) (hb : b ∈ A.live)
    (hpre : ∀ r ∈ pre, r.addr < b.addr) (hpost : ∀ r ∈ post, b.addr < r.addr) (hlen : WordsLen b.len) :
    (A.release pre b post).Tidy := by
  refine ⟨hA.joined_release h.joined hf hb hpre hpost, ?_⟩
  apply Arena.Ok.linkIn_induction (P := fun l => ∀ r ∈ l, WordsLen r.len)
  · intro r hr
    rcases List.mem_append.mp hr with hr | hr
    · exact h.words r (by simp [hf, hr])
    · rcases List.mem_cons.mp hr with rfl | hr
      · exact hlen
      · exact h.words r (by simp [hf, hr])
  · intro l q t l' _ hl r hr
    rcases List.mem_append.mp hr with hr | hr
    · exact hl r (by simp [hr])
    · rcases List.mem_cons.mp hr with rfl | hr
      · exact (hl q (by simp)).add (hl t (by simp))
      · exact hl r (by simp [hr])

/-- One step from a state that holds a tidy arena leads to one that does. -/
theorem tidy_step {S : PageSupply σ} {s' : HeapState σ} {i : HeapEvent} (h : Holds s A) (ht : A.Tidy)
    (hok : WholeWords S s i) (hs : HeapCall S s i s') : ∃ A', Holds s' A' ∧ A'.Tidy := by
  cases hs with
  | allocate hsize hr =>
    obtain ⟨h0, hwrap, hroom⟩ := hok
    obtain ⟨A', ha, hA'⟩ := h.allocate h0 (by unfold pad; omega) (h.growthClear (by omega) hroom) hr
    refine ⟨A', hA', ?_⟩
    rcases ha with ha | ⟨-, rfl⟩
    · have hfirst := ht.firstPage
      have hOk : A.firstPage.Ok := by
        apply h.ok.firstPage
        cases ha with
        | fit => exact hA'.ok.hi
        | grow _ _ _ htop => exact Nat.le_trans (Nat.le_add_right ..) htop
        | fail htop => exact Nat.le_trans (Nat.le_add_right ..) htop
      cases ha with
      | fit hf _ _ => exact hfirst.carve (n := 0) hOk hf (.inl rfl)
      | grow hf _ _ _ => simpa only [List.append_nil] using hfirst.carve hOk hf (.inr rfl)
      | fail _ => exact ⟨hfirst.joined, hfirst.words⟩
    · exact ht
  | free hb hr =>
    rcases h.free hb hr with ⟨hnil, hA'⟩ | ⟨pre, n, post, hf, hpre, hpost, hA'⟩
    · exact ⟨_, hA', ht.joined, ht.words⟩
    · refine ⟨_, hA', ht.release h.ok hf (h.mem_live hb) hpre hpost ?_⟩
      have hfive := (h.ok.live_within (h.mem_live hb)).len
      rcases hok with hsize | h0
      · rw [Block.seg_len] at hfive ⊢
        exact ⟨by omega, by rw [sizeofMemorySegment]; omega⟩
      · rw [(h.heap.head_eq_zero h.ok).mp h0] at hf
        simp at hf

/-- The free list of a state that holds a tidy arena. -/
theorem Holds.freeListOk (h : Holds s A) (ht : A.Tidy) : FreeListOk s.heap := by
  have hlen : ∀ r ∈ A.free, s.heap.length r.addr = r.len := h.heap.lens
  have hmem {P : Nat → Prop} (hP : ∀ r ∈ A.free, P r.addr) : ∀ a ∈ A.free.map Seg.addr, P a := by
    intro a ha
    obtain ⟨r, hr, rfl⟩ := List.mem_map.mp ha
    exact hP r hr
  refine ⟨A.free.map Seg.addr, h.heap.chain, h.zero_not_mem, List.pairwise_map.mpr h.ok.sorted, ?_, ?_, ?_, ?_⟩
  · exact hmem fun r hr => (h.ok.free_within hr).aligned
  · exact hmem fun r hr => by
      rw [hlen r hr]
      exact (ht.words r hr).1
  · exact hmem fun r hr => by
      rw [hlen r hr]
      exact (ht.words r hr).2
  · refine List.pairwise_map.mpr ((h.ok.ordered.and ht.joined).imp_of_mem fun {r q} hr _ hrq => ?_)
    obtain ⟨hfin, hgap⟩ := hrq
    have hpad := le_pad r.len
    rw [hlen r hr]
    unfold Seg.fin at hfin
    omega

/-- In every state of a run that frees whole words only, the free list is in order. -/
theorem freeListOk_of_wholeWords (S : PageSupply σ) (s : HeapState σ)
    (h : (heapCalls S).Reachable (WholeWords S) s) : FreeListOk s.heap := by
  have hinv : ∃ A, Holds s A ∧ A.Tidy := h.invariant (I := fun s => ∃ A, Holds s A ∧ A.Tidy)
    (by rintro _ ⟨mem, supply, rfl⟩; exact ⟨_, holds_init mem supply, tidy_emptyArena⟩)
    fun s i s' ⟨A, hA, ht⟩ hok hs => tidy_step hA ht hok hs
  obtain ⟨A, hA, ht⟩ := hinv
  exact hA.freeListOk ht

/-- A block of 100 bytes comes and goes. -/
theorem freeListOk_of_wholeWords_first : ∃ s : HeapState Unit, s.live = [] ∧ s.heap.freeSegmentsHead = heapStart ∧
    FreeListOk s.heap := by
  have hrun : ((runEvent everyPage 8 emptyState (.allocate 100 (heapStart + 4))).bind fun s =>
      (runEvent everyPage 8 s (.free ⟨heapStart + 4, 100⟩)).map fun s' =>
        (s'.live, s'.heap.freeSegmentsHead)) = some ([], heapStart) := by decide +kernel
  obtain ⟨s, hs, hrun⟩ := Option.bind_eq_some_iff.mp hrun
  obtain ⟨s', hs', he⟩ := Option.map_eq_some_iff.mp hrun
  obtain ⟨hlive, hhead⟩ := Prod.mk.inj he
  refine ⟨s', hlive, hhead, freeListOk_of_wholeWords everyPage s' ?_⟩
  have hfirst : (heapCalls everyPage).Reachable (WholeWords everyPage) s :=
    .step (s := emptyState) (i := .allocate 100 (heapStart + 4)) (.init ⟨_, _, rfl⟩)
      ⟨by decide, by decide, growthRoom_of_no_live rfl⟩ (runEvent_step hs).call
  exact .step (i := .free ⟨heapStart + 4, 100⟩) hfirst (.inl (by decide)) (runEvent_step hs').call

/-- A freed block of 1 byte is a segment of 5. -/
theorem freeListOk_fails : ¬ ∀ (S : PageSupply Unit) (s : HeapState Unit),
    (heapCalls S).Reachable (fun _ _ => True) s → FreeListOk s.heap := by
  intro hall
  have hrun : ((runEvent everyPage 8 emptyState (.allocate 1 (heapStart + 4))).bind fun s =>
      (runEvent everyPage 8 s (.free ⟨heapStart + 4, 1⟩)).map fun s' =>
        (s'.heap.freeSegmentsHead, s'.heap.length heapStart)) = some (heapStart, 5) := by decide +kernel
  obtain ⟨s, hs, hrun⟩ := Option.bind_eq_some_iff.mp hrun
  obtain ⟨s', hs', he⟩ := Option.map_eq_some_iff.mp hrun
  obtain ⟨hhead, hlen⟩ := Prod.mk.inj he
  have hreach : (heapCalls everyPage).Reachable (fun _ _ => True) s' :=
    .step (i := .free ⟨heapStart + 4, 1⟩) (.step (s := emptyState) (i := .allocate 1 (heapStart + 4)) (.init ⟨_, _, rfl⟩)
      trivial (runEvent_step hs).call) trivial (runEvent_step hs').call
  obtain ⟨l, hl⟩ := hall everyPage s' hreach
  have hmem : heapStart ∈ l := by
    have hchain := hl.chain
    rw [hhead] at hchain
    cases l with
    | nil => exact absurd hchain (show heapStart ≠ 0 by decide)
    | cons a l =>
      rw [hchain.1]
      exact List.mem_cons_self
  have hwords := hl.words heapStart hmem
  rw [hlen] at hwords
  exact absurd hwords (by decide)

end OSForReal.Proof.Heap
