import OSForReal.Proof.Heap.FreeReturns

/-!
# Conservation of the heap

`WholeHeap`: the free list is one segment with all committed bytes. Once every
block is freed it holds at the end of every run in which no allocation leaves
bytes unused (`ExactFit`) and every block is freed while a free segment lies
above it; those frees return. Without either, bytes are lost: the header keeps
the unrounded size and forgets the 4 bytes that are too few for a
`Memory_Segment`, `memory_free` on an empty free list forgets the block, and
above every free segment it never returns.
-/

namespace OSForReal.Proof.Heap

open Framework (Res Chain Reaches System)
open OSForReal.Heap

variable {σ : Type}

/-- The free list is one segment that has all of the committed heap. -/
structure WholeHeap (h : Heap σ) : Prop where
  head : h.freeSegmentsHead = heapStart
  next : h.next heapStart = 0
  length : h.length heapStart = heapEnd h - heapStart

/-- The length of a segment of `len` bytes after growing to hold `t`. -/
def grownLength (t len : Nat) : Nat := len + pageSize * pagesFor t len

/-- A segment of `len` bytes, from which `t` are taken, leaves nothing or a `Memory_Segment`. -/
def NoSlack (t len : Nat) : Prop := len = t ∨ t + sizeofMemorySegment ≤ len

/-- A block of `size` bytes leaves no byte unused: its size is a whole number of
words, and so is what is left of the segment it is taken from. That is the first
free segment that is long enough, or else the last one, which then ends where
the next page begins, or a fresh page, each grown as far as it takes. -/
structure ExactFit (h : Heap σ) (size : Nat) : Prop where
  words : size % 4 = 0
  small : size + 12 < 2 ^ 32
  first : ∀ l a, Chain h.mem h.freeSegmentsHead l a → 0 ∉ l → a ≠ 0 → (∀ r ∈ l, h.length r < size + 4) →
    size + 4 ≤ h.length a → NoSlack (size + 4) (h.length a)
  last : ∀ a, OnFreeList h a → h.next a = 0 → (∀ r, OnFreeList h r → h.length r < size + 4) →
    a + h.length a = heapEnd h ∧ NoSlack (size + 4) (grownLength (size + 4) (h.length a))
  fresh : h.freeSegmentsHead = 0 → NoSlack (size + 4) (grownLength (size + 4) pageSize)

/-- Successful allocations. -/
def Succeeds (_ : HeapState σ) : HeapEvent → Prop
  | .allocate _ ptr => ptr ≠ 0
  | .free _ => True

/-- Successful allocations that fit exactly, and frees of blocks below a free segment. -/
def LosesNothing (s : HeapState σ) : HeapEvent → Prop
  | .allocate size ptr => ptr ≠ 0 ∧ ExactFit s.heap size
  | .free b => ∃ a, OnFreeList s.heap a ∧ b.ptr < a

/-- An arena all of whose bytes are counted, with no free segments that touch. -/
structure Arena.Full (A : Arena) : Prop where
  total : A.total = A.top - heapStart
  joined : A.Joined

theorem full_emptyArena : emptyArena.Full := ⟨by decide, by simp [Arena.Joined, emptyArena]⟩

theorem pad_eq {n : Nat} (h : n % 4 = 0) : pad n = n := by
  unfold pad
  omega

theorem grownLength_of_le {t len : Nat} (h : t ≤ len) : grownLength t len = len := by
  simp only [grownLength, pagesFor, pageSize]
  omega

variable {s : HeapState σ} {A : Arena}

/-- The first page keeps an arena full. -/
theorem Arena.Full.firstPage (h : A.Full) (hA : A.Ok) : A.firstPage.Full := by
  by_cases hnil : A.free = []
  · rw [Arena.firstPage_nil hnil]
    refine ⟨?_, List.pairwise_singleton ..⟩
    have ht := h.total
    have hlo := hA.lo
    simp only [Arena.total, hnil, List.nil_append] at ht
    simp only [Arena.total, List.cons_append, List.nil_append, List.map_cons, List.sum_cons, ht]
    omega
  · rwa [Arena.firstPage_cons hnil]

/-- Taking a block that leaves no byte unused keeps an arena full. -/
theorem Arena.Full.carve {pre post : List Seg} {x : Seg} {size n : Nat} (h : A.Full) (hA : A.Ok)
    (hf : A.free = pre ++ x :: post) (hpost : n = 0 ∨ post = [])
    (hfit : NoSlack (size + 4) (x.len + pageSize * n)) :
    Arena.Full ⟨pre ++ remainder x.addr (x.len + pageSize * n) (size + 4) ++ post, ⟨x.addr, size + 4⟩ :: A.live,
      A.top + pageSize * n⟩ := by
  refine ⟨?_, hA.joined_carve h.joined hf ?_ (by omega)⟩
  · have hlo := hA.lo
    rw [Arena.Ok.total_carve hf (Nat.le_add_right ..) hfit.symm, h.total, Nat.add_sub_cancel_left]
    exact (Nat.sub_add_comm hlo).symm
  · rcases hpost with rfl | rfl
    · exact .inl rfl
    · exact .inr rfl

/-- The segment that a block is taken from leaves nothing unused. -/
theorem Holds.noSlack_first {pre post : List Seg} {x : Seg} {size : Nat} (h : Holds s A)
    (hfit : ExactFit s.heap size) (hf : A.firstPage.free = pre ++ x :: post) (hpre : ∀ r ∈ pre, r.len < size + 4)
    (hx : size + 4 ≤ x.len) : NoSlack (size + 4) x.len := by
  by_cases hnil : A.free = []
  · rw [Arena.firstPage_nil hnil] at hf
    have hx' : x ∈ [(⟨A.top, pageSize⟩ : Seg)] := by rw [show [(⟨A.top, pageSize⟩ : Seg)] = _ from hf]; simp
    obtain rfl := List.mem_singleton.mp hx'
    have := hfit.fresh ((h.heap.head_eq_zero h.ok).mpr hnil)
    rwa [grownLength_of_le hx] at this
  · rw [Arena.firstPage_cons hnil] at hf
    have hmem : ∀ r ∈ pre ++ x :: post, s.heap.length r.addr = r.len := fun r hr => h.heap.lens r (hf ▸ hr)
    have hc := h.heap.chain
    rw [hf, List.map_append, Chain.append_iff] at hc
    obtain ⟨a, hc, hxc⟩ := hc
    obtain rfl : a = x.addr := hxc.1
    rw [← hmem x (by simp)] at hx ⊢
    have h0 : 0 ∉ pre.map Seg.addr := fun h0 => h.zero_not_mem (by simp [hf, List.mem_map.mp h0])
    refine hfit.first _ _ hc h0 (h.ok.free_within (s := x) (by simp [hf])).pos.ne' (fun r hr => ?_) hx
    obtain ⟨q, hq, rfl⟩ := List.mem_map.mp hr
    rw [hmem q (by simp [hq])]
    exact hpre q hq

/-- The last free segment ends where the next page begins, and leaves nothing unused when grown. -/
theorem Holds.last {pre : List Seg} {x : Seg} {size : Nat} (h : Holds s A) (hfit : ExactFit s.heap size)
    (hf : A.free = pre ++ [x]) (hall : ∀ r ∈ A.free, r.len < size + 4) :
    x.addr + x.len = A.top ∧ NoSlack (size + 4) (grownLength (size + 4) x.len) := by
  have hx : x ∈ A.free := by simp [hf]
  rw [← h.heapEnd_eq, ← h.heap.lens x hx]
  refine hfit.last x.addr (h.onFreeList.mpr ⟨x, hx, rfl⟩) (h.next_last hf) fun r hr => ?_
  obtain ⟨q, hq, rfl⟩ := h.onFreeList.mp hr
  rw [h.heap.lens q hq]
  exact hall q hq

/-- A segment that ends where the next page begins grows into no live block. -/
theorem Holds.growthClear_of_exactFit {S : PageSupply σ} {size : Nat} (h : Holds s A) (hfit : ExactFit s.heap size) :
    GrowthClear S s.heap A size := by
  intro pre x hf hall _ b hb
  have hpad : pad (size + 4) = size + 4 := pad_eq (by have := hfit.words; omega)
  have hx : x ∈ A.free := by simp [hf]
  obtain ⟨htop, -⟩ := h.last hfit hf (hpad ▸ hall)
  have hbw := h.ok.live_within hb
  have hb8 := hbw.words
  have hbtop := hbw.hi
  have hbl := le_pad b.len; have hxl := le_pad x.len
  left
  rcases h.ok.free_live_apart hx hb with h' | h' <;> simp only [Seg.fin] at * <;> omega

/-- Neither call loses bytes. -/
theorem full_step {S : PageSupply σ} {s' : HeapState σ} {i : HeapEvent} (h : Holds s A) (hfull : A.Full)
    (hok : LosesNothing s i) (hs : HeapStep S s i s') :
    ∃ A', Holds s' A' ∧ A'.Full ∧ heapStart < A'.top := by
  cases hs with
  | @allocate size p _ h' h0 hsize hr =>
    obtain ⟨hp, hfit⟩ := hok
    have hpad : pad (size + 4) = size + 4 := pad_eq (by have := hfit.words; omega)
    have hsmall := hfit.small
    obtain ⟨A', ha, hA'⟩ := h.allocate h0 (by omega) (h.growthClear_of_exactFit hfit) hr
    have hlo : ∀ x n, (⟨x, n⟩ : Seg) ∈ A'.live → heapStart < A'.top := fun x n hx => by
      have hw := hA'.ok.live_within hx
      have hw8 := hw.words
      have := hw.lo; have := hw.hi
      omega
    rcases ha with ha | ⟨rfl, rfl⟩
    · have hf₁ := hfull.firstPage h.ok
      cases ha with
      | @fit pre post x hf hpre hx =>
        have hA₁ : A.firstPage.Ok := h.ok.firstPage hA'.ok.hi
        rw [hpad] at hpre hx hA' hlo
        have hcarve := hf₁.carve hA₁ hf (n := 0) (.inl rfl) (h.noSlack_first hfit hf hpre hx)
        exact ⟨_, hA', hcarve, hlo x.addr _ List.mem_cons_self⟩
      | @grow pre x n hf hall hn htop =>
        have hA₁ : A.firstPage.Ok := h.ok.firstPage (Nat.le_trans (Nat.le_add_right ..) hA'.ok.hi)
        rw [hpad] at hall hn hA' hlo
        have hslack : NoSlack (size + 4) (x.len + pageSize * n) := by
          subst hn
          by_cases hnil : A.free = []
          · rw [Arena.firstPage_nil hnil] at hf
            obtain rfl : x = ⟨A.top, pageSize⟩ := by
              have hx : x ∈ [(⟨A.top, pageSize⟩ : Seg)] := by
                rw [show [(⟨A.top, pageSize⟩ : Seg)] = _ from hf]; simp
              exact List.mem_singleton.mp hx
            exact hfit.fresh ((h.heap.head_eq_zero h.ok).mpr hnil)
          · rw [Arena.firstPage_cons hnil] at hf hall
            exact (h.last hfit hf hall).2
        have hcarve := hf₁.carve hA₁ hf (.inr rfl) hslack
        rw [List.append_nil] at hcarve
        exact ⟨_, hA', hcarve, hlo x.addr _ List.mem_cons_self⟩
      | fail => exact absurd rfl hp
    · exact absurd rfl hp
  | @free b _ h' hb hr =>
    have hlo : heapStart < A.top := by
      have hw := h.ok.live_within (h.mem_live hb)
      have hw8 := hw.words
      have := hw.lo; have := hw.hi
      omega
    rcases h.free hb hr with ⟨hnil, -⟩ | ⟨pre, n, post, hf, hpre, hpost, hA'⟩
    · obtain ⟨a, ha, -⟩ := hok
      obtain ⟨r, hr, -⟩ := h.onFreeList.mp ha
      rw [hnil] at hr
      cases hr
    · refine ⟨_, hA', ⟨?_, h.ok.joined_release hfull.joined hf (h.mem_live hb) hpre hpost⟩, hlo⟩
      rw [Arena.Ok.total_release hf (h.mem_live hb)]
      exact hfull.total

/-- A state with no live blocks that holds a full arena. -/
theorem Holds.whole (h : Holds s A) (hfull : A.Full) (htop : heapStart < A.top) (hlive : s.live = []) :
    WholeHeap s.heap := by
  have hl : A.live = [] := by
    have := h.live
    rw [hlive] at this
    exact this.symm.eq_nil
  have hf := h.ok.tiled hfull.joined hl hfull.total htop
  have hc := h.heap.chain
  rw [hf] at hc
  refine ⟨hc.1, hc.2, ?_⟩
  rw [h.heapEnd_eq]
  exact h.heap.lens ⟨heapStart, A.top - heapStart⟩ (by simp [hf])

/-- In every run whose steps lose nothing the frees return, and at its end, with no
block live, the free list is one segment of all committed bytes. -/
theorem wholeHeap_of_losesNothing (S : PageSupply σ) (s : HeapState σ)
    (h : (heapSystem S).Reachable LosesNothing s) :
    (∀ b ∈ s.live, LosesNothing s (.free b) → FreeReturns s.heap b) ∧
      ∀ i s', LosesNothing s i → HeapStep S s i s' → s'.live = [] → WholeHeap s'.heap := by
  have hinv : ∃ A, Holds s A ∧ A.Full := h.invariant (I := fun s => ∃ A, Holds s A ∧ A.Full)
    (by rintro _ ⟨mem, supply, rfl⟩; exact ⟨_, holds_init mem supply, full_emptyArena⟩)
    fun s i s' ⟨A, hA, hf⟩ hok hs => by
      obtain ⟨A', hA', hf', -⟩ := full_step hA hf hok hs
      exact ⟨A', hA', hf'⟩
  obtain ⟨A, hA, hf⟩ := hinv
  refine ⟨fun b hb hok => (hA.freeReturns_iff hb).mpr (.inr hok), fun i s' hok hs hlive => ?_⟩
  obtain ⟨A', hA', hf', htop⟩ := full_step hA hf hok hs
  exact hA'.whole hf' htop hlive

/-- On an empty free list only a fresh page counts. -/
theorem exactFit_of_empty {h : Heap σ} {size : Nat} (hempty : h.freeSegmentsHead = 0) (hwords : size % 4 = 0)
    (hsmall : size + 12 < 2 ^ 32) (hfit : NoSlack (size + 4) (grownLength (size + 4) pageSize)) : ExactFit h size where
  words := hwords
  small := hsmall
  first := by
    intro l a hc h0 ha
    rw [hempty] at hc
    cases l with
    | nil => exact absurd hc.symm ha
    | cons x l => exact absurd (hc.1 ▸ List.mem_cons_self) h0
  last := by
    rintro a ⟨l, hc, h0, ha⟩
    rw [hempty] at hc
    cases l with
    | nil => exact absurd hc.symm ha
    | cons x l => exact absurd (hc.1 ▸ List.mem_cons_self) h0
  fresh _ := hfit

/-- A block that the head of the free list has room for is taken from there. -/
theorem exactFit_of_head {h : Heap σ} {size : Nat} (h0 : h.freeSegmentsHead ≠ 0) (hwords : size % 4 = 0)
    (hsmall : size + 12 < 2 ^ 32) (hle : size + 4 ≤ h.length h.freeSegmentsHead)
    (hfit : NoSlack (size + 4) (h.length h.freeSegmentsHead)) : ExactFit h size where
  words := hwords
  small := hsmall
  first := by
    intro l a hc hl ha hshort _
    cases l with
    | nil => rwa [← show h.freeSegmentsHead = a from hc]
    | cons x l =>
      have hx := hshort x List.mem_cons_self
      rw [← hc.1] at hx
      omega
  last := by
    intro a _ _ hall
    have hhead := hall _ (Reaches.start h0)
    omega
  fresh hempty := absurd hempty h0

/-- Two blocks of the first page, freed in the order of their allocation. -/
theorem wholeHeap_of_losesNothing_first : ∃ s s' : HeapState Unit, s.live = [⟨heapStart + 108, 200⟩] ∧
    FreeReturns s.heap ⟨heapStart + 108, 200⟩ ∧ HeapStep everyPage s (.free ⟨heapStart + 108, 200⟩) s' ∧
      s'.live = [] ∧ WholeHeap s'.heap := by
  have hrun : ((runEvent everyPage 8 emptyState (.allocate 100 (heapStart + 4))).bind fun s₁ =>
      (runEvent everyPage 8 s₁ (.allocate 200 (heapStart + 108))).bind fun s₂ =>
        (runEvent everyPage 8 s₂ (.free ⟨heapStart + 4, 100⟩)).bind fun s =>
          (runEvent everyPage 8 s (.free ⟨heapStart + 108, 200⟩)).map fun s' =>
            ([s₁.heap.freeSegmentsHead, s₁.heap.length s₁.heap.freeSegmentsHead, s₂.heap.freeSegmentsHead,
              s.heap.freeSegmentsHead, s.heap.next heapStart], s.live, s'.live)) =
      some ([heapStart + 104, 3992, heapStart + 308, heapStart, heapStart + 308], [⟨heapStart + 108, 200⟩], []) := by
    decide +kernel
  obtain ⟨s₁, hs₁, hrun⟩ := Option.bind_eq_some_iff.mp hrun
  obtain ⟨s₂, hs₂, hrun⟩ := Option.bind_eq_some_iff.mp hrun
  obtain ⟨s, hs, hrun⟩ := Option.bind_eq_some_iff.mp hrun
  obtain ⟨s', hs', he⟩ := Option.map_eq_some_iff.mp hrun
  simp only [Prod.mk.injEq, List.cons.injEq, and_true] at he
  obtain ⟨⟨hhead₁, hlen₁, hhead₂, hhead, hnext⟩, hlive, hlive'⟩ := he
  have hok₁ : LosesNothing emptyState (.allocate 100 (heapStart + 4)) :=
    ⟨by decide, exactFit_of_empty rfl rfl (by decide) (.inr (by decide))⟩
  have hok₂ : LosesNothing s₁ (.allocate 200 (heapStart + 108)) :=
    ⟨by decide, exactFit_of_head (by rw [hhead₁]; decide) rfl (by decide) (by rw [hlen₁]; decide)
      (.inr (by rw [hlen₁]; decide))⟩
  have hok : LosesNothing s₂ (.free ⟨heapStart + 4, 100⟩) := by
    refine ⟨heapStart + 308, ?_, by decide⟩
    rw [← hhead₂]
    exact Reaches.start (by rw [hhead₂]; decide)
  have hok' : LosesNothing s (.free ⟨heapStart + 108, 200⟩) := by
    refine ⟨heapStart + 308, ?_, by decide⟩
    have hstart : OnFreeList s.heap s.heap.freeSegmentsHead := Reaches.start (by rw [hhead]; decide)
    rw [hhead] at hstart
    have hon := Reaches.step hstart (by rw [show s.heap.mem heapStart = heapStart + 308 from hnext]; decide)
    rwa [show s.heap.mem heapStart = heapStart + 308 from hnext] at hon
  have hreach : (heapSystem everyPage).Reachable LosesNothing s :=
    .step (.step (.step (reachable_emptyState _) hok₁ (runEvent_step hs₁)) hok₂ (runEvent_step hs₂)) hok
      (runEvent_step hs)
  obtain ⟨hreturns, hwhole⟩ := wholeHeap_of_losesNothing everyPage s hreach
  exact ⟨s, s', hlive, hreturns _ (by rw [hlive]; exact List.mem_cons_self) hok', runEvent_step hs', hlive',
    hwhole _ _ hok' (runEvent_step hs') hlive'⟩

/-- The header of a block of 1 byte says 5 bytes, of the 8 that the block took. -/
theorem wholeHeap_fails : ¬ ∀ (S : PageSupply Unit) (s s' : HeapState Unit) (i : HeapEvent),
    (heapSystem S).Reachable Succeeds s → Succeeds s i → HeapStep S s i s' → s'.live = [] →
      WholeHeap s'.heap := by
  intro hall
  have hrun : ((runEvent everyPage 8 emptyState (.allocate 1 (heapStart + 4))).bind fun s =>
      (runEvent everyPage 8 s (.free ⟨heapStart + 4, 1⟩)).map fun s' =>
        (s'.live, s'.heap.freeSegmentsHead, s'.heap.next heapStart)) = some ([], heapStart, heapStart + 8) := by
    decide +kernel
  obtain ⟨s, hs, hrun⟩ := Option.bind_eq_some_iff.mp hrun
  obtain ⟨s', hs', he⟩ := Option.map_eq_some_iff.mp hrun
  simp only [Prod.mk.injEq] at he
  obtain ⟨hlive, -, hnext⟩ := he
  have h₁ : (heapSystem everyPage).Reachable Succeeds s :=
    .step (i := .allocate 1 (heapStart + 4)) (reachable_emptyState _)
      (show heapStart + 4 ≠ 0 by decide) (runEvent_step hs)
  have hwhole := hall everyPage s s' (.free ⟨heapStart + 4, 1⟩) h₁ trivial (runEvent_step hs') hlive
  rw [hwhole.next] at hnext
  exact absurd hnext (by decide)

end OSForReal.Proof.Heap
