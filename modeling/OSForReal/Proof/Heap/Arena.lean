import Mathlib.Data.List.Perm.Basic
import Mathlib.Tactic.Common
import OSForReal.Std.Memory

/-!
# Arenas: what the heap is for

An `Arena` is the heap without its memory: the free segments in order of
address, the live blocks and the address `top` behind the last committed
page. A segment or block occupies its bytes rounded up to whole words
(`Seg.fin`), and `Arena.Ok` says that no two of them overlap, that they lie in
`[heapStart, top)` and that the free ones ascend.

`Ok.carve`, `Ok.insert` and `Ok.merge` are the three changes that
`memory_allocate` and `memory_free` are made of.
-/

namespace OSForReal.Proof.Heap

/-- A length rounded up to whole words. -/
def pad (n : Nat) : Nat := (n + 3) / 4 * 4

theorem le_pad (n : Nat) : n ≤ pad n := by unfold pad; omega

/-- A free segment (its address and length) or a live block (the address and
value of its header). -/
structure Seg where
  addr : Nat
  len : Nat
deriving DecidableEq, Repr

/-- The end of the words of a segment. -/
def Seg.fin (s : Seg) : Nat := s.addr + pad s.len

/-- The words of two segments do not overlap. -/
def Seg.Apart (s t : Seg) : Prop := s.fin ≤ t.addr ∨ t.fin ≤ s.addr

theorem Seg.Apart.symm {s t : Seg} (h : s.Apart t) : t.Apart s := Or.symm h

instance : Std.Symm Seg.Apart := ⟨fun _ _ => Seg.Apart.symm⟩

/-- The free segments, the live blocks and the end of the committed pages. -/
structure Arena where
  free : List Seg
  live : List Seg
  top : Nat

/-- A segment within the committed heap: aligned, and with room for a header. -/
structure Seg.Within (top : Nat) (s : Seg) : Prop where
  lo : heapStart ≤ s.addr
  hi : s.fin ≤ top
  aligned : s.addr % 4 = 0
  len : 5 ≤ s.len

theorem Seg.Within.mono {top top' : Nat} {s : Seg} (h : s.Within top) (ht : top ≤ top') : s.Within top' :=
  ⟨h.lo, Nat.le_trans h.hi ht, h.aligned, h.len⟩

theorem Seg.Within.words {top : Nat} {s : Seg} (h : s.Within top) : s.addr + 8 ≤ s.fin := by
  have := h.len
  unfold Seg.fin pad; omega

theorem Seg.Within.pos {top : Nat} {s : Seg} (h : s.Within top) : 0 < s.addr :=
  Nat.lt_of_lt_of_le (by decide) h.lo

/-- Nothing of the heap overlaps, and all of it is committed. -/
structure Arena.Ok (A : Arena) : Prop where
  within : ∀ s ∈ A.free ++ A.live, s.Within A.top
  apart : (A.free ++ A.live).Pairwise Seg.Apart
  sorted : A.free.Pairwise (·.addr < ·.addr)
  lo : heapStart ≤ A.top
  hi : A.top ≤ 2 ^ 32
  page : A.top % pageSize = 0

/-- What is left of a segment of `L` bytes at `a` when `t` of them are taken off
its front: less than a `Memory_Segment` is left unused. -/
def remainder (a L t : Nat) : List Seg := if t + 8 ≤ L then [⟨a + t, L - t⟩] else []

/-- The bytes of a segment of `L` bytes that taking `t` of them uses or leaves on
the free list. -/
def claimed (L t : Nat) : Nat := if t + 8 ≤ L then L else t

namespace Arena.Ok

variable {A : Arena}

theorem free_within (h : A.Ok) {s : Seg} (hs : s ∈ A.free) : s.Within A.top :=
  h.within s (List.mem_append_left _ hs)

theorem live_within (h : A.Ok) {s : Seg} (hs : s ∈ A.live) : s.Within A.top :=
  h.within s (List.mem_append_right _ hs)

theorem free_live_apart (h : A.Ok) {s b : Seg} (hs : s ∈ A.free) (hb : b ∈ A.live) : s.Apart b :=
  (List.pairwise_append.mp h.apart).2.2 s hs b hb

/-- A free segment that starts below a block ends before it. -/
theorem fin_le_block (h : A.Ok) {s b : Seg} (hs : s ∈ A.free) (hb : b ∈ A.live) (hlt : s.addr < b.addr) :
    s.fin ≤ b.addr := by
  have hw := (h.live_within hb).words
  rcases h.free_live_apart hs hb with h' | h'
  · exact h'
  · omega

/-- A block that starts below a free segment ends before it. -/
theorem block_fin_le (h : A.Ok) {s b : Seg} (hs : s ∈ A.free) (hb : b ∈ A.live) (hlt : b.addr < s.addr) :
    b.fin ≤ s.addr := by
  have hw := (h.free_within hs).words
  rcases h.free_live_apart hs hb with h' | h'
  · omega
  · exact h'

theorem live_addr_lt (h : A.Ok) {b : Seg} (hb : b ∈ A.live) : b.addr < 2 ^ 32 := by
  have hw := (h.live_within hb).words
  have hhi := (h.live_within hb).hi
  have htop := h.hi
  omega

/-- A free segment is apart from all the others. -/
theorem split {pre post : List Seg} {s : Seg} (h : A.Ok) (hf : A.free = pre ++ s :: post) :
    (∀ r ∈ pre ++ post ++ A.live, s.Apart r) ∧ (pre ++ post ++ A.live).Pairwise Seg.Apart := by
  have hp : (A.free ++ A.live).Perm (s :: (pre ++ post ++ A.live)) := by
    rw [hf]; simp only [List.append_assoc, List.cons_append]; exact List.perm_middle
  exact List.pairwise_cons.mp ((hp.pairwise_iff fun h => h.symm).mp h.apart)

/-- The free segments lie one after the other. -/
theorem ordered (h : A.Ok) : A.free.Pairwise fun s t => s.fin ≤ t.addr := by
  have ha := (List.pairwise_append.mp h.apart).1
  refine (h.sorted.and ha).imp_of_mem fun {s t} _ ht hst => ?_
  rcases hst.2 with h' | h'
  · exact h'
  · have := (h.free_within ht).words
    omega

/-- The free segments before and after one of them. -/
theorem split_ordered {pre post : List Seg} {s : Seg} (h : A.Ok) (hf : A.free = pre ++ s :: post) :
    (∀ r ∈ pre, r.fin ≤ s.addr) ∧ ∀ r ∈ post, s.fin ≤ r.addr := by
  have ho := h.ordered
  rw [hf, List.pairwise_append, List.pairwise_cons] at ho
  exact ⟨fun r hr => ho.2.2 r hr s List.mem_cons_self, ho.2.1.1⟩

/-! ## The changes of an arena -/

/-- The segments `rest` in place of the free segments `mid`, and new live blocks. -/
theorem replace {pre mid post : List Seg} {top : Nat} (h : A.Ok) (rest new : List Seg) (hf : A.free = pre ++ mid ++ post)
    (htop : A.top ≤ top) (hhi : top ≤ 2 ^ 32) (hpage : top % pageSize = 0) (hin : ∀ r ∈ rest ++ new, r.Within top)
    (hapart : (rest ++ new).Pairwise Seg.Apart) (hclear : ∀ q ∈ rest ++ new, ∀ r ∈ pre ++ post ++ A.live, q.Apart r)
    (hsorted : rest.Pairwise fun s t => s.addr < t.addr) (hpre : ∀ r ∈ pre, ∀ q ∈ rest, r.addr < q.addr)
    (hpost : ∀ q ∈ rest, ∀ r ∈ post, q.addr < r.addr) : Arena.Ok ⟨pre ++ rest ++ post, new ++ A.live, top⟩ := by
  have hsub : (pre ++ post ++ A.live).Sublist (A.free ++ A.live) := by
    rw [hf]
    exact ((List.sublist_append_left pre mid).append_right post).append_right A.live
  have hperm : (rest ++ new ++ (pre ++ post ++ A.live)).Perm (pre ++ rest ++ post ++ (new ++ A.live)) := by
    simp only [List.append_assoc]
    refine List.Perm.trans (List.Perm.append_left rest ?_) (List.perm_append_comm_assoc rest pre _)
    exact (List.perm_append_comm_assoc new pre _).trans ((List.perm_append_comm_assoc new post _).append_left pre)
  have hord := h.sorted
  rw [hf, List.pairwise_append, List.pairwise_append] at hord
  obtain ⟨⟨hprepre, -, -⟩, hpostpost, hprepost⟩ := hord
  refine ⟨fun r hr => ?_, (hperm.pairwise_iff fun h => h.symm).mp ?_, ?_, Nat.le_trans h.lo htop, hhi, hpage⟩
  · rcases List.mem_append.mp (hperm.mem_iff.mpr hr) with hr | hr
    · exact hin r hr
    · exact (h.within r (hsub.subset hr)).mono htop
  · exact List.pairwise_append.mpr ⟨hapart, h.apart.sublist hsub, hclear⟩
  · refine List.pairwise_append.mpr ⟨List.pairwise_append.mpr ⟨hprepre, hsorted, hpre⟩, hpostpost, fun r hr q hq => ?_⟩
    rcases List.mem_append.mp hr with hr | hr
    · exact hprepost r (List.mem_append_left _ hr) q hq
    · exact hpost r hr q hq

/-- Taking a block of `size` bytes off the front of a free segment, of which
`L` bytes from its address on are clear of everything else. -/
theorem carve {pre post : List Seg} {s : Seg} {L t size top : Nat} (h : A.Ok)
    (hf : A.free = pre ++ s :: post) (ht : t = pad (size + 4)) (hsize : 1 ≤ size) (htL : t ≤ L)
    (htop : A.top ≤ top) (hhi : top ≤ 2 ^ 32) (hpage : top % pageSize = 0) (hfin : s.addr + pad L ≤ top)
    (hclear : ∀ r ∈ pre ++ post ++ A.live, r.fin ≤ s.addr ∨ s.addr + pad (claimed L t) ≤ r.addr) :
    Arena.Ok ⟨pre ++ remainder s.addr L t ++ post, ⟨s.addr, size + 4⟩ :: A.live, top⟩ := by
  have hf' : A.free = pre ++ [s] ++ post := by simp [hf]
  have hs : s.Within A.top := h.free_within (by simp [hf])
  have hL := le_pad L
  have ht8 : 8 ≤ t ∧ t % 4 = 0 := by unfold pad at ht; omega
  have hpt : t ≤ pad (claimed L t) := by
    unfold claimed
    split <;> exact Nat.le_trans (by omega) (le_pad _)
  have hb : Seg.Within top ⟨s.addr, size + 4⟩ :=
    ⟨hs.lo, by simp only [Seg.fin, ← ht]; omega, hs.aligned, by simp only; omega⟩
  have hbclear : ∀ r ∈ pre ++ post ++ A.live, Seg.Apart ⟨s.addr, size + 4⟩ r := fun r hr => by
    rcases hclear r hr with h' | h'
    · exact .inr h'
    · exact .inl (by simp only [Seg.fin, ← ht]; omega)
  by_cases hsplit : t + 8 ≤ L
  · -- The remainder of the segment takes its place.
    simp only [claimed, hsplit, ↓reduceIte] at hclear
    simp only [remainder, hsplit, ↓reduceIte]
    have hr : Seg.Within top ⟨s.addr + t, L - t⟩ := by
      have := hs.lo; have := hs.aligned
      refine ⟨by simp only; omega, ?_, by simp only; omega, by simp only; omega⟩
      simp only [Seg.fin, pad] at hfin ⊢; omega
    have hrfin : s.addr + t + pad (L - t) = s.addr + pad L := by unfold pad; omega
    have hrclear : ∀ r ∈ pre ++ post ++ A.live, Seg.Apart ⟨s.addr + t, L - t⟩ r := fun r hr => by
      rcases hclear r hr with h' | h'
      · exact .inr (by simp only; omega)
      · exact .inl (by simp only [Seg.fin]; omega)
    have hrb : Seg.Apart ⟨s.addr + t, L - t⟩ ⟨s.addr, size + 4⟩ := .inr (by simp [Seg.fin, ← ht])
    have hord := h.sorted
    rw [hf, List.pairwise_append, List.pairwise_cons] at hord
    obtain ⟨-, ⟨hspost, -⟩, hprepost⟩ := hord
    refine h.replace [⟨s.addr + t, L - t⟩] [⟨s.addr, size + 4⟩] hf' htop hhi hpage ?_ (by simpa using hrb) ?_
      (List.pairwise_singleton ..) (fun r hr' q hq => ?_) fun q hq r hr' => ?_
    · simpa using ⟨hr, hb⟩
    · simpa only [List.cons_append, List.nil_append, List.forall_mem_cons, List.not_mem_nil, IsEmpty.forall_iff,
        implies_true, and_true] using ⟨hrclear, hbclear⟩
    · obtain rfl := List.mem_singleton.mp hq
      have := hprepost r hr' s List.mem_cons_self
      simp only; omega
    · obtain rfl := List.mem_singleton.mp hq
      have := hspost r hr'
      have := (h.free_within (s := r) (by simp [hf, hr'])).words
      rcases hclear r (by simp [hr']) with h' | h' <;> simp only <;> omega
  · -- Nothing of the segment stays on the free list.
    simp only [remainder, hsplit, ↓reduceIte]
    exact h.replace [] [⟨s.addr, size + 4⟩] hf' htop hhi hpage (by simpa using hb) (List.pairwise_singleton ..)
      (by simpa only [List.nil_append, List.forall_mem_cons, List.not_mem_nil, IsEmpty.forall_iff, implies_true,
        and_true] using hbclear) List.Pairwise.nil (by simp) (by simp)

/-- A page behind all the others becomes the only free segment. -/
theorem newPage (h : A.Ok) (hf : A.free = []) (htop : A.top + pageSize ≤ 2 ^ 32) :
    Arena.Ok ⟨[⟨A.top, pageSize⟩], A.live, A.top + pageSize⟩ := by
  have hpage := h.page
  have hfin : pad pageSize = pageSize := by decide
  have hp : Seg.Within (A.top + pageSize) ⟨A.top, pageSize⟩ :=
    ⟨h.lo, by simp only [Seg.fin, hfin]; exact Nat.le_refl _, by simp only [pageSize] at hpage ⊢; omega,
      show 5 ≤ pageSize by decide⟩
  have hclear : ∀ b ∈ A.live, Seg.Apart ⟨A.top, pageSize⟩ b := fun b hb => .inr (h.live_within hb).hi
  have hf' : A.free = [] ++ [] ++ [] := hf
  exact h.replace [⟨A.top, pageSize⟩] [] hf' (Nat.le_add_right ..) htop (by simpa using hpage)
    (by simpa using hp) (List.pairwise_singleton ..) (by simpa using hclear) (List.pairwise_singleton ..) (by simp) (by simp)

/-- Pages behind all the others, of which nothing is used. -/
theorem grow {n : Nat} (h : A.Ok) (htop : A.top + pageSize * n ≤ 2 ^ 32) :
    Arena.Ok ⟨A.free, A.live, A.top + pageSize * n⟩ :=
  ⟨fun s hs => (h.within s hs).mono (Nat.le_add_right ..), h.apart, h.sorted,
    Nat.le_trans h.lo (Nat.le_add_right ..), htop, by rw [Nat.add_mul_mod_self_left]; exact h.page⟩

/-- A live block becomes a free segment between those below and those above it. -/
theorem insert {pre post : List Seg} {b : Seg} (h : A.Ok) (hf : A.free = pre ++ post) (hb : b ∈ A.live)
    (hpre : ∀ r ∈ pre, r.addr < b.addr) (hpost : ∀ r ∈ post, b.addr < r.addr) :
    Arena.Ok ⟨pre ++ b :: post, A.live.erase b, A.top⟩ := by
  have hperm : (A.free ++ A.live).Perm (pre ++ b :: post ++ A.live.erase b) := by
    rw [hf]
    refine ((List.perm_cons_erase hb).append_left _).trans ?_
    refine List.perm_middle.trans ?_
    simp only [List.append_assoc, List.cons_append]
    exact List.perm_middle.symm
  have hs := h.sorted
  rw [hf, List.pairwise_append] at hs
  refine ⟨fun s hs' => h.within s (hperm.mem_iff.mpr hs'), (hperm.pairwise_iff fun h => h.symm).mp h.apart, ?_,
    h.lo, h.hi, h.page⟩
  refine List.pairwise_append.mpr ⟨hs.1, List.pairwise_cons.mpr ⟨hpost, hs.2.1⟩, fun r hr q hq => ?_⟩
  rcases List.mem_cons.mp hq with rfl | hq
  · exact hpre r hr
  · exact hs.2.2 r hr q hq

/-- Two free segments that touch become one. -/
theorem merge {pre post : List Seg} {s t : Seg} (h : A.Ok) (hf : A.free = pre ++ s :: t :: post)
    (hst : s.addr + s.len = t.addr) :
    Arena.Ok ⟨pre ++ ⟨s.addr, s.len + t.len⟩ :: post, A.live, A.top⟩ := by
  have hs : s.Within A.top := h.free_within (by simp [hf])
  have ht : t.Within A.top := h.free_within (by simp [hf])
  have hfin : Seg.fin ⟨s.addr, s.len + t.len⟩ = t.fin := by
    have := hs.aligned; have := ht.aligned
    simp only [Seg.fin, pad]; omega
  have hsr := (h.split hf).1
  have hf' : A.free = pre ++ [s] ++ t :: post := by simp [hf]
  have htr := (h.split hf').1
  have hmid : A.free = pre ++ [s, t] ++ post := by simp [hf]
  have hord := h.sorted
  simp only [hf, List.pairwise_append, List.pairwise_cons, List.mem_cons] at hord
  rw [List.append_cons]
  refine h.replace [⟨s.addr, s.len + t.len⟩] [] hmid (Nat.le_refl _) h.hi h.page ?_ (List.pairwise_singleton ..) ?_
    (List.pairwise_singleton ..) (fun r hr q hq => ?_) fun q hq r hr => ?_
  · have hlen := hs.len
    simpa using (⟨hs.lo, hfin ▸ ht.hi, hs.aligned, by simp only; omega⟩ : Seg.Within A.top ⟨s.addr, s.len + t.len⟩)
  · intro q hq r hr
    obtain rfl := List.mem_singleton.mp hq
    -- What is apart from both is before the first or behind the second: nothing lies in between.
    rcases htr r (by simp only [List.mem_append, List.mem_cons] at hr ⊢; tauto) with h' | h'
    · exact .inl (hfin ▸ h')
    · rcases hsr r (by simp only [List.mem_append, List.mem_cons] at hr ⊢; tauto) with h'' | h''
      · have := (h.within r (by simp only [hf, List.mem_append, List.mem_cons] at hr ⊢; tauto)).words
        have := hs.words
        have := hs.aligned; have := ht.aligned
        simp only [Seg.fin, pad] at *; omega
      · exact .inr h''
  · obtain rfl := List.mem_singleton.mp hq
    exact hord.2.2 r hr s (.inl rfl)
  · obtain rfl := List.mem_singleton.mp hq
    exact hord.2.1.1 r (.inr hr)

end Arena.Ok

end OSForReal.Proof.Heap
