import OSForReal.Framework.Chain
import OSForReal.Framework.Word
import OSForReal.Proof.Heap.Release

/-!
# The heap in memory

`Represents h A`: the memory and globals `h` hold the arena `A`. The free list
is the chain of `next` words from `free_segments_head` to 0, each segment's
length is in its second word, and each live block's header in its first.

`search_ok` and `neighbours_ok` say where the search loops of `memory_allocate`
and `memory_free` end; `pass_once` and `pass_diverges` that the second loop of
`memory_free` passes one segment, and never ends for a block above all of them.
-/

namespace OSForReal.Proof.Heap

open Framework (Res Chain)
open OSForReal.Heap

variable {σ : Type}

/-- The memory and globals `h` hold the arena `A`. -/
structure Represents (h : Heap σ) (A : Arena) : Prop where
  chain : Chain h.mem h.freeSegmentsHead (A.free.map Seg.addr) 0
  lens : ∀ s ∈ A.free, h.length s.addr = s.len
  headers : ∀ s ∈ A.live, h.mem s.addr = s.len
  page : h.nextPageVirtAddr = A.top % 2 ^ 32

/-- The address of the first segment, 0 if there is none. -/
def headAddr (l : List Seg) : Nat := (l.map Seg.addr).headD 0

@[simp] theorem headAddr_nil : headAddr [] = 0 := rfl
@[simp] theorem headAddr_cons (s : Seg) (l : List Seg) : headAddr (s :: l) = s.addr := rfl

/-- The addresses of the last two segments met, from `q` on. -/
def lastTwo : Nat × Nat → List Seg → Nat × Nat
  | q, [] => q
  | q, s :: l => lastTwo (q.2, s.addr) l

@[simp] theorem lastTwo_nil (q : Nat × Nat) : lastTwo q [] = q := rfl

theorem lastTwo_concat (q : Nat × Nat) (l : List Seg) (s : Seg) :
    lastTwo q (l ++ [s]) = ((lastTwo q l).2, s.addr) := by
  induction l generalizing q with
  | nil => rfl
  | cons t l ih => exact ih _

/-- The last segment met is one of the list. -/
theorem lastTwo_mem {l : List Seg} (hl : l ≠ []) : ∃ p ∈ l, (lastTwo (0, 0) l).2 = p.addr := by
  rcases List.eq_nil_or_concat l with rfl | ⟨l, p, rfl⟩
  · exact absurd rfl hl
  · rw [List.concat_eq_append, lastTwo_concat]
    exact ⟨p, by simp, rfl⟩

theorem alignForward_eq {n : Nat} (hn : n + 3 < 2 ^ 32) : alignForward n sizeofSizeT = pad n := by
  simp only [alignForward, sizeofSizeT, show n + 4 - 1 = n + 3 by omega, Nat.mod_eq_of_lt hn]
  have hmask : (n + 3) &&& (0xffffffff ^^^ (4 - 1)) = 4 * ((n + 3) / 4) :=
    @Framework.Word.land_clear_low (n + 3) 2 hn (by decide)
  rw [hmask, pad, Nat.mul_comm]

/-! ## Where the search loops end -/

/-- The search of `memory_allocate` ends at the first segment of `t` bytes or
more, or at the end of the list. -/
theorem search_ok {h : Heap σ} {t n a : Nat} {b : Bool} {l : List Seg} {q : Nat × Nat} {s : Search}
    (hc : Chain h.mem a (l.map Seg.addr) 0) (hl : ∀ r ∈ l, r.addr ≠ 0 ∧ h.length r.addr = r.len)
    (ht : t + 8 < 2 ^ 32) (hs : Res.loop (searchStep h t) n ⟨q.1, q.2, a, b⟩ = .ok s) :
    (∃ pre x post, l = pre ++ x :: post ∧ (∀ r ∈ pre, r.len < t) ∧ t ≤ x.len ∧
      s = ⟨(lastTwo q pre).1, (lastTwo q pre).2, x.addr, decide (t + 8 ≤ x.len)⟩) ∨
    ((∀ r ∈ l, r.len < t) ∧ s = ⟨(lastTwo q l).1, (lastTwo q l).2, 0, b⟩) := by
  induction l generalizing n a q with
  | nil =>
    obtain rfl : a = 0 := hc
    cases n with
    | zero => cases hs
    | succ n =>
      rw [Res.loop_leave (b := ⟨q.1, q.2, 0, b⟩) (by simp [searchStep])] at hs
      exact .inr ⟨by simp, by simpa using hs.symm⟩
  | cons x l ih =>
    obtain ⟨rfl, hc⟩ : a = x.addr ∧ _ := hc
    obtain ⟨hx0, hxl⟩ := hl x List.mem_cons_self
    cases n with
    | zero => cases hs
    | succ n =>
      by_cases hfit : t ≤ x.len
      · left
        refine ⟨[], x, l, rfl, by simp, hfit, ?_⟩
        rw [Res.loop_leave (b := ⟨q.1, q.2, x.addr, decide (t + 8 ≤ x.len)⟩)] at hs
        · simpa using hs.symm
        · simp only [searchStep, hx0, ↓reduceIte, Nat.mod_eq_of_lt ht, hxl, hfit]
          split <;> simp_all
      · rw [Res.loop_continue (c := ⟨q.2, x.addr, h.next x.addr, b⟩)] at hs
        · rcases ih (q := (q.2, x.addr)) hc (fun r hr => hl r (List.mem_cons_of_mem _ hr)) hs with
            ⟨pre, y, post, rfl, hpre, hy, rfl⟩ | ⟨hpre, rfl⟩
          · exact .inl ⟨x :: pre, y, post, rfl, by simpa using ⟨by omega, hpre⟩, hy, rfl⟩
          · exact .inr ⟨by simpa using ⟨by omega, hpre⟩, rfl⟩
        · simp only [searchStep, hx0, ↓reduceIte, Nat.mod_eq_of_lt ht, hxl, hfit]
          rw [if_neg (by omega)]

/-- A step of the first loop of `memory_free`, at a free segment. -/
theorem neighboursStep_eq (h : Heap σ) (pp p : Nat) {segment q x : Nat} (hx0 : x ≠ 0) (hxs : x ≠ segment) (hq : q < segment) :
    neighboursStep h segment ⟨pp, p, q, x⟩ =
      if x > segment then .ok (.inr ⟨pp, p, q, x⟩) else .ok (.inl ⟨p, q, x, h.next x⟩) := by
  simp only [neighboursStep, ne_eq, hx0, not_false_eq_true, ↓reduceIte]
  rw [Res.assert_bind (by omega), Res.assert_bind hxs]
  simp [hq]

/-- The first loop of `memory_free` returns. -/
theorem neighbours_returns {h : Heap σ} {segment a pp : Nat} {l : List Seg} {q : Nat × Nat}
    (hc : Chain h.mem a (l.map Seg.addr) 0) (hl : ∀ r ∈ l, r.addr ≠ 0 ∧ r.addr ≠ segment) (hq : q.2 < segment) :
    ∃ n s, Res.loop (neighboursStep h segment) n ⟨pp, q.1, q.2, a⟩ = .ok s := by
  induction l generalizing a pp q with
  | nil =>
    obtain rfl : a = 0 := hc
    exact ⟨1, _, Res.loop_leave (b := ⟨pp, q.1, q.2, 0⟩) (by simp [neighboursStep]) 0⟩
  | cons x l ih =>
    obtain ⟨rfl, hc⟩ : a = x.addr ∧ _ := hc
    obtain ⟨hx0, hxs⟩ := hl x List.mem_cons_self
    have hstep := neighboursStep_eq h pp q.1 hx0 hxs hq
    by_cases hgt : x.addr > segment
    · exact ⟨1, _, Res.loop_leave (hstep.trans (if_pos hgt)) 0⟩
    · obtain ⟨n, s, hn⟩ := ih (q := (q.2, x.addr)) hc (fun r hr => hl r (List.mem_cons_of_mem _ hr))
        (by simp only; omega)
      exact ⟨n + 1, s, (Res.loop_continue (hstep.trans (if_neg hgt)) n).trans hn⟩

/-- The first loop of `memory_free` ends before the first segment above
`segment`, or at the end of the list. -/
theorem neighbours_ok {h : Heap σ} {segment n a pp : Nat} {l : List Seg} {q : Nat × Nat} {s : Neighbours}
    (hc : Chain h.mem a (l.map Seg.addr) 0) (hl : ∀ r ∈ l, r.addr ≠ 0 ∧ r.addr ≠ segment)
    (hq : q.2 < segment) (hs : Res.loop (neighboursStep h segment) n ⟨pp, q.1, q.2, a⟩ = .ok s) :
    ∃ pre post, l = pre ++ post ∧ (∀ r ∈ pre, r.addr < segment) ∧ (∀ r, post.head? = some r → segment < r.addr) ∧
      s.prevSegment = (lastTwo q pre).1 ∧ s.nextSegment = (lastTwo q pre).2 ∧
      s.nextNextSegment = headAddr post := by
  induction l generalizing n a pp q with
  | nil =>
    obtain rfl : a = 0 := hc
    cases n with
    | zero => cases hs
    | succ n =>
      rw [Res.loop_leave (b := ⟨pp, q.1, q.2, 0⟩) (by simp [neighboursStep])] at hs
      cases hs
      exact ⟨[], [], rfl, by simp, by simp, rfl, rfl, rfl⟩
  | cons x l ih =>
    obtain ⟨rfl, hc⟩ : a = x.addr ∧ _ := hc
    obtain ⟨hx0, hxs⟩ := hl x List.mem_cons_self
    cases n with
    | zero => cases hs
    | succ n =>
      have hstep := neighboursStep_eq h pp q.1 hx0 hxs hq
      by_cases hgt : x.addr > segment
      · rw [Res.loop_leave (hstep.trans (if_pos hgt))] at hs
        cases hs
        exact ⟨[], x :: l, rfl, by simp, by simpa using hgt, rfl, rfl, rfl⟩
      · rw [Res.loop_continue (hstep.trans (if_neg hgt))] at hs
        obtain ⟨pre, post, rfl, hpre, hpost, e₁, e₂, e₃⟩ := ih (q := (q.2, x.addr)) hc
          (fun r hr => hl r (List.mem_cons_of_mem _ hr)) (by simp only; omega) hs
        exact ⟨x :: pre, post, rfl, by simpa using ⟨by omega, hpre⟩, hpost, e₁, e₂, e₃⟩

/-- The second loop of `memory_free` passes one segment, when the one after it lies above `segment`. -/
theorem pass_once (h : Heap σ) {segment : Nat} {s : Neighbours} (hlt : s.nextSegment < segment)
    (hgt : segment < s.nextNextSegment) : Res.loop (passStep h segment) 2 s =
      .ok ⟨s.prevSegment, s.nextSegment, s.nextNextSegment, h.next s.nextNextSegment⟩ := by
  have h0 : s.nextNextSegment ≠ 0 := Nat.ne_zero_of_lt hgt
  rw [Res.loop_continue (c := ⟨s.prevSegment, s.nextSegment, s.nextNextSegment, h.next s.nextNextSegment⟩)]
  · apply Res.loop_leave
    simp only [passStep]
    rw [if_neg (by omega)]
  · simp only [passStep, hlt, ↓reduceIte, ne_eq, h0, not_false_eq_true]

/-- The second loop of `memory_free` never ends once it has passed the last segment. -/
theorem pass_diverges {h : Heap σ} {segment : Nat} (hseg : 0 < segment) (n : Nat) {s : Neighbours}
    (hs : s.nextSegment < segment ∧ s.nextNextSegment = 0) :
    Res.loop (passStep h segment) n s = .timeout := by
  refine Res.loop_diverges (I := fun s => s.nextSegment < segment ∧ s.nextNextSegment = 0) (fun s hs => ?_) n hs
  refine ⟨_, ?_, by simp only [passStep, hs.1, ↓reduceIte]; rfl⟩
  simp [hs.2, hseg]

end OSForReal.Proof.Heap
