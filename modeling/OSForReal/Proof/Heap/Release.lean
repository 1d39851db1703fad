import Mathlib.Algebra.BigOperators.Group.List.Basic
import OSForReal.Proof.Heap.Arena

/-!
# Arenas: freeing, and counting the bytes

`Arena.release` frees a block: it becomes a free segment and is joined to the
free segments it touches. `total` counts the bytes of an arena, which
`release` keeps and `carve` keeps unless it leaves some unused; `Joined` says
that no two free segments touch. `Ok.tiled`: an arena without live blocks whose
bytes are all counted is one segment.
-/

namespace OSForReal.Proof.Heap

/-- The bytes of the free segments and of the live blocks. -/
def Arena.total (A : Arena) : Nat := ((A.free ++ A.live).map Seg.len).sum

/-- No free segment touches a later one. -/
def Arena.Joined (A : Arena) : Prop := A.free.Pairwise fun s t => s.addr + s.len ≠ t.addr

/-- A segment joined to the first of the segments after it, if they touch. -/
def joinNext (s : Seg) : List Seg → Seg × List Seg
  | [] => (s, [])
  | n :: post => if s.addr + s.len = n.addr then (⟨s.addr, s.len + n.len⟩, post) else (s, n :: post)

/-- A segment joined to the last of the segments before it, if they touch. -/
def joinPrev (pre : List Seg) (s : Seg) : List Seg × Seg :=
  match pre.getLast? with
  | none => (pre, s)
  | some p => if p.addr + p.len = s.addr then (pre.dropLast, ⟨p.addr, p.len + s.len⟩) else (pre, s)

/-- The free list with `b` linked in between `pre` and `post`. -/
def linkIn (pre : List Seg) (b : Seg) (post : List Seg) : List Seg :=
  (joinPrev pre (joinNext b post).1).1 ++ (joinPrev pre (joinNext b post).1).2 :: (joinNext b post).2

@[simp] theorem joinPrev_nil (s : Seg) : joinPrev [] s = ([], s) := rfl

theorem joinPrev_concat (pre : List Seg) (p s : Seg) :
    joinPrev (pre ++ [p]) s =
      if p.addr + p.len = s.addr then (pre, ⟨p.addr, p.len + s.len⟩) else (pre ++ [p], s) := by
  simp [joinPrev]

/-- What stays before a joined segment are free segments, and it begins at one or where it did. -/
theorem joinPrev_cases (pre : List Seg) (s : Seg) :
    (pre = (joinPrev pre s).1 ∧ (joinPrev pre s).2.addr = s.addr) ∨
      ∃ p, pre = (joinPrev pre s).1 ++ [p] ∧ (joinPrev pre s).2.addr = p.addr := by
  rcases List.eq_nil_or_concat pre with rfl | ⟨pre, p, rfl⟩
  · exact .inl ⟨rfl, rfl⟩
  · rw [List.concat_eq_append, joinPrev_concat]
    split
    · exact .inr ⟨p, rfl, rfl⟩
    · exact .inl ⟨rfl, rfl⟩

theorem joinNext_addr (s : Seg) (post : List Seg) : (joinNext s post).1.addr = s.addr := by
  cases post with
  | nil => rfl
  | cons n post => simp only [joinNext]; split <;> rfl

/-- Freeing the block `b`, which lies between the free segments `pre` and `post`. -/
def Arena.release (A : Arena) (pre : List Seg) (b : Seg) (post : List Seg) : Arena where
  free := linkIn pre b post
  live := A.live.erase b
  top := A.top

namespace Arena.Ok

variable {A : Arena} {pre post : List Seg} {b : Seg}

/-- What joining keeps: `P` of a free list is kept when two segments that touch
become one, so it is kept by linking in a segment. -/
theorem linkIn_induction {P : List Seg → Prop} (h : P (pre ++ b :: post))
    (hmerge : ∀ l s t l', s.addr + s.len = t.addr → P (l ++ s :: t :: l') →
      P (l ++ ⟨s.addr, s.len + t.len⟩ :: l')) : P (linkIn pre b post) := by
  have hnext : P (pre ++ (joinNext b post).1 :: (joinNext b post).2) := by
    cases post with
    | nil => exact h
    | cons n post =>
      simp only [joinNext]
      split
      · rename_i hbn; exact hmerge _ _ _ _ hbn h
      · exact h
  unfold linkIn
  generalize joinNext b post = r at hnext
  obtain ⟨s, post'⟩ := r
  rcases List.eq_nil_or_concat pre with rfl | ⟨pre, p, rfl⟩
  · exact hnext
  · rw [List.concat_eq_append, joinPrev_concat]
    simp only [List.concat_eq_append, List.append_assoc, List.cons_append, List.nil_append] at hnext ⊢
    split
    · rename_i hps; exact hmerge _ _ _ _ hps hnext
    · simpa using hnext

/-- Freeing a block keeps everything apart. -/
theorem release (h : A.Ok) (hf : A.free = pre ++ post) (hb : b ∈ A.live)
    (hpre : ∀ r ∈ pre, r.addr < b.addr) (hpost : ∀ r ∈ post, b.addr < r.addr) :
    (A.release pre b post).Ok :=
  linkIn_induction (P := fun l => Arena.Ok ⟨l, A.live.erase b, A.top⟩) (h.insert hf hb hpre hpost)
    fun _ _ _ _ hst hl => hl.merge rfl hst

/-! ## Counting the bytes -/

/-- Freeing a block keeps the number of bytes. -/
theorem total_release (hf : A.free = pre ++ post) (hb : b ∈ A.live) :
    (A.release pre b post).total = A.total := by
  have hlive : (A.live.map Seg.len).sum = b.len + ((A.live.erase b).map Seg.len).sum := by
    rw [((List.perm_cons_erase hb).map Seg.len).sum_eq]; rfl
  refine linkIn_induction (P := fun l => Arena.total ⟨l, A.live.erase b, A.top⟩ = A.total) ?_ ?_
  · simp only [Arena.total, hf, List.map_append, List.map_cons, List.sum_append, List.sum_cons, hlive]
    omega
  · intro l s t l' _ hl
    rw [← hl]
    simp only [Arena.total, List.map_append, List.map_cons, List.sum_append, List.sum_cons]
    omega

/-- Taking a block of which no byte is left unused, from a segment grown to `L` bytes. -/
theorem total_carve {s : Seg} {L size top : Nat} (hf : A.free = pre ++ s :: post) (hsL : s.len ≤ L)
    (hfit : size + 4 + 8 ≤ L ∨ L = size + 4) :
    Arena.total ⟨pre ++ remainder s.addr L (size + 4) ++ post, ⟨s.addr, size + 4⟩ :: A.live, top⟩ =
      A.total + (L - s.len) := by
  simp only [Arena.total, hf, List.map_append, List.map_cons, List.sum_append, List.sum_cons, remainder]
  rcases hfit with hfit | rfl
  · rw [if_pos hfit]
    simp only [List.map_cons, List.map_nil, List.sum_cons, List.sum_nil]
    omega
  · rw [if_neg (by omega)]
    simp only [List.map_nil, List.sum_nil]
    omega

/-- Taking a block leaves no two free segments that touch. -/
theorem joined_carve {s : Seg} {L t size top : Nat} (h : A.Ok) (hj : A.Joined)
    (hf : A.free = pre ++ s :: post) (hL : L = s.len ∨ post = []) (ht : 0 < t) :
    Arena.Joined ⟨pre ++ remainder s.addr L t ++ post, ⟨s.addr, size + 4⟩ :: A.live, top⟩ := by
  have hord := h.split_ordered hf
  simp only [Arena.Joined, hf, List.pairwise_append, List.pairwise_cons] at hj
  have hdrop : (pre ++ post).Pairwise fun s t => s.addr + s.len ≠ t.addr :=
    List.pairwise_append.mpr ⟨hj.1, hj.2.1.2, fun r hr q hq => hj.2.2 r hr q (List.mem_cons_of_mem _ hq)⟩
  unfold Arena.Joined remainder
  split
  · simp only [List.append_assoc, List.cons_append, List.nil_append, List.pairwise_append,
      List.pairwise_cons, List.mem_cons]
    refine ⟨hj.1, ⟨fun r hr => ?_, hj.2.1.2⟩, fun r hr q hq => ?_⟩
    · rcases hL with rfl | rfl
      · have := hj.2.1.1 r hr; omega
      · simp at hr
    · rcases hq with rfl | hq
      · have := hord.1 r hr; have := le_pad r.len
        simp only [Seg.fin] at *; omega
      · exact hj.2.2 r hr q (List.mem_cons_of_mem _ hq)
  · simpa using hdrop

/-- Freeing a block leaves no two free segments that touch. -/
theorem joined_release (h : A.Ok) (hj : A.Joined) (hf : A.free = pre ++ post) (hb : b ∈ A.live)
    (hpre : ∀ r ∈ pre, r.addr < b.addr) (hpost : ∀ r ∈ post, b.addr < r.addr) :
    (A.release pre b post).Joined := by
  have hord := (h.insert hf hb hpre hpost).ordered
  simp only [List.pairwise_append, List.pairwise_cons, List.mem_cons] at hord
  obtain ⟨hprepre, ⟨hbpost, hpostpost⟩, hprepost⟩ := hord
  simp only [Arena.Joined, hf, List.pairwise_append] at hj
  obtain ⟨hjpre, hjpost, hjx⟩ := hj
  have hlt {s t : Seg} (hs : s ∈ pre ++ b :: post) (hst : s.fin ≤ t.addr) : s.addr < t.addr := by
    have := ((h.insert hf hb hpre hpost).free_within hs).words; omega
  -- The segment joined to the one after it touches nothing after that, and starts where `b` does.
  have hnext : (∀ r ∈ (joinNext b post).2, (joinNext b post).1.addr + (joinNext b post).1.len ≠ r.addr) ∧
      List.Sublist (joinNext b post).2 post := by
    cases post with
    | nil => simp [joinNext]
    | cons n post =>
      simp only [List.pairwise_cons] at hjpost hpostpost
      simp only [joinNext]
      split
      · rename_i hbn
        exact ⟨fun r hr => by have := hjpost.1 r hr; simp only; omega, List.sublist_cons_self ..⟩
      · rename_i hbn
        refine ⟨fun r hr => ?_, List.Sublist.refl _⟩
        rcases List.mem_cons.mp hr with rfl | hr
        · exact hbn
        · have := hbpost n (by simp); have := le_pad b.len
          have := hlt (s := n) (by simp) (hpostpost.1 r hr)
          simp only [Seg.fin] at *; omega
  have haddr := joinNext_addr b post
  unfold Arena.release Arena.Joined linkIn
  generalize joinNext b post = q at hnext haddr
  obtain ⟨m, post'⟩ := q
  obtain ⟨hm, hsub⟩ := hnext
  simp only at hm hsub haddr ⊢
  rcases List.eq_nil_or_concat pre with rfl | ⟨pre, p, rfl⟩
  · simp only [joinPrev_nil, List.nil_append, List.pairwise_cons]
    exact ⟨hm, hjpost.sublist hsub⟩
  · rw [List.concat_eq_append] at *
    rw [joinPrev_concat]
    simp only [List.pairwise_append, List.pairwise_cons, List.mem_append, List.mem_singleton] at hjpre hjx hprepre hpre
    have hx : ∀ r, r ∈ pre ∨ r = p → ∀ q ∈ post', r.addr + r.len ≠ q.addr := fun r hr q hq =>
      hjx r hr q (hsub.subset hq)
    split
    · rename_i hpm
      simp only [List.pairwise_append, List.pairwise_cons, List.mem_cons]
      refine ⟨hjpre.1, ⟨fun r hr => by have := hm r hr; omega, hjpost.sublist hsub⟩, fun r hr q hq => ?_⟩
      rcases hq with rfl | hq
      · exact hjpre.2.2 r hr p rfl
      · exact hx r (.inl hr) q hq
    · rename_i hpm
      simp only [List.append_assoc, List.cons_append, List.nil_append, List.pairwise_append,
        List.pairwise_cons, List.mem_cons]
      refine ⟨hjpre.1, ⟨?_, hm, hjpost.sublist hsub⟩, fun r hr q hq => ?_⟩
      · rintro r (rfl | hr)
        · exact hpm
        · exact hx p (.inr rfl) r hr
      · rcases hq with rfl | rfl | hq
        · exact hjpre.2.2 r hr _ rfl
        · have := hprepre.2.2 r hr p rfl; have := le_pad r.len
          have := hpre p (.inr rfl)
          simp only [Seg.fin] at *; omega
        · exact hx r (.inl hr) q hq

/-- Segments that lie one after the other in `[a, top)` have no more bytes than that. -/
theorem sum_le_of_ordered {l : List Seg} {a top : Nat} (ha : a ≤ top)
    (hl : ∀ s ∈ l, a ≤ s.addr ∧ s.fin ≤ top) (ho : l.Pairwise fun s t => s.fin ≤ t.addr) :
    a + (l.map Seg.len).sum ≤ top := by
  induction l generalizing a with
  | nil => simpa using ha
  | cons s l ih =>
    have hs := hl s List.mem_cons_self
    have hp := le_pad s.len
    have := ih hs.2 (fun t ht => ⟨(List.pairwise_cons.mp ho).1 t ht, (hl t (List.mem_cons_of_mem _ ht)).2⟩)
      (List.pairwise_cons.mp ho).2
    simp only [List.map_cons, List.sum_cons, Seg.fin] at *
    omega

/-- With no live blocks, no bytes missing and no segments that touch, the arena is one segment. -/
theorem tiled (h : A.Ok) (hj : A.Joined) (hlive : A.live = []) (htotal : A.total = A.top - heapStart)
    (htop : heapStart < A.top) : A.free = [⟨heapStart, A.top - heapStart⟩] := by
  have hord := h.ordered
  have hin : ∀ s ∈ A.free, s.Within A.top := fun s hs => h.free_within hs
  simp only [total, hlive, List.append_nil] at htotal
  unfold Joined at hj
  generalize A.free = l at *
  match l with
  | [] => simp at htotal; omega
  | [s] =>
    have hs := hin s (by simp)
    have hlo := hs.lo; have hhi := hs.hi; have hp := le_pad s.len
    simp only [List.map_cons, List.map_nil, List.sum_cons, List.sum_nil, Seg.fin] at *
    obtain ⟨a, n⟩ := s
    simp only [List.cons.injEq, Seg.mk.injEq, and_true]
    simp only at *; omega
  | s :: t :: l =>
    -- There would be a gap between the first two segments.
    have hs := hin s (by simp)
    have hlo := hs.lo; have hp := le_pad s.len
    have hgap : s.addr + s.len ≠ t.addr := (List.pairwise_cons.mp hj).1 t (by simp)
    have hst : s.fin ≤ t.addr := (List.pairwise_cons.mp hord).1 t (by simp)
    have hle := sum_le_of_ordered (l := t :: l) (a := t.addr)
      (by have := (hin t (by simp)).hi; simp only [Seg.fin] at this; omega)
      (fun r hr => ⟨by
        rcases List.mem_cons.mp hr with rfl | hr
        · exact Nat.le_refl _
        · have := (List.pairwise_cons.mp (List.pairwise_cons.mp hord).2).1 r hr
          have := (hin t (by simp)).words
          omega, (hin r (List.mem_cons_of_mem _ hr)).hi⟩)
      (List.pairwise_cons.mp hord).2
    simp only [List.map_cons, List.sum_cons, Seg.fin] at *
    omega

end Arena.Ok

end OSForReal.Proof.Heap
