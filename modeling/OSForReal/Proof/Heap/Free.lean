import OSForReal.Proof.Heap.Allocate

/-!
# `memory_free` on arenas

`linkFreed_eq`: joining a block to the segments it touches and linking it in is
`linkIn`. `memoryFree_ok`: on an empty free list `memory_free` forgets the block;
on any other, if it returns, it is `Arena.release`.
-/

namespace OSForReal.Proof.Heap

open Framework (Res Chain)
open OSForReal.Heap

variable {σ : Type} {h : Heap σ} {A : Arena} {pre post : List Seg} {b : Seg}

/-- A free segment is not where a live block is. -/
theorem Arena.Ok.free_addr_ne (hA : A.Ok) (hb : b ∈ A.live) : ∀ r ∈ A.free, r.addr ≠ 0 ∧ r.addr ≠ b.addr := by
  intro r hr
  have hw := (hA.free_within hr).words
  have hbw := (hA.live_within hb).words
  refine ⟨(hA.free_within hr).pos.ne', ?_⟩
  rcases hA.free_live_apart hr hb with h' | h' <;> omega

theorem setLength_setLength (a v w : Nat) : (h.setLength a v).setLength a w = h.setLength a w := by
  simp only [setLength, store, Function.update_idem]

/-- The end of `memory_free`: links `segment` in between two others. -/
def linkSegment (h : Heap σ) (prevSegment segment nextSegment : Nat) : Heap σ :=
  ((if h.freeSegmentsHead > segment then h.setHead segment else h).setNext prevSegment segment).setNext
    segment nextSegment

theorem linkSegment_mem {p s n a : Nat} (ha : a ≠ p) (ha' : a ≠ s) : (linkSegment h p s n).mem a = h.mem a := by
  unfold linkSegment setNext
  rw [store_mem, Function.update_of_ne ha', store_mem, Function.update_of_ne ha]
  split <;> rfl

/-- The stores are to first words: of the segment, and of the one before it or to address 0. -/
theorem linkSegment_keep {s n a : Nat} (ha : a ≠ 0) (hap : ∀ p ∈ pre, a ≠ p.addr) (has : a ≠ s) :
    (linkSegment h (lastTwo (0, 0) pre).2 s n).mem a = h.mem a := by
  refine linkSegment_mem ?_ has
  by_cases hnil : pre = []
  · rwa [hnil]
  · obtain ⟨p, hp, e⟩ := lastTwo_mem hnil
    rw [e]
    exact hap p hp

/-- The list up to the segment that is linked in. -/
theorem linkSegment_pre {f n c : Nat} (hsorted : pre.Pairwise (·.addr < ·.addr)) (hlt : ∀ r ∈ pre, r.addr < f)
    (hc : Chain h.mem h.freeSegmentsHead (pre.map Seg.addr) c) (hnil : pre = [] → f ≤ h.freeSegmentsHead) :
    Chain (linkSegment h (lastTwo (0, 0) pre).2 f n).mem (linkSegment h (lastTwo (0, 0) pre).2 f n).freeSegmentsHead
      (pre.map Seg.addr) f := by
  rcases List.eq_nil_or_concat pre with rfl | ⟨pre, p, rfl⟩
  · have hle := hnil rfl
    simp only [linkSegment, setNext, store_head]
    split
    · exact rfl
    · exact (show h.freeSegmentsHead = f by omega)
  · rw [List.concat_eq_append] at *
    have hhead : h.freeSegmentsHead < f := by
      rw [hc.head_eq]
      cases pre with
      | nil => exact hlt p (by simp)
      | cons r pre => exact hlt r (by simp)
    have hpf : p.addr ≠ f := (hlt p (by simp)).ne
    rw [List.map_append, List.map_cons, List.map_nil, Chain.concat_iff] at hc ⊢
    rw [lastTwo_concat]
    simp only [linkSegment, gt_iff_lt, Nat.not_lt_of_le hhead.le, ↓reduceIte, setNext, store_head, store_mem]
    rw [Function.update_of_ne hpf, Function.update_self]
    refine ⟨hc.1.frame fun a ha => ?_, rfl⟩
    obtain ⟨r, hr, rfl⟩ := List.mem_map.mp ha
    have hrp : r.addr ≠ p.addr := ((List.pairwise_append.mp hsorted).2.2 r hr p (by simp)).ne
    have hrf : r.addr ≠ f := (hlt r (by simp [hr])).ne
    rw [Function.update_of_ne hrf, Function.update_of_ne hrp]

section

variable {f : Seg} (hA : A.Ok) (hf : A.free = pre ++ f :: post)

include hA hf

/-- The list behind it. -/
theorem linkSegment_post {n c : Nat} (hc : Chain h.mem c (post.map Seg.addr) 0) :
    Chain (linkSegment h (lastTwo (0, 0) pre).2 f.addr n).mem c (post.map Seg.addr) 0 := by
  have hsorted := hA.sorted
  rw [hf, List.pairwise_append, List.pairwise_cons] at hsorted
  obtain ⟨-, ⟨hfpost, -⟩, hprepost⟩ := hsorted
  refine hc.frame fun a ha => ?_
  obtain ⟨r, hr, rfl⟩ := List.mem_map.mp ha
  have hpos := (hA.free_within (s := r) (by simp [hf, hr])).pos
  exact linkSegment_keep hpos.ne' (fun p hp => (hprepost p hp r (List.mem_cons_of_mem _ hr)).ne') (hfpost r hr).ne'

/-- Linking a segment in between the free segments before it and those after it. -/
theorem linkSegment_represents (hc : ∃ c, Chain h.mem h.freeSegmentsHead (pre.map Seg.addr) c)
    (hpost : Chain h.mem (headAddr post) (post.map Seg.addr) 0) (hnil : pre = [] → f.addr ≤ h.freeSegmentsHead)
    (hlens : ∀ r ∈ A.free, h.length r.addr = r.len) (hheaders : ∀ r ∈ A.live, h.mem r.addr = r.len)
    (hpage : h.nextPageVirtAddr = A.top % 2 ^ 32) :
    Represents (linkSegment h (lastTwo (0, 0) pre).2 f.addr (headAddr post)) A := by
  obtain ⟨c, hc⟩ := hc
  have hff : f ∈ A.free ++ A.live := by simp [hf]
  have hpref : ∀ p ∈ pre, p ∈ A.free := fun p hp => by simp [hf, hp]
  have hlast : (linkSegment h (lastTwo (0, 0) pre).2 f.addr (headAddr post)).mem f.addr = headAddr post :=
    Function.update_self ..
  refine ⟨?_, fun r hr => ?_, fun r hr => ?_, ?_⟩
  · rw [hf, List.map_append, List.map_cons, Chain.append_iff]
    have hsorted := hA.sorted
    rw [hf, List.pairwise_append] at hsorted
    refine ⟨f.addr, linkSegment_pre hsorted.1 (fun r hr => hsorted.2.2 r hr f List.mem_cons_self) hc hnil, rfl, ?_⟩
    rw [hlast]
    exact linkSegment_post hA hf hpost
  · have hrf : r ∈ A.free ++ A.live := List.mem_append_left _ hr
    rw [length, linkSegment_keep (by omega) (fun p hp => hA.second_ne hrf (List.mem_append_left _ (hpref p hp)))
      (hA.second_ne hrf hff)]
    exact hlens r hr
  · have hne : ∀ p ∈ A.free, r.addr ≠ p.addr := fun p hp => (hA.free_addr_ne hr p hp).2.symm
    rw [linkSegment_keep (hA.live_within hr).pos.ne' (fun p hp => hne p (hpref p hp)) (hne f (by simp [hf]))]
    exact hheaders r hr
  · simp only [linkSegment, setNext, store_nextPage]
    split <;> simpa using hpage

end

/-- The segment that a freed block becomes part of. -/
def freedSeg (pre : List Seg) (b : Seg) (post : List Seg) : Seg := (joinPrev pre (joinNext b post).1).2

/-- The segments that stay before it. -/
def freedPre (pre : List Seg) (b : Seg) (post : List Seg) : List Seg := (joinPrev pre (joinNext b post).1).1

theorem linkIn_eq : linkIn pre b post = freedPre pre b post ++ freedSeg pre b post :: (joinNext b post).2 := rfl

/-- Joining a freed block to the segment before it, in memory. -/
theorem joinPrev_eq {m : Seg} (hA : A.Ok) (hf : A.free = pre ++ post) (hpre : ∀ r ∈ pre, r.fin ≤ m.addr)
    (hlens : ∀ r ∈ pre, h.length r.addr = r.len) (hm : h.length m.addr = m.len) (hhi : m.addr + m.len ≤ 2 ^ 32)
    (hlen : 5 ≤ m.len) :
    (if (lastTwo (0, 0) pre).2 ≠ 0 ∧
        ((lastTwo (0, 0) pre).2 + h.length (lastTwo (0, 0) pre).2) % 2 ^ 32 = m.addr then
      (h.setLength (lastTwo (0, 0) pre).2 ((h.length (lastTwo (0, 0) pre).2 + h.length m.addr) % 2 ^ 32),
        (lastTwo (0, 0) pre).1, (lastTwo (0, 0) pre).2)
    else (h, (lastTwo (0, 0) pre).2, m.addr)) =
      (h.setLength (joinPrev pre m).2.addr (joinPrev pre m).2.len, (lastTwo (0, 0) (joinPrev pre m).1).2,
        (joinPrev pre m).2.addr) := by
  have hself : h.setLength m.addr m.len = h := by
    rw [← hm]
    simp only [setLength, store, length, Function.update_eq_self]
  rcases List.eq_nil_or_concat pre with rfl | ⟨pre, p, rfl⟩
  · simp [hself]
  · rw [List.concat_eq_append] at *
    have hpf : p ∈ A.free := by simp [hf]
    have hpw := hA.free_within hpf
    have hp0 : p.addr ≠ 0 := hpw.pos.ne'
    have hpm : p.fin ≤ m.addr := hpre p (by simp)
    have hpl := le_pad p.len
    simp only [Seg.fin] at hpm
    rw [lastTwo_concat, joinPrev_concat]
    simp only [ne_eq, hp0, not_false_eq_true, true_and, hlens p (by simp), hm]
    rw [Nat.mod_eq_of_lt (by have := hpw.len; omega)]
    split
    · rename_i hpe
      rw [Nat.mod_eq_of_lt (by omega)]
    · rw [lastTwo_concat, hself]

/-- Joining and linking in a block, in memory. -/
theorem linkFreed_eq {s : Neighbours} {n : Seg} (hA : A.Ok) (hR : Represents h A) (hf : A.free = pre ++ n :: post)
    (hb : b ∈ A.live) (hpre : ∀ r ∈ pre, r.addr < b.addr) (hn : b.addr < n.addr)
    (hs : s = ⟨(lastTwo (0, 0) pre).1, (lastTwo (0, 0) pre).2, n.addr, headAddr post⟩) :
    linkFreed h b.addr s = .ok (linkSegment
      ((h.setLength b.addr (joinNext b (n :: post)).1.len).setLength (freedSeg pre b (n :: post)).addr
        (freedSeg pre b (n :: post)).len)
      (lastTwo (0, 0) (freedPre pre b (n :: post))).2 (freedSeg pre b (n :: post)).addr
      (headAddr (joinNext b (n :: post)).2)) := by
  subst hs
  have hbw := hA.live_within hb
  have hnf : n ∈ A.free := by simp [hf]
  have hnw := hA.free_within hnf
  have hbn : b.fin ≤ n.addr := hA.block_fin_le hnf hb hn
  have hbl := le_pad b.len
  have hn2 : n.addr + n.len ≤ 2 ^ 32 := by
    have := hnw.hi; have := hA.hi; have := le_pad n.len
    simp only [Seg.fin] at *; omega
  have hnl := hnw.len
  simp only [Seg.fin] at hbn
  have hprefin : ∀ r ∈ pre, r.fin ≤ b.addr := fun r hr =>
    hA.fin_le_block (by simp [hf, hr]) hb (hpre r hr)
  -- The length that the block gets, after joining it to the segment behind.
  have hlens (v : Nat) : ∀ r ∈ A.free, (h.setLength b.addr v).length r.addr = r.len := fun r hr => by
    have hne : r.addr + 4 ≠ b.addr + 4 := by
      have := (hA.free_within hr).words; have := hbw.words
      rcases hA.free_live_apart hr hb with h' | h' <;> omega
    rw [← hR.lens r hr]
    exact Function.update_of_ne hne _ _
  have hself (v : Nat) : (h.setLength b.addr v).length b.addr = v := Function.update_self ..
  have hnext := joinPrev_eq (h := h.setLength b.addr (joinNext b (n :: post)).1.len) (m := (joinNext b (n :: post)).1)
    hA hf (by rwa [joinNext_addr]) (fun r hr => hlens _ r (by simp [hf, hr]))
    (by rw [joinNext_addr]; exact hself _)
    (by simp only [joinNext]; split <;> simp only <;> omega)
    (by have := hbw.len; simp only [joinNext]; split <;> simp only <;> omega)
  rw [joinNext_addr] at hnext
  unfold linkFreed
  rw [hR.headers b hb]
  simp only [hself]
  rw [Nat.mod_eq_of_lt (by omega), Res.assert_bind fun _ => hnw.pos.ne']
  by_cases ht : b.addr + b.len = n.addr
  · have e : joinNext b (n :: post) = (⟨b.addr, b.len + n.len⟩, post) := if_pos ht
    have hsum : (b.len + n.len) % 2 ^ 32 = b.len + n.len := Nat.mod_eq_of_lt (by have := hbw.pos; omega)
    simp only [ht, ↓reduceIte, hlens _ n hnf, setLength_setLength, hsum]
    simp only [freedSeg, freedPre, e] at hnext ⊢
    rw [hnext]
    rfl
  · have e : joinNext b (n :: post) = (b, n :: post) := if_neg ht
    simp only [ht, ↓reduceIte]
    simp only [freedSeg, freedPre, e] at hnext ⊢
    rw [hnext]
    rfl

/-- The segments before the freed one are free segments already, and next to come is a free segment
or the freed one. -/
theorem freedPre_cases (pre : List Seg) (b : Seg) (post : List Seg) :
    (pre = freedPre pre b post ∧ (freedSeg pre b post).addr = b.addr) ∨
      ∃ p, pre = freedPre pre b post ++ [p] ∧ (freedSeg pre b post).addr = p.addr := by
  have hcases := joinPrev_cases pre (joinNext b post).1
  rwa [joinNext_addr] at hcases

theorem joinNext_cases (b : Seg) (n : Seg) (post : List Seg) :
    (joinNext b (n :: post)).2 = post ∨ (joinNext b (n :: post)).2 = n :: post := by
  simp only [joinNext]
  split
  · exact .inl rfl
  · exact .inr rfl

/-- The segments that stay on the list were on it. -/
theorem freed_mem {n r : Seg} (hr : r ∈ freedPre pre b (n :: post) ++ (joinNext b (n :: post)).2) : r ∈ pre ++ n :: post := by
  rcases List.mem_append.mp hr with hr | hr
  · rcases freedPre_cases pre b (n :: post) with ⟨e, -⟩ | ⟨p, e, -⟩
    · rw [e]
      exact List.mem_append_left _ hr
    · rw [e]
      exact List.mem_append_left _ (List.mem_append_left _ hr)
  · rcases joinNext_cases b n post with e | e
    · rw [e] at hr
      exact List.mem_append_right _ (List.mem_cons_of_mem _ hr)
    · rw [e] at hr
      exact List.mem_append_right _ hr

/-- Of the list before the block, the segments that stay are linked already. -/
theorem freedPre_chain {mem : Nat → Nat} {a c : Nat} (hc : Chain mem a (pre.map Seg.addr) c) :
    ∃ d, Chain mem a ((freedPre pre b post).map Seg.addr) d := by
  rcases freedPre_cases pre b post with ⟨e, -⟩ | ⟨p, e, -⟩
  · rw [← e]
    exact ⟨c, hc⟩
  · rw [e, List.map_append, Chain.append_iff] at hc
    obtain ⟨d, hd, -⟩ := hc
    exact ⟨d, hd⟩

/-- So are those behind it. -/
theorem joinNext_chain {mem : Nat → Nat} {n : Seg} {a : Nat} (hc : Chain mem a ((n :: post).map Seg.addr) 0) :
    Chain mem (headAddr (joinNext b (n :: post)).2) ((joinNext b (n :: post)).2.map Seg.addr) 0 := by
  rcases joinNext_cases b n post with e | e
  · have hhead := hc.2.head_eq
    rw [e, headAddr, ← hhead]
    exact hc.2
  · obtain rfl := hc.1
    rw [e]
    exact hc

/-- Where no segment stays before the freed one, the list does not begin below it. -/
theorem freedSeg_le {mem : Nat → Nat} {n : Seg} {a c : Nat} (hpre : Chain mem a (pre.map Seg.addr) c)
    (hpost : Chain mem c ((n :: post).map Seg.addr) 0) (hn : b.addr < n.addr)
    (hnil : freedPre pre b (n :: post) = []) : (freedSeg pre b (n :: post)).addr ≤ a := by
  rcases freedPre_cases pre b (n :: post) with ⟨e, e'⟩ | ⟨p, e, e'⟩
  · rw [e, hnil] at hpre
    obtain rfl : a = c := hpre
    have hc := hpost.1
    omega
  · rw [e, hnil] at hpre
    have ha : a = p.addr := hpre.1
    omega

/-- Where the search loops of `memory_free` end, the block is linked in. -/
theorem linkFreed_represents {s : Neighbours} {n : Seg} {h' : Heap σ} (hA : A.Ok) (hR : Represents h A)
    (hf : A.free = pre ++ n :: post) (hb : b ∈ A.live) (hpre : ∀ r ∈ pre, r.addr < b.addr)
    (hpost : ∀ r ∈ n :: post, b.addr < r.addr)
    (hs : s = ⟨(lastTwo (0, 0) pre).1, (lastTwo (0, 0) pre).2, n.addr, headAddr post⟩)
    (hr : linkFreed h b.addr s = .ok h') : Represents h' (A.release pre b (n :: post)) := by
  rw [linkFreed_eq hA hR hf hb hpre (hpost n (by simp)) hs] at hr
  cases hr
  have hA' := hA.release hf hb hpre hpost
  have hf' : (A.release pre b (n :: post)).free =
      freedPre pre b (n :: post) ++ freedSeg pre b (n :: post) :: (joinNext b (n :: post)).2 := linkIn_eq
  have hff : freedSeg pre b (n :: post) ∈ (A.release pre b (n :: post)).free ++ (A.release pre b (n :: post)).live := by
    simp [hf']
  have hbf : b ∈ A.free ++ A.live := by simp [hb]
  -- The stores before the links are to the lengths of the block and of the freed segment.
  have hkeep {v w a : Nat} (hab : a ≠ b.addr + 4) (haf : a ≠ (freedSeg pre b (n :: post)).addr + 4) :
      ((h.setLength b.addr v).setLength (freedSeg pre b (n :: post)).addr w).mem a = h.mem a := by
    simp only [setLength, store_mem]
    rw [Function.update_of_ne haf, Function.update_of_ne hab]
  have hold : ∀ r ∈ freedPre pre b (n :: post) ++ (joinNext b (n :: post)).2, r ∈ A.free := fun r hr => hf ▸ freed_mem hr
  have hold' : ∀ r ∈ freedPre pre b (n :: post) ++ (joinNext b (n :: post)).2,
      r ∈ (A.release pre b (n :: post)).free := fun r hr => by
    simp only [hf', List.mem_append, List.mem_cons] at hr ⊢
    tauto
  have hfirst {v w : Nat} : ∀ r ∈ freedPre pre b (n :: post) ++ (joinNext b (n :: post)).2,
      ((h.setLength b.addr v).setLength (freedSeg pre b (n :: post)).addr w).mem r.addr = h.mem r.addr := fun r hr =>
    hkeep (hA.second_ne hbf (List.mem_append_left _ (hold r hr))).symm
      (hA'.second_ne hff (List.mem_append_left _ (hold' r hr))).symm
  have hchain := hR.chain
  rw [hf, List.map_append, Chain.append_iff] at hchain
  obtain ⟨c, hcpre, hcpost⟩ := hchain
  refine linkSegment_represents hA' hf' ?_ ?_ (freedSeg_le hcpre hcpost (hpost n (by simp))) (fun r hr => ?_)
    (fun r hr => ?_) hR.page
  · have hprechain : ∃ d, Chain h.mem h.freeSegmentsHead ((freedPre pre b (n :: post)).map Seg.addr) d :=
      freedPre_chain hcpre
    obtain ⟨d, hd⟩ := hprechain
    refine ⟨d, hd.frame fun a ha => ?_⟩
    obtain ⟨r, hr, rfl⟩ := List.mem_map.mp ha
    exact hfirst r (List.mem_append_left _ hr)
  · refine (joinNext_chain hcpost).frame fun a ha => ?_
    obtain ⟨r, hr, rfl⟩ := List.mem_map.mp ha
    exact hfirst r (List.mem_append_right _ hr)
  · by_cases hrf : r = freedSeg pre b (n :: post)
    · rw [hrf]
      exact Function.update_self ..
    · have hr' : r ∈ freedPre pre b (n :: post) ++ (joinNext b (n :: post)).2 := by
        simp only [hf', List.mem_append, List.mem_cons] at hr ⊢
        tauto
      have hne : r.addr ≠ (freedSeg pre b (n :: post)).addr := hA'.addr_ne (List.mem_append_left _ hr) hff hrf
      have hneb : r.addr ≠ b.addr := (hA.free_addr_ne hb r (hold r hr')).2
      rw [length, hkeep (by omega) (by omega)]
      exact hR.lens r (hold r hr')
  · have hrl : r ∈ A.live := List.mem_of_mem_erase hr
    rw [hkeep (hA.second_ne hbf (by simp [hrl])).symm (hA'.second_ne hff (by simp [hr])).symm]
    exact hR.headers r hrl

/-! ## The search -/

/-- The two loops of `memory_free`. -/
def searchNeighbours (fuel : Nat) (h : Heap σ) (segment : Nat) : Res Neighbours := do
  let s ← Res.loop (neighboursStep h segment) fuel ⟨0, 0, 0, h.freeSegmentsHead⟩
  Res.loop (passStep h segment) fuel s

theorem memoryFree_eq {fuel a : Nat} (h0 : h.freeSegmentsHead ≠ 0) (ha : a < 2 ^ 32) :
    memoryFree fuel h (a + 4) = searchNeighbours fuel h a >>= fun s =>
      Res.assert ((s.prevSegment < a ∧ s.nextSegment > a) ∨ (s.prevSegment < a ∧ s.nextSegment = 0) ∨
        (s.prevSegment = 0 ∧ s.nextSegment > a)) >>= fun _ => linkFreed h a s := by
  have hseg : (a + 4 + 2 ^ 32 - sizeofSizeT) % 2 ^ 32 = a := by
    rw [sizeofSizeT, show a + 4 + 2 ^ 32 - 4 = a + 2 ^ 32 by omega, Nat.add_mod_right, Nat.mod_eq_of_lt ha]
  unfold memoryFree searchNeighbours
  rw [if_neg h0, hseg, bind_assoc]

/-- The segment before a block lies below it. -/
theorem lastTwo_lt (hpos : 0 < b.addr) (hpre : ∀ r ∈ pre, r.addr < b.addr) : (lastTwo (0, 0) pre).2 < b.addr := by
  by_cases hnil : pre = []
  · rwa [hnil]
  · obtain ⟨p, hp, e⟩ := lastTwo_mem hnil
    rw [e]
    exact hpre p hp

/-- The search ends at the free segments between which the block lies. -/
theorem searchNeighbours_ok {fuel : Nat} {s : Neighbours} (hA : A.Ok) (hR : Represents h A) (hb : b ∈ A.live)
    (hr : searchNeighbours fuel h b.addr = .ok s) : ∃ pre n post, A.free = pre ++ n :: post ∧
      (∀ r ∈ pre, r.addr < b.addr) ∧ (∀ r ∈ n :: post, b.addr < r.addr) ∧
      s = ⟨(lastTwo (0, 0) pre).1, (lastTwo (0, 0) pre).2, n.addr, headAddr post⟩ := by
  have hbw := hA.live_within hb
  obtain ⟨s', hs, hr⟩ := Res.bind_eq_ok.mp hr
  obtain ⟨pre, post, hf, hpre, hpost, e₁, e₂, e₃⟩ := neighbours_ok (q := (0, 0)) hR.chain (hA.free_addr_ne hb) hbw.pos hs
  have hlt := lastTwo_lt hbw.pos hpre
  cases post with
  | nil =>
    -- Every free segment lies below the block: the second loop never ends.
    rw [pass_diverges hbw.pos fuel ⟨by rwa [e₂], e₃⟩] at hr
    cases hr
  | cons n post =>
    have hn : b.addr < n.addr := hpost n rfl
    have hsorted := hA.sorted
    rw [hf, List.pairwise_append, List.pairwise_cons] at hsorted
    have hchain := hR.chain
    rw [hf, List.map_append, Chain.append_iff] at hchain
    obtain ⟨c, -, hc⟩ := hchain
    have hnext : h.next n.addr = headAddr post := hc.2.head_eq
    refine ⟨pre, n, post, hf, hpre, ?_, ?_⟩
    · intro r hr
      rcases List.mem_cons.mp hr with rfl | hr
      · exact hn
      · exact Nat.lt_trans hn (hsorted.2.1.1 r hr)
    · have hpass := pass_once h (s := s') (by rwa [e₂]) (by rwa [e₃])
      rw [Res.loop_unique hr hpass, e₁, e₂, e₃, headAddr_cons, hnext]

/-- What `memory_free` does to a live block. -/
theorem memoryFree_ok {fuel : Nat} {h' : Heap σ} (hA : A.Ok) (hR : Represents h A) (hb : b ∈ A.live)
    (hr : memoryFree fuel h (b.addr + 4) = .ok h') :
    (A.free = [] ∧ h' = h) ∨ ∃ pre n post, A.free = pre ++ n :: post ∧ (∀ r ∈ pre, r.addr < b.addr) ∧
      (∀ r ∈ n :: post, b.addr < r.addr) ∧ Represents h' (A.release pre b (n :: post)) := by
  by_cases h0 : h.freeSegmentsHead = 0
  · rw [memoryFree, if_pos h0] at hr
    cases hr
    exact .inl ⟨(hR.head_eq_zero hA).mp h0, rfl⟩
  · rw [memoryFree_eq h0 (hA.live_addr_lt hb)] at hr
    obtain ⟨s, hs, hr⟩ := Res.bind_eq_ok.mp hr
    obtain ⟨_, -, hr⟩ := Res.bind_eq_ok.mp hr
    obtain ⟨pre, n, post, hf, hpre, hpost, hs⟩ := searchNeighbours_ok hA hR hb hs
    exact .inr ⟨pre, n, post, hf, hpre, hpost, linkFreed_represents hA hR hf hb hpre hpost hs hr⟩

end OSForReal.Proof.Heap
