import Mathlib.Data.List.Pairwise
import OSForReal.Proof.Heap.Represents
import OSForReal.Proof.Heap.Selection

/-!
# `memory_allocate` on arenas

`carve_represents`: taking a block off a segment in memory is `Arena.carve`.
`grow_ok`: what the loop that commits pages returns. `memoryAllocate_ok`
puts them together: whatever `memory_allocate` returns, the heap represents
one of the arenas of `Allocates`, provided that the segment it grows, if it
grows one, is clear of live blocks over the bytes it grows by.
-/

namespace OSForReal.Proof.Heap

open Framework (Res Chain)
open OSForReal.Heap

variable {σ : Type} {h : Heap σ} {A : Arena}

/-- No two segments are at one address. -/
theorem Arena.Ok.addr_ne (hA : A.Ok) {r q : Seg} (hr : r ∈ A.free ++ A.live) (hq : q ∈ A.free ++ A.live) (hne : r ≠ q) :
    r.addr ≠ q.addr := by
  have hw := (hA.within r hr).words
  have hw' := (hA.within q hq).words
  rcases hA.apart.forall hr hq hne with h' | h' <;> omega

/-- The second word of a segment is the first word of none. -/
theorem Arena.Ok.second_ne (hA : A.Ok) {r q : Seg} (hr : r ∈ A.free ++ A.live) (hq : q ∈ A.free ++ A.live) :
    r.addr + 4 ≠ q.addr := by
  by_cases e : r = q
  · subst e; omega
  · have hw := (hA.within r hr).words
    have hw' := (hA.within q hq).words
    rcases hA.apart.forall hr hq e with h' | h' <;> omega

/-! ## Linking another address in place of a segment -/

/-- Stores `v` where the free list points at `segment`. -/
def relink (h : Heap σ) (prevSegment segment v : Nat) : Heap σ :=
  let h := if prevSegment ≠ 0 then h.setNext prevSegment v else h
  if segment = h.freeSegmentsHead then h.setHead v else h

@[simp] theorem relink_page (p s v : Nat) : (relink h p s v).nextPageVirtAddr = h.nextPageVirtAddr := by
  simp only [relink]
  split <;> split <;> rfl

theorem store_setHead (a v w : Nat) : (h.setHead v).store a w = (h.store a w).setHead v := rfl

/-- What `carve` does when the rest of the segment, at `r`, stays on the list. -/
theorem carve_split {size t p s r : Nat} (hr : (s + t) % 2 ^ 32 = r) (hsr : s + 8 ≤ r) :
    ∃ h', h.carve size t p s true = ((s + 4) % 2 ^ 32, h') ∧
      h'.freeSegmentsHead = (relink h p s r).freeSegmentsHead ∧ h'.nextPageVirtAddr = h.nextPageVirtAddr ∧
      h'.mem s = (size + 4) % 2 ^ 32 ∧ h'.mem r = (relink h p s r).mem s ∧
      h'.mem (r + 4) = ((relink h p s r).mem (s + 4) + 2 ^ 32 - t) % 2 ^ 32 ∧
      ∀ a, a ≠ s → a ≠ r → a ≠ r + 4 → h'.mem a = (relink h p s r).mem a := by
  have e : h.carve size t p s true = ((s + 4) % 2 ^ 32,
      (((relink h p s r).setNext r ((relink h p s r).next s)).setLength r
        ((((relink h p s r).setNext r ((relink h p s r).next s)).length s + 2 ^ 32 - t) % 2 ^ 32)).store s
        ((size + 4) % 2 ^ 32)) := by
    subst hr
    by_cases hp : p = 0 <;> by_cases hs : s = h.freeSegmentsHead <;>
      simp only [carve, relink, setNext, setLength, next, length, store_head, store_setHead, setHead_mem, hp, hs,
        ne_eq, not_true_eq_false, not_false_eq_true, ↓reduceIte]
  refine ⟨_, e, rfl, relink_page .., ?_, ?_, ?_, fun a ha hr hr4 => ?_⟩
  all_goals simp only [setNext, setLength, store_mem]
  · rw [Function.update_self]
  · rw [Function.update_of_ne (by omega), Function.update_of_ne (by omega), Function.update_self]
  · rw [Function.update_of_ne (by omega), Function.update_self]
    rw [length, store_mem, Function.update_of_ne (by omega)]
  · rw [Function.update_of_ne ha, Function.update_of_ne hr4, Function.update_of_ne hr]

/-- What `carve` does when nothing of the segment stays on the list. -/
theorem carve_whole {size t p s : Nat} (hps : p ≠ s) :
    h.carve size t p s false =
      ((s + 4) % 2 ^ 32, (relink h p s (h.next s)).store s ((size + 4) % 2 ^ 32)) := by
  have hnext : (h.setNext p (h.next s)).next s = h.next s := Function.update_of_ne hps.symm _ _
  by_cases hp : p = 0 <;> by_cases hs : s = h.freeSegmentsHead <;>
    simp_all [carve, relink, setNext]

/-- The free list up to `s`, with `v` in place of `s`. -/
theorem relink_chain {pre : List Seg} {s : Nat} (v : Nat) (hc : Chain h.mem h.freeSegmentsHead (pre.map Seg.addr) s)
    (hlt : ∀ r ∈ pre, r.addr < s) (hpos : ∀ r ∈ pre, r.addr ≠ 0) (hs : pre.Pairwise (·.addr < ·.addr)) :
    Chain (relink h (lastTwo (0, 0) pre).2 s v).mem (relink h (lastTwo (0, 0) pre).2 s v).freeSegmentsHead
      (pre.map Seg.addr) v := by
  rcases List.eq_nil_or_concat pre with rfl | ⟨pre, p, rfl⟩
  · have hhead : h.freeSegmentsHead = s := hc
    simp [relink, hhead]
  · rw [List.concat_eq_append] at *
    rw [lastTwo_concat]
    have hp0 : p.addr ≠ 0 := hpos p (by simp)
    have hhead : s ≠ h.freeSegmentsHead := by
      have := hc.head_eq
      cases pre with
      | nil => have := hlt p (by simp); simp at *; omega
      | cons r pre => have := hlt r (by simp); simp at *; omega
    rw [List.map_append, List.map_cons, List.map_nil] at hc ⊢
    rw [Chain.concat_iff]
    simp only [relink, ne_eq, hp0, not_false_eq_true, ↓reduceIte, setNext, store_head, hhead, store_mem,
      Function.update_self, and_true]
    refine (Chain.concat_iff.mp hc).1.frame fun a ha => ?_
    obtain ⟨r, hr, rfl⟩ := List.mem_map.mp ha
    have := (List.pairwise_append.mp hs).2.2 r hr p (by simp)
    exact Function.update_of_ne (by omega) _ _

/-- Nothing but the word that pointed at the segment changes. -/
theorem relink_mem {pre : List Seg} {s v a : Nat} (ha : ∀ r ∈ pre, a ≠ r.addr) :
    (relink h (lastTwo (0, 0) pre).2 s v).mem a = h.mem a := by
  rcases List.eq_nil_or_concat pre with rfl | ⟨pre, p, rfl⟩
  · by_cases hs : s = h.freeSegmentsHead <;> simp [relink, hs]
  · rw [List.concat_eq_append] at *
    rw [lastTwo_concat]
    have hap : a ≠ p.addr := ha p (by simp)
    simp only [relink]
    split <;> split <;> simp [setNext, Function.update_of_ne hap]

/-! ## Taking a block off a segment -/

/-- A free segment is apart from those before it. -/
theorem Arena.Ok.pre_apart (hA : A.Ok) {pre rest : List Seg} (hf : A.free = pre ++ rest) {q r : Seg}
    (hq : q ∈ pre) (hr : r ∈ rest ++ A.live) : q.Apart r := by
  have ha := hA.apart
  rw [hf, List.append_assoc, List.pairwise_append] at ha
  exact ha.2.2 q hq r hr

section

variable {pre post : List Seg} {s : Seg} {v : Nat} (hA : A.Ok) (hf : A.free = pre ++ s :: post)

include hA hf

/-- The first words of the segments after the link, and of the blocks, are not where the link is. -/
theorem relink_first {r : Seg} (hr : r ∈ s :: post ++ A.live) :
    (relink h (lastTwo (0, 0) pre).2 s.addr v).mem r.addr = h.mem r.addr := by
  refine relink_mem fun q hq => ?_
  have hwq := (hA.within q (by simp [hf, hq])).words
  have hwr := (hA.within r (by simp only [hf, List.mem_append, List.mem_cons] at hr ⊢; tauto)).words
  rcases hA.pre_apart hf hq hr with h' | h' <;> omega

/-- Nor is the second word of any segment. -/
theorem relink_second {r : Seg} (hr : r ∈ A.free) :
    (relink h (lastTwo (0, 0) pre).2 s.addr v).mem (r.addr + 4) = h.mem (r.addr + 4) :=
  relink_mem fun _ hq => hA.second_ne (List.mem_append_left _ hr) (by simp [hf, hq])

/-- A heap in which the segments `rest` take the place of `s`, and a block is at `s`. -/
theorem represents_of_relink {h' : Heap σ} {rest : List Seg} {size top : Nat}
    (hc : Chain h.mem h.freeSegmentsHead (A.free.map Seg.addr) 0)
    (hlens : ∀ r ∈ pre ++ post, h.length r.addr = r.len) (hheaders : ∀ r ∈ A.live, h.mem r.addr = r.len)
    (hhead : h'.freeSegmentsHead = (relink h (lastTwo (0, 0) pre).2 s.addr v).freeSegmentsHead)
    (hmem : ∀ r ∈ pre ++ post ++ A.live, h'.mem r.addr = (relink h (lastTwo (0, 0) pre).2 s.addr v).mem r.addr)
    (hlen : ∀ r ∈ pre ++ post, h'.mem (r.addr + 4) = (relink h (lastTwo (0, 0) pre).2 s.addr v).mem (r.addr + 4))
    (hrest : Chain h'.mem v (rest.map Seg.addr) (h.next s.addr)) (hrestlens : ∀ r ∈ rest, h'.length r.addr = r.len)
    (hnew : h'.mem s.addr = size + 4) (hpage : h'.nextPageVirtAddr = top % 2 ^ 32) :
    Represents h' ⟨pre ++ rest ++ post, ⟨s.addr, size + 4⟩ :: A.live, top⟩ := by
  have hsorted := hA.sorted
  rw [hf, List.pairwise_append] at hsorted
  have hpos : ∀ r ∈ pre, r.addr ≠ 0 := fun r hr => (hA.within r (by simp [hf, hr])).pos.ne'
  rw [hf, List.map_append, Chain.append_iff] at hc
  obtain ⟨c, hpre, rfl, hnext⟩ := hc
  have hprechain := relink_chain v hpre (fun r hr => hsorted.2.2 r hr s List.mem_cons_self) hpos hsorted.1
  refine ⟨?_, fun r hr => ?_, fun r hr => ?_, hpage⟩
  · rw [hhead]
    simp only [List.map_append, Chain.append_iff]
    refine ⟨h.next s.addr, ⟨v, hprechain.frame fun a ha => ?_, hrest⟩, hnext.frame fun a ha => ?_⟩
    · obtain ⟨q, hq, rfl⟩ := List.mem_map.mp ha
      exact hmem q (by simp [hq])
    · obtain ⟨q, hq, rfl⟩ := List.mem_map.mp ha
      rw [hmem q (by simp [hq]), relink_first hA hf (by simp [hq])]
  · have hold : r ∈ pre ++ post → h'.length r.addr = r.len := fun hr => by
      have hfree : r ∈ A.free := by
        simp only [hf, List.mem_append, List.mem_cons] at hr ⊢
        tauto
      rw [length, hlen r hr, relink_second hA hf hfree]
      exact hlens r hr
    rcases List.mem_append.mp hr with hr | hr
    · rcases List.mem_append.mp hr with hr | hr
      · exact hold (List.mem_append_left _ hr)
      · exact hrestlens r hr
    · exact hold (List.mem_append_right _ hr)
  · rcases List.mem_cons.mp hr with rfl | hr
    · exact hnew
    · rw [hmem r (by simp [hr]), relink_first hA hf (by simp [hr])]
      exact hheaders r hr

end

/-- What `carve` does to memory, when the segment has `L` bytes of which the ones
that the block and the remainder take are clear. -/
theorem carve_represents {pre post : List Seg} {s : Seg} {L t size top : Nat} (hA : A.Ok)
    (hf : A.free = pre ++ s :: post) (hc : Chain h.mem h.freeSegmentsHead (A.free.map Seg.addr) 0)
    (hlens : ∀ r ∈ pre ++ post, h.length r.addr = r.len) (hL : h.length s.addr = L)
    (hheaders : ∀ r ∈ A.live, h.mem r.addr = r.len) (hpage : h.nextPageVirtAddr = top % 2 ^ 32)
    (ht : t = pad (size + 4)) (hsize : 1 ≤ size) (hsize' : size + 4 < 2 ^ 32) (htL : t ≤ L)
    (hfin : s.addr + L ≤ 2 ^ 32)
    (hclear : ∀ r ∈ pre ++ post ++ A.live, r.fin ≤ s.addr ∨ s.addr + pad (claimed L t) ≤ r.addr) :
    ∃ h', h.carve size t (lastTwo (0, 0) pre).2 s.addr (t + 8 ≤ L) = (s.addr + 4, h') ∧
      Represents h' ⟨pre ++ remainder s.addr L t ++ post, ⟨s.addr, size + 4⟩ :: A.live, top⟩ := by
  have ht8 : 8 ≤ t ∧ t % 4 = 0 := by unfold pad at ht; omega
  -- The words of every other segment or block are outside the ones the block and the remainder take.
  have hout : ∀ r ∈ pre ++ post ++ A.live, r.addr + 8 ≤ s.addr ∨ s.addr + pad (claimed L t) ≤ r.addr := fun r hr => by
    have := (hA.within r (by simp only [hf, List.mem_append, List.mem_cons] at hr ⊢; tauto)).words
    rcases hclear r hr with h' | h' <;> omega
  have hs : s ∈ A.free := by simp [hf]
  have hs4 : (s.addr + 4) % 2 ^ 32 = s.addr + 4 := Nat.mod_eq_of_lt (by omega)
  by_cases hsplit : t + 8 ≤ L
  · -- The remainder takes the segment's place in the list.
    have hr : (s.addr + t) % 2 ^ 32 = s.addr + t := Nat.mod_eq_of_lt (by omega)
    simp only [claimed, hsplit, ↓reduceIte] at hout
    have hLp := le_pad L
    simp only [hsplit, decide_true, remainder, ↓reduceIte]
    obtain ⟨h', e, hhead, hpage', hhdr, hrn, hrl, hother⟩ := @carve_split _ h size t
      (lastTwo (0, 0) pre).2 _ _ hr (by omega)
    have hnext : h'.mem (s.addr + t) = h.next s.addr := hrn.trans (relink_first hA hf (by simp))
    refine ⟨h', by rw [e, hs4], represents_of_relink hA hf hc hlens hheaders hhead (fun r hr => ?_) (fun r hr => ?_)
      ⟨rfl, hnext⟩ (fun r hr => ?_) (by rw [hhdr, Nat.mod_eq_of_lt hsize']) (hpage'.trans hpage)⟩
    · have := hout r hr
      exact hother _ (by omega) (by omega) (by omega)
    · have := hout r (List.mem_append_left _ hr)
      exact hother _ (by omega) (by omega) (by omega)
    · obtain rfl := List.mem_singleton.mp hr
      show h'.mem (s.addr + t + 4) = L - t
      rw [hrl, relink_second hA hf hs]
      show (h.length s.addr + 2 ^ 32 - t) % 2 ^ 32 = L - t
      have := (hA.within s (List.mem_append_left _ hs)).pos
      rw [hL]
      omega
  · -- The segment leaves the list.
    simp only [claimed, hsplit, ↓reduceIte] at hout
    simp only [hsplit, decide_false, remainder, ↓reduceIte]
    have hps : (lastTwo (0, 0) pre).2 ≠ s.addr := by
      have hsorted := hA.sorted
      rw [hf, List.pairwise_append] at hsorted
      rcases List.eq_nil_or_concat pre with rfl | ⟨pre, p, rfl⟩
      · exact (hA.within s (List.mem_append_left _ hs)).pos.ne
      · rw [List.concat_eq_append, lastTwo_concat]
        exact (hsorted.2.2 p (by simp) s List.mem_cons_self).ne
    have htp := le_pad t
    rw [carve_whole hps, hs4, Nat.mod_eq_of_lt hsize']
    refine ⟨_, rfl, represents_of_relink hA hf hc hlens hheaders rfl (fun r hr => ?_) (fun r hr => ?_) rfl (by simp)
      (Function.update_self ..) (by simpa using hpage)⟩
    · have := hout r hr
      exact Function.update_of_ne (by omega) _ _
    · have := hout r (List.mem_append_left _ hr)
      exact Function.update_of_ne (by omega) _ _

/-! ## The first page -/

/-- The arena after `commitFirstPage`: an empty free list becomes one page. -/
def Arena.firstPage (A : Arena) : Arena :=
  match A.free with
  | [] => ⟨[⟨A.top, pageSize⟩], A.live, A.top + pageSize⟩
  | _ => A

theorem Arena.firstPage_nil (hf : A.free = []) :
    A.firstPage = ⟨[⟨A.top, pageSize⟩], A.live, A.top + pageSize⟩ := by
  simp only [firstPage, hf]

theorem Arena.firstPage_cons (hf : A.free ≠ []) : A.firstPage = A := by
  unfold firstPage
  split
  · contradiction
  · rfl

theorem Arena.Ok.firstPage (hA : A.Ok) (htop : A.firstPage.top ≤ 2 ^ 32) : A.firstPage.Ok := by
  by_cases hnil : A.free = []
  · rw [Arena.firstPage_nil hnil] at htop ⊢
    exact hA.newPage hnil htop
  · rwa [Arena.firstPage_cons hnil]

theorem Represents.head_eq_zero (hR : Represents h A) (hA : A.Ok) : h.freeSegmentsHead = 0 ↔ A.free = [] := by
  have hhead := hR.chain.head_eq
  constructor
  · intro h0
    by_contra hne
    obtain ⟨s, l, hl⟩ := List.exists_cons_of_ne_nil hne
    have hpos := (hA.free_within (s := s) (by simp [hl])).pos
    rw [hl, List.map_cons, List.headD_cons] at hhead
    omega
  · intro hnil
    rw [hhead, hnil]
    rfl

/-- Pages that could be committed lie below 2³². -/
theorem room_of_grants {S : PageSupply σ} {p : σ} {top k : Nat} (hhi : top ≤ 2 ^ 32) (hal : top % pageSize = 0)
    (hg : S.Grants p (top % 2 ^ 32) k) : top + pageSize * k ≤ 2 ^ 32 := by
  rcases grants_range (Nat.mod_lt _ (by decide)) hg with rfl | ⟨hlo, hroom⟩
  · simpa using hhi
  · have : 0 < top % 2 ^ 32 := Nat.lt_of_lt_of_le (by decide) hlo
    simp only [pageSize] at *
    omega

/-! ## Growing the last segment -/

/-- What the loop that commits pages returns. -/
theorem grow_ok {S : PageSupply σ} {h' : Heap σ} {t n len top : Nat} {r : Option Nat}
    (hpage : h.nextPageVirtAddr = top % 2 ^ 32) (hhi : top ≤ 2 ^ 32) (hal : top % pageSize = 0)
    (hlen : heapStart + len ≤ top) (hr : Res.loop (growStep S t) n (h, len) = .ok (h', r)) :
    ∃ k, h'.mem = h.mem ∧ h'.freeSegmentsHead = h.freeSegmentsHead ∧
      h'.nextPageVirtAddr = (top + pageSize * k) % 2 ^ 32 ∧ top + pageSize * k ≤ 2 ^ 32 ∧
      ∀ L, r = some L → k = pagesFor t len ∧ L = len + pageSize * k ∧ t ≤ L ∧
        S.Grants h.supply h.nextPageVirtAddr k := by
  obtain ⟨k, hg, hmem, hhead, hnext, -, hL⟩ := grow_any (by rw [hpage]; exact Nat.mod_lt _ (by decide)) hr
  have htop := room_of_grants hhi hal (hpage ▸ hg)
  rw [hpage, Nat.mod_add_mod] at hnext
  refine ⟨k, hmem, hhead, hnext, htop, fun L e => ?_⟩
  obtain ⟨hle, -, hexact⟩ := hL L e
  have hstart : 0 < heapStart := by decide
  obtain ⟨hL, hk⟩ := hexact (by omega)
  exact ⟨hk, hL, hle, hg⟩

/-! ## What `memory_allocate` does -/

/-- What `memory_allocate` of `size` bytes may return on an arena whose free list
is not empty: a block off the first segment that fits, a block off the last
segment grown by pages, or nothing. -/
inductive Allocates (A : Arena) (size : Nat) : Nat → Arena → Prop
  | fit {pre post : List Seg} {s : Seg} (hf : A.free = pre ++ s :: post)
      (hpre : ∀ r ∈ pre, r.len < pad (size + 4)) (hs : pad (size + 4) ≤ s.len) :
      Allocates A size (s.addr + 4)
        ⟨pre ++ remainder s.addr s.len (pad (size + 4)) ++ post, ⟨s.addr, size + 4⟩ :: A.live, A.top⟩
  | grow {pre : List Seg} {s : Seg} {n : Nat} (hf : A.free = pre ++ [s])
      (hall : ∀ r ∈ A.free, r.len < pad (size + 4)) (hn : n = pagesFor (pad (size + 4)) s.len)
      (htop : A.top + pageSize * n ≤ 2 ^ 32) :
      Allocates A size (s.addr + 4)
        ⟨pre ++ remainder s.addr (s.len + pageSize * n) (pad (size + 4)), ⟨s.addr, size + 4⟩ :: A.live,
          A.top + pageSize * n⟩
  | fail {n : Nat} (htop : A.top + pageSize * n ≤ 2 ^ 32) :
      Allocates A size 0 ⟨A.free, A.live, A.top + pageSize * n⟩

/-- Where the last segment is grown, the bytes it is grown by that are used are
clear of the live blocks. -/
def GrowthClear (S : PageSupply σ) (h : Heap σ) (A : Arena) (size : Nat) : Prop :=
  ∀ pre s, A.free = pre ++ [s] → (∀ r ∈ A.free, r.len < pad (size + 4)) →
    S.Grants h.supply h.nextPageVirtAddr (pagesFor (pad (size + 4)) s.len) →
    ∀ b ∈ A.live, b.addr + b.len ≤ s.addr ∨
      s.addr + claimed (s.len + pageSize * pagesFor (pad (size + 4)) s.len) (pad (size + 4)) ≤ b.addr

/-- The first page, when one is needed and committed. -/
theorem commitFirstPage_ok {S : PageSupply σ} {h' : Heap σ} {b : Bool} (hA : A.Ok) (hR : Represents h A)
    (hc : commitFirstPage S h = .ok (b, h')) :
    (b = true ∧ A.firstPage.Ok ∧ Represents h' A.firstPage ∧ (A.free ≠ [] → h' = h)) ∨
      (b = false ∧ Represents h' A) := by
  rcases commitFirstPage_any hc with ⟨hne, rfl, rfl⟩ | ⟨h0, s', hs, rfl⟩
  · have hne : A.free ≠ [] := fun e => hne ((hR.head_eq_zero hA).mpr e)
    rw [Arena.firstPage_cons hne]
    exact .inl ⟨rfl, hA, hR, fun _ => rfl⟩
  · have hnil := (hR.head_eq_zero hA).mp h0
    cases b with
    | false => exact .inr ⟨rfl, hR.chain, hR.lens, hR.headers, hR.page⟩
    | true =>
      have hpage := hR.page
      rw [hpage] at hs
      have hroom := room_of_grants hA.hi hA.page (k := 1) ⟨s', hs, trivial⟩
      rw [Nat.mul_one] at hroom
      rw [Nat.mod_eq_of_lt (by simp only [pageSize] at hroom; omega)] at hpage
      refine .inl ⟨rfl, ?_, ?_, fun h => absurd hnil h⟩
      · rw [Arena.firstPage_nil hnil]
        exact hA.newPage hnil hroom
      · rw [Arena.firstPage_nil hnil]
        refine ⟨⟨hpage, ?_⟩, fun s hs => ?_, fun b hb => ?_, ?_⟩
        · rw [← hpage]
          exact firstPageHeap_next { h with supply := s' }
        · obtain rfl := List.mem_singleton.mp hs
          show length _ A.top = pageSize
          rw [← hpage]
          exact firstPageHeap_length { h with supply := s' }
        · -- The live blocks lie below the page.
          have hlt : b.addr + 8 ≤ h.nextPageVirtAddr :=
            hpage ▸ Nat.le_trans (hA.live_within hb).words (hA.live_within hb).hi
          exact (firstPageHeap_mem { h with supply := s' } (by show b.addr ≠ h.nextPageVirtAddr; omega)
            (by show b.addr ≠ h.nextPageVirtAddr + 4; omega)).trans (hR.headers b hb)
        · show (h.nextPageVirtAddr + pageSize) % 2 ^ 32 = _
          rw [hpage]

/-- Bytes clear of a segment are words clear of it. -/
theorem clear_words {s r : Seg} {n : Nat} (hs : s.addr % 4 = 0) (hr : r.addr % 4 = 0)
    (h : r.addr + r.len ≤ s.addr ∨ s.addr + n ≤ r.addr) : r.fin ≤ s.addr ∨ s.addr + pad n ≤ r.addr := by
  unfold Seg.fin pad
  omega

/-- Taking a block off a segment that is long enough. -/
theorem carve_fit {pre post : List Seg} {s : Seg} {size : Nat} (hA : A.Ok) (hR : Represents h A)
    (hsize : 1 ≤ size) (hsize' : size + 4 < 2 ^ 32) (hf : A.free = pre ++ s :: post) (hs : pad (size + 4) ≤ s.len) :
    ∃ h', h.carve size (pad (size + 4)) (lastTwo (0, 0) pre).2 s.addr (pad (size + 4) + 8 ≤ s.len) =
        (s.addr + 4, h') ∧
      Arena.Ok ⟨pre ++ remainder s.addr s.len (pad (size + 4)) ++ post, ⟨s.addr, size + 4⟩ :: A.live, A.top⟩ ∧
      Represents h' ⟨pre ++ remainder s.addr s.len (pad (size + 4)) ++ post, ⟨s.addr, size + 4⟩ :: A.live, A.top⟩ := by
  have hmem : ∀ r ∈ pre ++ s :: post, r ∈ A.free := fun r hr => by rwa [hf]
  have hsw := hA.free_within (hmem s (by simp))
  have hfin : s.addr + pad s.len ≤ A.top := hsw.hi
  have hclear : ∀ r ∈ pre ++ post ++ A.live,
      r.fin ≤ s.addr ∨ s.addr + pad (claimed s.len (pad (size + 4))) ≤ r.addr := fun r hr => by
    have hle : pad (claimed s.len (pad (size + 4))) ≤ pad s.len := by
      unfold claimed
      split <;> unfold pad at * <;> omega
    rcases (hA.split hf).1 r hr with h' | h'
    · exact .inr (Nat.le_trans (Nat.add_le_add_left hle _) h')
    · exact .inl h'
  have hL := le_pad s.len
  obtain ⟨h', e, hR'⟩ := carve_represents hA hf hR.chain
    (fun r hr => hR.lens r (hmem r (by simp only [List.mem_append, List.mem_cons] at hr ⊢; tauto)))
    (hR.lens s (hmem s (by simp))) hR.headers hR.page rfl hsize hsize' hs
    (by have := hA.hi; omega) hclear
  exact ⟨h', e, hA.carve hf rfl hsize hs (Nat.le_refl _) hA.hi hA.page hfin hclear, hR'⟩

/-- Taking a block off the last segment, grown by `n` pages. -/
theorem carve_grown {pre : List Seg} {s : Seg} {size n : Nat} {h₁ : Heap σ} (hA : A.Ok) (hR : Represents h A)
    (hmem : h₁.mem = h.mem) (hhead : h₁.freeSegmentsHead = h.freeSegmentsHead)
    (hpage : h₁.nextPageVirtAddr = (A.top + pageSize * n) % 2 ^ 32) (htop : A.top + pageSize * n ≤ 2 ^ 32)
    (hsize : 1 ≤ size) (hsize' : size + 4 < 2 ^ 32) (hf : A.free = pre ++ [s])
    (hs : pad (size + 4) ≤ s.len + pageSize * n)
    (hclear : ∀ b ∈ A.live, b.addr + b.len ≤ s.addr ∨
      s.addr + claimed (s.len + pageSize * n) (pad (size + 4)) ≤ b.addr) :
    ∃ h', (h₁.setLength s.addr (s.len + pageSize * n)).carve size (pad (size + 4)) (lastTwo (0, 0) pre).2 s.addr
        (pad (size + 4) + 8 ≤ s.len + pageSize * n) = (s.addr + 4, h') ∧
      Arena.Ok ⟨pre ++ remainder s.addr (s.len + pageSize * n) (pad (size + 4)), ⟨s.addr, size + 4⟩ :: A.live,
        A.top + pageSize * n⟩ ∧
      Represents h' ⟨pre ++ remainder s.addr (s.len + pageSize * n) (pad (size + 4)),
        ⟨s.addr, size + 4⟩ :: A.live, A.top + pageSize * n⟩ := by
  have hsw := hA.free_within (s := s) (by simp [hf])
  have hsf : s ∈ A.free ++ A.live := by simp [hf]
  have hsecond : ∀ r ∈ A.free ++ A.live, r.addr ≠ s.addr + 4 := fun r hr => (hA.second_ne hsf hr).symm
  have hord := hA.split_ordered hf
  have hpad : pad (s.len + pageSize * n) = pad s.len + pageSize * n := by
    simp only [pad, pageSize]
    omega
  have hfin : s.addr + pad (s.len + pageSize * n) ≤ A.top + pageSize * n := by
    have := hsw.hi
    rw [hpad, ← Nat.add_assoc s.addr (pad s.len) (pageSize * n)]
    exact Nat.add_le_add_right this _
  have hclear' : ∀ r ∈ pre ++ [] ++ A.live, r.fin ≤ s.addr ∨
      s.addr + pad (claimed (s.len + pageSize * n) (pad (size + 4))) ≤ r.addr := fun r hr => by
    rw [List.append_nil] at hr
    rcases List.mem_append.mp hr with hr | hr
    · exact .inl (hord.1 r hr)
    · exact clear_words hsw.aligned (hA.live_within hr).aligned (hclear r hr)
  have hle : s.len + pageSize * n ≤ pad (s.len + pageSize * n) := le_pad _
  have hstore : ∀ a, a ≠ s.addr + 4 → (h₁.setLength s.addr (s.len + pageSize * n)).mem a = h.mem a := fun a ha => by
    rw [← hmem]
    exact Function.update_of_ne ha _ _
  have hlens : ∀ r ∈ pre ++ [], (h₁.setLength s.addr (s.len + pageSize * n)).length r.addr = r.len := fun r hr => by
    have hr : r ∈ pre := by simpa using hr
    have hrw := hA.free_within (s := r) (by simp [hf, hr])
    have := hord.1 r hr
    have := hrw.words
    rw [length, hstore _ (by omega)]
    exact hR.lens r (by simp [hf, hr])
  have hchain : Chain (h₁.setLength s.addr (s.len + pageSize * n)).mem h₁.freeSegmentsHead (A.free.map Seg.addr) 0 := by
    rw [hhead]
    refine hR.chain.frame fun a ha => ?_
    obtain ⟨r, hr, rfl⟩ := List.mem_map.mp ha
    exact hstore _ (hsecond r (List.mem_append_left _ hr))
  have hheaders : ∀ b ∈ A.live, (h₁.setLength s.addr (s.len + pageSize * n)).mem b.addr = b.len := fun b hb => by
    rw [hstore _ (hsecond b (List.mem_append_right _ hb))]
    exact hR.headers b hb
  obtain ⟨h', e, hR'⟩ := carve_represents hA hf hchain hlens (Function.update_self ..) hheaders hpage rfl hsize
    hsize' hs (Nat.le_trans (Nat.add_le_add_left hle _) (Nat.le_trans hfin htop)) hclear'
  have hOk := hA.carve hf rfl hsize hs (Nat.le_add_right ..) htop
    (by rw [Nat.add_mul_mod_self_left]; exact hA.page) hfin hclear'
  simp only [List.append_nil] at hR' hOk
  exact ⟨h', e, hOk, hR'⟩

theorem trueSize_eq {size : Nat} (h : size + 7 < 2 ^ 32) : trueSize size = pad (size + 4) := by
  unfold trueSize
  rw [sizeofSizeT, Nat.mod_eq_of_lt (by omega)]
  exact alignForward_eq (by omega)

/-- A first page is fresh, so it grows above every block. -/
theorem GrowthClear.firstPage {S : PageSupply σ} {size : Nat} {h₁ : Heap σ} (hA : A.Ok)
    (hsame : A.free ≠ [] → h₁ = h) (hgrow : GrowthClear S h A size) : GrowthClear S h₁ A.firstPage size := by
  by_cases hnil : A.free = []
  · rw [Arena.firstPage_nil hnil]
    intro pre s hf _ _ b hb
    obtain ⟨rfl, rfl⟩ : pre = [] ∧ s = ⟨A.top, pageSize⟩ := by
      cases pre with
      | nil => exact ⟨rfl, (by simpa using hf.symm)⟩
      | cons q pre => simp at hf
    have := (hA.live_within hb).hi
    have := le_pad b.len
    simp only [Seg.fin] at *
    omega
  · rwa [Arena.firstPage_cons hnil, hsame hnil]

/-- Committing pages only moves the top of the arena. -/
theorem Represents.grow {h₁ : Heap σ} {top : Nat} (hR : Represents h A) (hmem : h₁.mem = h.mem)
    (hhead : h₁.freeSegmentsHead = h.freeSegmentsHead) (hpage : h₁.nextPageVirtAddr = top % 2 ^ 32) :
    Represents h₁ ⟨A.free, A.live, top⟩ := by
  refine ⟨?_, fun r hr => ?_, fun b hb => ?_, hpage⟩
  · rw [hmem, hhead]
    exact hR.chain
  · rw [length, hmem]
    exact hR.lens r hr
  · rw [hmem]
    exact hR.headers b hb

/-- What `memory_allocate` does, when growing runs into no live block. -/
theorem memoryAllocate_ok {S : PageSupply σ} {fuel size p : Nat} {h' : Heap σ} (hA : A.Ok) (hR : Represents h A)
    (hsize : 1 ≤ size) (hsize' : pad (size + 4) + 8 < 2 ^ 32) (hgrow : GrowthClear S h A size)
    (hr : memoryAllocate S fuel h size = .ok (p, h')) :
    ∃ A', (Allocates A.firstPage size p A' ∨ (p = 0 ∧ A' = A)) ∧ A'.Ok ∧ Represents h' A' := by
  have hpad := le_pad (size + 4)
  unfold memoryAllocate at hr
  simp only [trueSize_eq (show size + 7 < 2 ^ 32 by omega)] at hr
  obtain ⟨⟨b, h₁⟩, hc, hr⟩ := Res.bind_eq_ok.mp hr
  rcases commitFirstPage_ok hA hR hc with ⟨rfl, hA₁, hR₁, hsame⟩ | ⟨rfl, hR₁⟩
  · simp only at hr
    obtain ⟨s, hs, hr⟩ := Res.bind_eq_ok.mp hr
    have hpos : ∀ r ∈ A.firstPage.free, r.addr ≠ 0 ∧ h₁.length r.addr = r.len := fun r hr =>
      ⟨(hA₁.free_within hr).pos.ne', hR₁.lens r hr⟩
    rcases search_ok (q := (0, 0)) hR₁.chain hpos hsize' hs with ⟨pre, x, post, hf, hpre, hx, rfl⟩ | ⟨hall, rfl⟩
    · -- The first segment that fits.
      obtain ⟨h₂, e, hOk, hR₂⟩ := carve_fit hA₁ hR₁ hsize (by omega) hf hx
      rw [if_neg (hpos x (by simp [hf])).1, e] at hr
      cases hr
      exact ⟨_, .inl (.fit hf hpre hx), hOk, hR₂⟩
    · -- No segment fits: the last one grows.
      rw [if_pos rfl] at hr
      obtain ⟨_, hp, hr⟩ := Res.bind_eq_ok.mp hr
      rcases List.eq_nil_or_concat A.firstPage.free with hf | ⟨pre, x, hf⟩
      · rw [hf] at hp
        simp at hp
      rw [List.concat_eq_append] at hf
      rw [hf, lastTwo_concat] at hr
      have hxf : x ∈ A.firstPage.free := by simp [hf]
      have hxw := hA₁.free_within hxf
      have hx := hxw.lo
      have hx' := hxw.hi
      have hxp := le_pad x.len
      simp only [(hpos x hxf).2] at hr
      obtain ⟨⟨h₂, r⟩, hg, hr⟩ := Res.bind_eq_ok.mp hr
      obtain ⟨k, hmem, hhead, hpage, htop, hL⟩ := grow_ok hR₁.page hA₁.hi hA₁.page
        (show heapStart + x.len ≤ A.firstPage.top by simp only [Seg.fin] at hx'; omega) hg
      cases r with
      | none =>
        cases hr
        exact ⟨_, .inl (.fail htop), hA₁.grow htop, hR₁.grow hmem hhead hpage⟩
      | some L =>
        obtain ⟨hk, rfl, hle, hgrants⟩ := hL L rfl
        have hclear : ∀ b ∈ A.firstPage.live, b.addr + b.len ≤ x.addr ∨
            x.addr + claimed (x.len + pageSize * k) (pad (size + 4)) ≤ b.addr := by
          rw [hk]
          exact (hgrow.firstPage hA hsame) pre x hf hall (hk ▸ hgrants)
        obtain ⟨h₃, e, hOk, hR₃⟩ := carve_grown hA₁ hR₁ hmem hhead hpage htop hsize (by omega) hf hle hclear
        have hlen : (h₂.setLength x.addr (x.len + pageSize * k)).length x.addr = x.len + pageSize * k :=
          Function.update_self ..
        simp only [hlen, sizeofMemorySegment, Nat.mod_eq_of_lt hsize'] at hr
        rw [e] at hr
        cases hr
        exact ⟨_, .inl (.grow hf hall hk htop), hOk, hR₃⟩
  · cases hr
    exact ⟨A, .inr ⟨rfl, rfl⟩, hA, hR₁⟩

end OSForReal.Proof.Heap
