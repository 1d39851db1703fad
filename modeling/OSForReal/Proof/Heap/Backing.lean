import OSForReal.Proof.Heap.Safety
import OSForReal.Proof.Heap.Selection

/-!
# What the heap does to its supply of pages

The heap touches the supply of pages, and the address of the next one, only by
commits: of the next page, which is then advanced. So what the commits keep
(`KeptByCommits`) every call keeps, whatever the heap looks like
(`KeptByCommits.reachable`).
-/

namespace OSForReal.Proof.Heap

open Framework (Res System)
open OSForReal.Heap

variable {σ : Type} {S : PageSupply σ} {P : σ → Nat → Prop} {h h' : Heap σ} {fuel size t : Nat}

/-- A property of the supply and the next page that a commit of this page keeps. -/
structure KeptByCommits (S : PageSupply σ) (P : σ → Nat → Prop) : Prop where
  fails : ∀ p v p', P p v → S.commit p v = .ok (false, p') → P p' v
  commits : ∀ p v p', P p v → S.commit p v = .ok (true, p') → P p' ((v + pageSize) % 2 ^ 32)

/-- The property, of a heap. -/
def OfHeap (P : σ → Nat → Prop) (h : Heap σ) : Prop := P h.supply h.nextPageVirtAddr

/-! ## What leaves the supply alone -/

/-- The heap after has the supply and the next page of the one before. -/
structure SameSupply (h h' : Heap σ) : Prop where
  supply : h'.supply = h.supply
  nextPage : h'.nextPageVirtAddr = h.nextPageVirtAddr

theorem SameSupply.ofHeap (hs : SameSupply h h') (hP : OfHeap P h) : OfHeap P h' := by
  unfold OfHeap
  rw [hs.supply, hs.nextPage]
  exact hP

theorem sameSupply_carve (h : Heap σ) (size t p s : Nat) (b : Bool) : SameSupply h (h.carve size t p s b).2 where
  supply := by
    simp only [carve]
    split <;> split <;> split <;> rfl
  nextPage := carve_nextPage h size t p s b

theorem linkFreed_supply {segment : Nat} {q : Neighbours} (hr : linkFreed h segment q = .ok h') :
    h'.supply = h.supply := by
  unfold linkFreed at hr
  obtain ⟨_, -, hr⟩ := Res.bind_eq_ok.mp hr
  split at hr
  rename_i h₁ n₁ e₁
  split at hr
  rename_i h₂ p₂ s₂ e₂
  have hsupply₁ : h₁.supply = h.supply := by
    split at e₁ <;>
    · obtain ⟨rfl, -⟩ := Prod.mk.inj e₁
      rfl
  have hsupply₂ : h₂.supply = h₁.supply := by
    split at e₂ <;>
    · obtain ⟨rfl, -⟩ := Prod.mk.inj e₂
      rfl
  rw [← Res.ok.inj hr, ← hsupply₁, ← hsupply₂]
  split <;> rfl

/-- `memory_free` commits no page, and gives none back. -/
theorem sameSupply_memoryFree {address : Nat} (hr : memoryFree fuel h address = .ok h') : SameSupply h h' where
  supply := by
    unfold memoryFree at hr
    split at hr
    · cases hr
      rfl
    · obtain ⟨_, -, hr⟩ := Res.bind_eq_ok.mp hr
      obtain ⟨q, -, hr⟩ := Res.bind_eq_ok.mp hr
      obtain ⟨_, -, hr⟩ := Res.bind_eq_ok.mp hr
      exact linkFreed_supply hr
  nextPage := memoryFree_nextPage hr

/-! ## What commits -/

namespace KeptByCommits

variable (hK : KeptByCommits S P)
include hK

theorem commitFirstPage {b : Bool} (hP : OfHeap P h) (hr : commitFirstPage S h = .ok (b, h')) : OfHeap P h' := by
  rcases commitFirstPage_any hr with ⟨-, -, rfl⟩ | ⟨-, s', hc, rfl⟩
  · exact hP
  · cases b with
    | false => exact hK.fails _ _ _ hP hc
    | true => exact hK.commits _ _ _ hP hc

/-- The loop that grows the last segment. -/
theorem grow {n len : Nat} {r : Option Nat} (hP : OfHeap P h)
    (hr : Res.loop (growStep S t) n (h, len) = .ok (h', r)) : OfHeap P h' := by
  induction n generalizing h len with
  | zero => cases hr
  | succ n ih =>
    by_cases hlt : len < t
    · obtain ⟨b, s', hs⟩ := growStep_commits hlt hr
      cases b with
      | false =>
        rw [Res.loop_leave (growStep_short hlt hs)] at hr
        obtain ⟨rfl, -⟩ := Prod.mk.inj (Res.ok.inj hr)
        exact hK.fails _ _ _ hP hs
      | true =>
        rw [Res.loop_continue (growStep_short hlt hs)] at hr
        have hP' : OfHeap P (advancePage { h with supply := s' }) := hK.commits _ _ _ hP hs
        exact ih hP' hr
    · have hstep : growStep S t (h, len) = .ok (.inr (h, some len)) := by simp only [growStep, if_neg hlt]
      rw [Res.loop_leave hstep] at hr
      obtain ⟨rfl, -⟩ := Prod.mk.inj (Res.ok.inj hr)
      exact hP

theorem selectSegment {x : Selection σ ⊕ Heap σ} (hP : OfHeap P h) (hr : selectSegment S fuel h t = .ok x) :
    OfHeap P (x.elim Selection.heap id) := by
  obtain ⟨⟨b, h₁⟩, hc, hr⟩ := Res.bind_eq_ok.mp hr
  have hP₁ := hK.commitFirstPage hP hc
  cases b with
  | false =>
    cases hr
    exact hP₁
  | true =>
    obtain ⟨q, -, hr⟩ := Res.bind_eq_ok.mp hr
    simp only at hr
    split at hr
    · obtain ⟨_, -, hr⟩ := Res.bind_eq_ok.mp hr
      obtain ⟨⟨h₂, r⟩, hg, hr⟩ := Res.bind_eq_ok.mp hr
      have hP₂ := hK.grow hP₁ hg
      cases r with
      | none =>
        cases hr
        exact hP₂
      | some L =>
        cases hr
        exact hP₂
    · cases hr
      exact hP₁

theorem memoryAllocate {ptr : Nat} (hP : OfHeap P h) (hr : memoryAllocate S fuel h size = .ok (ptr, h')) :
    OfHeap P h' := by
  rw [memoryAllocate_eq] at hr
  obtain ⟨x, hx, hr⟩ := Res.bind_eq_ok.mp hr
  have hPx := hK.selectSegment hP hx
  cases x with
  | inl s =>
    have hcarve := (sameSupply_carve s.heap size (trueSize size) s.prevSegment s.segment s.segmentCanBeSplit).ofHeap hPx
    rw [Res.ok.inj hr] at hcarve
    exact hcarve
  | inr h₁ =>
    cases hr
    exact hPx

theorem step {s s' : HeapState σ} {i : HeapEvent} (hP : OfHeap P s.heap) (hs : HeapStep S s i s') :
    OfHeap P s'.heap := by
  cases hs with
  | allocate _ _ hr => exact hK.memoryAllocate hP hr
  | free _ hr => exact (sameSupply_memoryFree hr).ofHeap hP

/-- What the commits keep holds in every state that calls of the heap reach. -/
theorem reachable {M : System (HeapState σ) HeapEvent} {ok : HeapState σ → HeapEvent → Prop} {s : HeapState σ}
    (hstep : M.step = HeapStep S) (hinit : ∀ s, M.init s → OfHeap P s.heap) (hs : M.Reachable ok s) : OfHeap P s.heap :=
  hs.invariant hinit fun _ _ _ hI _ hcall => hK.step hI (hstep ▸ hcall)

end KeptByCommits

end OSForReal.Proof.Heap
