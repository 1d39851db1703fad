import OSForReal.Framework.Traced
import OSForReal.Std.Memory

/-!
# What `memory_free` stores

`memory_free` again, as it is in `Std.Memory`, with the addresses of the words
that it stores. Its search stores nothing; an `ASSERT` that fails stops the
machine after the stores before it.
-/

namespace OSForReal.Heap

open Framework (Res Traced)

variable {σ : Type}

/-- A store, recorded. -/
def storeTraced (h : Heap σ) (a v : Nat) : Traced Nat (Heap σ) := .record a (h.store a v)

/-- The part of `linkFreed` that joins `segment` to the one behind it. -/
def joinNextTraced (h : Heap σ) (segment : Nat) (s : Neighbours) : Traced Nat (Heap σ × Nat) :=
  if (segment + h.length segment) % 2 ^ 32 = s.nextSegment then do
    let h ← storeTraced h (segment + 4) ((h.length segment + h.length s.nextSegment) % 2 ^ 32)
    pure (h, s.nextNextSegment)
  else pure (h, s.nextSegment)

/-- The part that joins it to the one before it. -/
def joinPrevTraced (h : Heap σ) (segment : Nat) (s : Neighbours) : Traced Nat (Heap σ × Nat × Nat) :=
  if s.prevSegment ≠ 0 ∧ (s.prevSegment + h.length s.prevSegment) % 2 ^ 32 = segment then do
    let h ← storeTraced h (s.prevSegment + 4) ((h.length s.prevSegment + h.length segment) % 2 ^ 32)
    pure (h, s.prevPrevSegment, s.prevSegment)
  else pure (h, s.prevSegment, segment)

/-- The part that links it in. -/
def linkTraced (h : Heap σ) (prevSegment segment nextSegment : Nat) : Traced Nat (Heap σ) := do
  let h := if h.freeSegmentsHead > segment then h.setHead segment else h
  let h ← storeTraced h prevSegment segment
  storeTraced h segment nextSegment

/-- `linkFreed` -/
def linkFreedTraced (h : Heap σ) (segment : Nat) (s : Neighbours) : Traced Nat (Res (Heap σ)) := do
  let h ← storeTraced h (segment + 4) (h.mem segment)
  let touchesNext := (segment + h.length segment) % 2 ^ 32 = s.nextSegment
  Traced.after (Res.assert (touchesNext → s.nextSegment ≠ 0)) fun _ => do
    let (h, nextSegment) ← joinNextTraced h segment s
    let (h, prevSegment, segment) ← joinPrevTraced h segment s
    let h ← linkTraced h prevSegment segment nextSegment
    pure (.ok h)

/-- `memory_free` -/
def memoryFreeTraced (fuel : Nat) (h : Heap σ) (address : Nat) : Traced Nat (Res (Heap σ)) :=
  if h.freeSegmentsHead = 0 then pure (.ok h)
  else
    let segment := (address + 2 ^ 32 - sizeofSizeT) % 2 ^ 32
    let search := do
      let s ← Res.loop (neighboursStep h segment) fuel ⟨0, 0, 0, h.freeSegmentsHead⟩
      let s ← Res.loop (passStep h segment) fuel s
      Res.assert ((s.prevSegment < segment ∧ s.nextSegment > segment) ∨
        (s.prevSegment < segment ∧ s.nextSegment = 0) ∨ (s.prevSegment = 0 ∧ s.nextSegment > segment))
      .ok s
    Traced.after search fun s => linkFreedTraced h segment s

end OSForReal.Heap
