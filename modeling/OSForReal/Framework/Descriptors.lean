import OSForReal.Framework.X86

/-!
# Descriptor tables of the 32-bit x86

A table is an array of words in memory, or of pairs of words: storing an entry
keeps the others (`load_store_entry`, `loadPair_storePair_entry`) and what is
outside the table (`store_outside_array`), and a loop over an array sets all of
its entries (`foldl_range_all`). A gate and a segment descriptor are what the CPU
makes of a pair, and `enter` is where it goes for a vector.
-/

namespace Framework.X86

/-! ## Arrays of words -/

/-- The address of the word `i` of the array at `a`. -/
def entry (a : Word) (i : Nat) : Word := a + BitVec.ofNat 32 (4 * i)

/-- A byte of the array of `n` words at `a`. -/
def InArray (a : Word) (n : Nat) (x : Word) : Prop := (x - a).toNat < 4 * n

/-- The arrays of `n` words at `a` and of `k` words at `b` have no byte in common. -/
def Apart (a : Word) (n : Nat) (b : Word) (k : Nat) : Prop := ∀ x, InArray a n x → ¬ InArray b k x

section

variable {m m' : Memory} {a b v x : Word} {i j k n : Nat}

theorem entry_succ (a : Word) (i : Nat) : entry a i + 4 = entry a (i + 1) := by
  rw [entry, entry, ofNat_four_mul_succ]
  ring

theorem load_congr (h : ∀ c : Word, c.toNat < 4 → m' (a + c) = m (a + c)) : load m' a = load m a := by
  have h0 : m' a = m a := by simpa using h 0 (by decide)
  have h3 : a + 2 + 1 = a + 3 := by ring
  simp only [load, loadHalf, h3, h 3 (by decide), h 2 (by decide), h 1 (by decide), h0]

/-- The bytes of a word of an array. -/
theorem entry_add_sub (hi : 4 * i + 4 ≤ 2 ^ 32) {c : Word} (hc : c.toNat < 4) :
    (entry a i + c - a).toNat = 4 * i + c.toNat := by
  have hdist : entry a i + c - a = BitVec.ofNat 32 (4 * i) + c := by
    rw [entry]
    ring
  rw [hdist, BitVec.toNat_add, BitVec.toNat_ofNat, Nat.mod_eq_of_lt (by omega), Nat.mod_eq_of_lt (by omega)]

theorem inArray_entry (hn : 4 * n ≤ 2 ^ 32) (hi : i < n) {c : Word} (hc : c.toNat < 4) : InArray a n (entry a i + c) := by
  rw [InArray, entry_add_sub (by omega) hc]
  omega

/-- A byte that a store to a word of an array changes is one of the array. -/
theorem inArray_of_store (hn : 4 * n ≤ 2 ^ 32) (hi : i < n) (h : (x - entry a i).toNat < 4) : InArray a n x := by
  have hx : entry a i + (x - entry a i) = x := by ring
  have hin := inArray_entry (a := a) hn hi h
  rwa [hx] at hin

theorem store_outside_array (hn : 4 * n ≤ 2 ^ 32) (hi : i < n) (hx : ¬ InArray a n x) :
    store m (entry a i) v x = m x :=
  store_outside (Nat.le_of_not_lt fun h => hx (inArray_of_store hn hi h))

/-- Another word of the array is kept. -/
theorem load_store_entry (hn : 4 * n ≤ 2 ^ 32) (hi : i < n) (hj : j < n) (hij : i ≠ j) :
    load (store m (entry a i) v) (entry a j) = load m (entry a j) := by
  refine load_congr fun c hc => store_outside (Nat.le_of_not_lt fun h => hij ?_)
  have hx : entry a i + (entry a j + c - entry a i) = entry a j + c := by ring
  have hi' := entry_add_sub (a := a) (i := i) (by omega) h
  rw [hx, entry_add_sub (by omega) hc] at hi'
  omega

theorem load_congr_array (hn : 4 * n ≤ 2 ^ 32) (hi : i < n) (h : ∀ x, InArray a n x → m' x = m x) :
    load m' (entry a i) = load m (entry a i) :=
  load_congr fun _ hc => h _ (inArray_entry hn hi hc)

theorem words_congr (hn : 4 * n ≤ 2 ^ 32) (h : ∀ x, InArray a n x → m' x = m x) : words m' a n = words m a n := by
  have hall : ∀ k i, i + k = n → words m' (entry a i) k = words m (entry a i) k := by
    intro k
    induction k with
    | zero => exact fun i _ => rfl
    | succ k ih =>
      intro i hi
      rw [words, words, entry_succ, ih (i + 1) (by omega), load_congr_array hn (by omega) h]
  have h0 : entry a 0 = a := add_zero a
  rw [← h0]
  exact hall n 0 (Nat.zero_add n)

end

/-! ## Arrays of pairs -/

/-- The two words of a descriptor. -/
def loadPair (m : Memory) (a : Word) : Word × Word := (load m a, load m (a + 4))

def storePair (m : Memory) (a : Word) (w : Word × Word) : Memory := store (store m a w.1) (a + 4) w.2

section

variable {m m' : Memory} {a b x : Word} {w : Word × Word} {i j k n : Nat}

theorem loadPair_storePair (m : Memory) (a : Word) (w : Word × Word) : loadPair (storePair m a w) a = w := by
  have hback : a - (a + 4) = (-4 : Word) := by ring
  have hlow : load (store (store m a w.1) (a + 4) w.2) a = load (store m a w.1) a := by
    refine load_store_of_le ?_ ?_
    all_goals
      rw [hback]
      decide
  rw [loadPair, storePair, hlow, load_store_self, load_store_self]

/-- Another descriptor of the table is kept. -/
theorem loadPair_storePair_entry (hn : 8 * n ≤ 2 ^ 32) (hi : i < n) (hj : j < n) (hij : i ≠ j) :
    loadPair (storePair m (entry a (2 * i)) w) (entry a (2 * j)) = loadPair m (entry a (2 * j)) := by
  have hkeep : ∀ k < 2 * n, k ≠ 2 * i → k ≠ 2 * i + 1 →
      load (storePair m (entry a (2 * i)) w) (entry a k) = load m (entry a k) := by
    intro k hk hlow hhigh
    rw [storePair, entry_succ, load_store_entry (n := 2 * n) (by omega) (by omega) hk (Ne.symm hhigh),
      load_store_entry (n := 2 * n) (by omega) (by omega) hk (Ne.symm hlow)]
  rw [loadPair, loadPair, entry_succ, hkeep _ (by omega) (by omega) (by omega), hkeep _ (by omega) (by omega) (by omega)]

theorem storePair_outside_array (hn : 8 * n ≤ 2 ^ 32) (hi : i < n) (hx : ¬ InArray a (2 * n) x) :
    storePair m (entry a (2 * i)) w x = m x := by
  rw [storePair, entry_succ, store_outside_array (by omega) (by omega) hx, store_outside_array (by omega) (by omega) hx]

theorem loadPair_congr_array (hn : 8 * n ≤ 2 ^ 32) (hi : i < n) (h : ∀ x, InArray a (2 * n) x → m' x = m x) :
    loadPair m' (entry a (2 * i)) = loadPair m (entry a (2 * i)) := by
  rw [loadPair, loadPair, entry_succ, load_congr_array (by omega) (by omega) h, load_congr_array (by omega) (by omega) h]

end

/-! ## Loops over arrays -/

section

variable {σ : Type*} {f : σ → Nat → σ} {n : Nat}

/-- A loop that sets its own entry at each pass, and keeps those of the others, sets them all. -/
theorem foldl_range_all {P : Nat → σ → Prop} (hset : ∀ s, ∀ i < n, P i (f s i))
    (hkeep : ∀ s i j, i < n → j < n → i ≠ j → P i s → P i (f s j)) (s : σ) :
    ∀ i < n, P i ((List.range n).foldl f s) := by
  suffices h : ∀ k ≤ n, ∀ i < k, P i ((List.range k).foldl f s) from h n (Nat.le_refl n)
  intro k
  induction k with
  | zero => exact fun _ i hi => absurd hi (Nat.not_lt_zero i)
  | succ k ih =>
    intro hk i hi
    rw [List.range_succ, List.foldl_append, List.foldl_cons, List.foldl_nil]
    by_cases hik : i = k
    · rw [hik]
      exact hset _ k hk
    · exact hkeep _ i k (by omega) hk hik (ih (by omega) i (by omega))

/-- What every pass of a loop keeps. -/
theorem foldl_range_keeps {P : σ → Prop} (hkeep : ∀ s, ∀ i < n, P s → P (f s i)) {s : σ} (hs : P s) :
    P ((List.range n).foldl f s) := by
  have h : ∀ l : List Nat, (∀ i ∈ l, i < n) → ∀ s, P s → P (l.foldl f s) := by
    intro l
    induction l with
    | nil => exact fun _ s hs => hs
    | cons i l ih =>
      intro hl s hs
      exact ih (fun j hj => hl j (List.mem_cons_of_mem _ hj)) _ (hkeep s i (hl i List.mem_cons_self) hs)
  exact h _ (fun i hi => List.mem_range.mp hi) s hs

end

/-! ## Descriptors -/

/-- A register with the place of a table, and its last byte. -/
structure TableRegister where
  size : BitVec 16
  offset : Word
deriving DecidableEq, Repr

/-- A gate of the interrupt descriptor table. -/
structure Gate where
  offset : Word
  selector : BitVec 16
  kind : BitVec 5
  dpl : BitVec 2
  present : Bool
deriving DecidableEq, Repr

/-- A descriptor of the global descriptor table. -/
structure Segment where
  base : Word
  limit : BitVec 20
  kind : BitVec 5
  dpl : BitVec 2
  present : Bool
  /-- Whether the limit is in pages. -/
  granular : Bool
  /-- Whether the code is 32-bit code. -/
  wide : Bool
deriving DecidableEq, Repr

/-- The gate in two words. -/
def Gate.ofWords (w : Word × Word) : Gate where
  offset := w.2.extractLsb' 16 16 ++ w.1.extractLsb' 0 16
  selector := w.1.extractLsb' 16 16
  kind := w.2.extractLsb' 8 5
  dpl := w.2.extractLsb' 13 2
  present := w.2.getLsbD 15

/-- The segment descriptor in two words. -/
def Segment.ofWords (w : Word × Word) : Segment where
  base := w.2.extractLsb' 24 8 ++ w.2.extractLsb' 0 8 ++ w.1.extractLsb' 16 16
  limit := w.2.extractLsb' 16 4 ++ w.1.extractLsb' 0 16
  kind := w.2.extractLsb' 8 5
  dpl := w.2.extractLsb' 13 2
  present := w.2.getLsbD 15
  granular := w.2.getLsbD 23
  wide := w.2.getLsbD 22

/-- The kinds of a 32-bit interrupt gate and of a 32-bit trap gate. -/
def interruptGate : BitVec 5 := 0x0E

def trapGate : BitVec 5 := 0x0F

/-- A code segment. -/
def Segment.isCode (s : Segment) : Bool := s.kind.getLsbD 4 && s.kind.getLsbD 3

/-- A code segment that keeps the privilege level of what enters it. -/
def Segment.conforming (s : Segment) : Bool := s.kind.getLsbD 2

/-- The last offset in the segment. -/
def Segment.lastByte (s : Segment) : Nat := if s.granular then 2 ^ 12 * s.limit.toNat + 0xfff else s.limit.toNat

/-- Where the CPU is after it entered the code for a vector. -/
structure Entry where
  address : Word
  cpl : BitVec 2
  /-- Whether interrupts are off. -/
  masked : Bool
  wide : Bool
deriving DecidableEq, Repr

/-- What the CPU does for a vector at the privilege level `cpl`, by `int` if `software`: it goes where the gate
and its segment say, or raises a fault. Task gates and those of 16 bits are not modelled. -/
def enter (gdtr idtr : TableRegister) (m : Memory) (vector : Nat) (cpl : BitVec 2) (software : Bool) : Option Entry :=
  let gate := Gate.ofWords (loadPair m (entry idtr.offset (2 * vector)))
  let index := (gate.selector.extractLsb' 3 13).toNat
  let segment := Segment.ofWords (loadPair m (entry gdtr.offset (2 * index)))
  if 8 * vector + 7 ≤ idtr.size.toNat ∧ (gate.kind = interruptGate ∨ gate.kind = trapGate) ∧
      (software → cpl ≤ gate.dpl) ∧ gate.present ∧ gate.selector.getLsbD 2 = false ∧ index ≠ 0 ∧
      8 * index + 7 ≤ gdtr.size.toNat ∧ segment.isCode ∧ segment.dpl ≤ cpl ∧ segment.present ∧
      gate.offset.toNat ≤ segment.lastByte then
    some {
      address := segment.base + gate.offset
      cpl := if segment.conforming then cpl else segment.dpl
      masked := gate.kind = interruptGate
      wide := segment.wide }
  else none

/-! ## What a stub does to memory -/

/-- `n` words are pushed, and nothing else is changed in memory. -/
structure Grows (s s' : State) (n : Nat) : Prop where
  esp : s'.regs .esp = s.regs .esp - BitVec.ofNat 32 (4 * n)
  mem : ∀ x, ¬ InArray (s.regs .esp - BitVec.ofNat 32 (4 * n)) n x → s'.mem x = s.mem x

section

variable {s s₁ s' : State} {v : Word} {k n : Nat}

theorem Grows.push (s : State) (v : Word) : Grows s (s.push v) 1 where
  esp := State.push_esp
  mem _ hx := store_outside (Nat.le_of_not_lt hx)

theorem Grows.trans (h : Grows s s₁ n) (h' : Grows s₁ s' k) : Grows s s' (n + k) := by
  have hsum : BitVec.ofNat 32 (4 * (n + k)) = BitVec.ofNat 32 (4 * n) + BitVec.ofNat 32 (4 * k) := by
    rw [Nat.mul_add, BitVec.ofNat_add]
  have hesp : s.regs .esp - BitVec.ofNat 32 (4 * n) - BitVec.ofNat 32 (4 * k) =
      s.regs .esp - BitVec.ofNat 32 (4 * (n + k)) := by
    rw [hsum]
    ring
  refine ⟨by rw [h'.esp, h.esp, hesp], fun x hx => ?_⟩
  have hk : ¬ InArray (s₁.regs .esp - BitVec.ofNat 32 (4 * k)) k x := by
    intro hin
    apply hx
    rw [h.esp, hesp] at hin
    exact Nat.lt_of_lt_of_le hin (Nat.mul_le_mul_left 4 (Nat.le_add_left k n))
  have hn : ¬ InArray (s.regs .esp - BitVec.ofNat 32 (4 * n)) n x := by
    intro hin
    apply hx
    rw [← hesp]
    have hdist : x - (s.regs .esp - BitVec.ofNat 32 (4 * n) - BitVec.ofNat 32 (4 * k)) =
        x - (s.regs .esp - BitVec.ofNat 32 (4 * n)) + BitVec.ofNat 32 (4 * k) := by ring
    rw [InArray, hdist, BitVec.toNat_add]
    rw [InArray] at hin
    refine Nat.lt_of_le_of_lt (Nat.mod_le _ _) ?_
    rw [BitVec.toNat_ofNat]
    have hle := Nat.mod_le (4 * k) (2 ^ 32)
    omega
  rw [h'.mem x hk, h.mem x hn]

end

/-- Code that pushes nothing leaves memory alone. -/
theorem run_mem {F : Type} {next : List (Instr F) → Word} {c : List (Instr F)} {s : State}
    (hc : ∀ i ∈ c, (∃ r, i = .pop r) ∨ (∃ v r, i = .add v r) ∨ i = .iret) : (run next c s).2.mem = s.mem := by
  induction c generalizing s with
  | nil => rfl
  | cons i c ih =>
    have hrest : ∀ j ∈ c, _ := fun j hj => hc j (List.mem_cons_of_mem _ hj)
    obtain ⟨r, rfl⟩ | ⟨v, r, rfl⟩ | rfl := hc i List.mem_cons_self
    · exact ih hrest
    · exact ih hrest
    · rfl

end Framework.X86
