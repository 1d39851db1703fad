import OSForReal.Arch.Descriptors

/-!
# What the CPU reads in the descriptor tables

A descriptor is read as it was created (`ofWords_gate`, `ofWords_segment`), so
`gdt_init` and `interrupts_init` leave tables in which selector 8 is a code
segment of all addresses and the gate of a vector leads to its stub (`Tables`),
and these stay as long as their bytes do.
-/

namespace OSForReal.Proof.Interrupts

open Framework Framework.X86
open OSForReal.Interrupts

variable {L : Layout} {m m' : Memory} {x mask : Word} {i n v : Nat}

/-! ## One descriptor -/

/-- A field that is shifted down and masked. -/
theorem setWidth_shift_and (k : Nat) (h : mask.setWidth n = BitVec.allOnes n) :
    ((x >>> k) &&& mask).setWidth n = x.extractLsb' k n := by
  rw [BitVec.setWidth_and, h, BitVec.and_allOnes]
  ext i hi
  simp

theorem setWidth_and (h : mask.setWidth n = BitVec.allOnes n) : (x &&& mask).setWidth n = x.extractLsb' 0 n := by
  rw [← setWidth_shift_and 0 h, BitVec.ushiftRight_zero]

/-- The CPU reads the gate that was created. -/
theorem ofWords_gate (m : Memory) (p offset : Word) (selector : BitVec 16) (flags : BitVec 8) :
    Gate.ofWords (loadPair (storeGate m p (interruptsCreateDescriptor offset selector flags)) p) =
      { offset, selector, kind := flags.extractLsb' 0 5, dpl := flags.extractLsb' 5 2, present := flags.getLsbD 7 } := by
  rw [storeGate, loadPair_storePair]
  simp only [Gate.ofWords, interruptsCreateDescriptor, setWidth_shift_and 16 (show (0xffff : Word).setWidth 16 = _ by decide),
    setWidth_and (show (0xffff : Word).setWidth 16 = _ by decide), Gate.mk.injEq]
  refine ⟨?_, ?_, ?_, ?_, ?_⟩ <;> grind

/-- The byte that the limit and the flags share. -/
theorem limitHighAndFlags_eq (base limit : Word) (accessByte flags : BitVec 8) :
    (gdtCreateDescriptor base limit accessByte flags).limitHighAndFlags =
      flags.extractLsb' 0 4 ++ limit.extractLsb' 16 4 := by
  have hmask : ∀ i (hi : i < 8), (15#8)[i] = decide (i < 4) := by decide
  ext i hi
  rw [BitVec.getElem_append]
  by_cases h4 : i < 4
  · simp [gdtCreateDescriptor, hmask i hi, h4]
  · simp [gdtCreateDescriptor, hmask i hi, h4]
    grind

/-- The CPU reads the segment that was created. -/
theorem ofWords_segment (m : Memory) (p base limit : Word) (accessByte flags : BitVec 8) :
    Segment.ofWords (loadPair (storeSegment m p (gdtCreateDescriptor base limit accessByte flags)) p) =
      { base, limit := limit.extractLsb' 0 20, kind := accessByte.extractLsb' 0 5, dpl := accessByte.extractLsb' 5 2
        present := accessByte.getLsbD 7, granular := flags.getLsbD 3, wide := flags.getLsbD 2 } := by
  rw [storeSegment, loadPair_storePair, limitHighAndFlags_eq]
  simp only [Segment.ofWords, gdtCreateDescriptor, setWidth_shift_and 16 (show (0xff : Word).setWidth 8 = _ by decide),
    setWidth_shift_and 24 (show (0xff : Word).setWidth 8 = _ by decide),
    setWidth_and (show (0xffff : Word).setWidth 16 = _ by decide), Segment.mk.injEq]
  refine ⟨?_, ?_, ?_, ?_, ?_, ?_, ?_⟩ <;> grind

/-! ## The tables -/

/-- The tables have no byte in common. -/
structure Placed (L : Layout) : Prop where
  gdt_idt : Apart L.gdt 10 L.idt 512
  gdt_handlers : Apart L.gdt 10 L.registeredHandlers 224
  idt_handlers : Apart L.idt 512 L.registeredHandlers 224

/-- A byte of the tables. -/
def InTables (L : Layout) (x : Word) : Prop :=
  InArray L.gdt 10 x ∨ InArray L.idt 512 x ∨ InArray L.registeredHandlers 224 x

/-- The segment of selector 8: all addresses, for code of any privilege level, which stays at its level. -/
def kernelCode : Segment where
  base := 0
  limit := 0xfffff
  kind := 0x1F
  dpl := 0
  present := true
  granular := true
  wide := true

/-- The gate of a vector. -/
def kernelGate (offset : Word) : Gate where
  offset := offset
  selector := 8
  kind := interruptGate
  dpl := 3
  present := true

/-- The tables in memory, with the handlers `t` of the vectors. -/
structure Tables (L : Layout) (t : Nat → Word) (m : Memory) : Prop where
  code : Segment.ofWords (loadPair m (entry L.gdt (2 * 1))) = kernelCode
  gates : ∀ v < 256, Gate.ofWords (loadPair m (entry L.idt (2 * v))) = kernelGate (L.stubAddress v)
  handlers : ∀ v, 32 ≤ v → v < 256 → load m (entry L.registeredHandlers (v - 32)) = t v

/-- The tables stay as long as their bytes do. -/
theorem Tables.congr {t : Nat → Word} (h : Tables L t m) (hm : ∀ x, InTables L x → m' x = m x) : Tables L t m' where
  code := by
    rw [loadPair_congr_array (n := 5) (by decide) (by decide) fun x hx => hm x (.inl hx)]
    exact h.code
  gates v hv := by
    rw [loadPair_congr_array (n := 256) (by decide) hv fun x hx => hm x (.inr (.inl hx))]
    exact h.gates v hv
  handlers v hv hv' := by
    rw [load_congr_array (n := 224) (by decide) (by omega) fun x hx => hm x (.inr (.inr hx))]
    exact h.handlers v hv hv'

/-- `registered_handlers[vector - 32]` is the word of the vector. -/
theorem registeredHandler_eq (hv : 32 ≤ v) (hv' : v < 256) :
    registeredHandler L (BitVec.ofNat 32 v) = entry L.registeredHandlers (v - 32) := by
  obtain ⟨k, rfl⟩ := Nat.exists_eq_add_of_le hv
  have hsub : BitVec.ofNat 32 (32 + k) - 32 = BitVec.ofNat 32 k := by
    rw [BitVec.ofNat_add]
    exact add_sub_cancel_left _ _
  rw [registeredHandler, hsub, entry, Nat.add_sub_cancel_left]
  exact congrArg _ (BitVec.ofNat_mul ..).symm

/-- Registering a handler changes that of its vector. -/
theorem Tables.register {t : Nat → Word} (h : Tables L t m) (P : Placed L) (hv : 32 ≤ v) (hv' : v < 256) (handler : Word) :
    Tables L (Function.update t v handler) (interruptsRegisterHandler L (BitVec.ofNat 32 v) handler m) := by
  have hslot : v - 32 < 224 := by omega
  rw [interruptsRegisterHandler, registeredHandler_eq hv hv']
  refine ⟨?_, fun u hu => ?_, fun u hu hu' => ?_⟩
  · rw [loadPair_congr_array (n := 5) (by decide) (by decide) fun x hx =>
      store_outside_array (by decide) hslot (P.gdt_handlers x hx)]
    exact h.code
  · rw [loadPair_congr_array (n := 256) (by decide) hu fun x hx =>
      store_outside_array (by decide) hslot (P.idt_handlers x hx)]
    exact h.gates u hu
  · by_cases huv : u = v
    · rw [huv, Function.update_self, load_store_self]
    · rw [Function.update_of_ne huv, load_store_entry (n := 224) (by decide) hslot (by omega) (by omega)]
      exact h.handlers u hu hu'

/-! ## After the initialisation -/

/-- `gdt_init` leaves the segment of the kernel's code. -/
theorem gdtInit_code (L : Layout) (m : Memory) :
    Segment.ofWords (loadPair (gdtInit L m).1 (entry L.gdt (2 * 1))) = kernelCode := by
  have hkeep : ∀ (m : Memory) (d : SegmentDescriptor) (i : Nat), i < 5 → i ≠ 1 →
      loadPair (storeSegment m (entry L.gdt (2 * i)) d) (entry L.gdt (2 * 1)) = loadPair m (entry L.gdt (2 * 1)) :=
    fun m d i hi hne => loadPair_storePair_entry (n := 5) (by decide) hi (by decide) hne
  show Segment.ofWords (loadPair (storeSegment (storeSegment (storeSegment (storeSegment (storeSegment m
    (entry L.gdt (2 * 0)) _) (entry L.gdt (2 * 1)) _) (entry L.gdt (2 * 2)) _) (entry L.gdt (2 * 3)) _)
    (entry L.gdt (2 * 4)) _) _) = _
  rw [hkeep _ _ 4 (by decide) (by decide), hkeep _ _ 3 (by decide) (by decide), hkeep _ _ 2 (by decide) (by decide),
    ofWords_segment]
  rfl

theorem gdtInit_gdtr (L : Layout) (m : Memory) : (gdtInit L m).2 = { size := 39, offset := L.gdt } := by
  simp only [gdtInit]
  rfl

/-- Where `interrupts_init` stores a gate. -/
theorem setGate_eq (L : Layout) (m : Memory) (v : Nat) : setGate L m v =
    storeGate m (entry L.idt (2 * v)) (interruptsCreateDescriptor (L.stubAddress v) 0x8
      (idtGateInt32 ||| idtPriv3 ||| idtPresent)) := by
  rw [entry, ← Nat.mul_assoc]
  rfl

/-- The loop over the gates. -/
def gatesSet (L : Layout) (m : Memory) : Memory := (List.range 256).foldl (setGate L) m

/-- The loop over the handlers. -/
def handlersSet (L : Layout) (m : Memory) : Memory :=
  (List.range (256 - 32)).foldl (fun m i => store m (entry L.registeredHandlers i) L.defaultRegisteredHandler) m

theorem gatesSet_gate (hv : v < 256) :
    Gate.ofWords (loadPair (gatesSet L m) (entry L.idt (2 * v))) = kernelGate (L.stubAddress v) := by
  refine foldl_range_all (f := setGate L)
    (P := fun v m => Gate.ofWords (loadPair m (entry L.idt (2 * v))) = kernelGate (L.stubAddress v))
    (fun m v _ => ?_) (fun m u v hu hv hne h => ?_) m v hv
  · rw [setGate_eq, ofWords_gate]
    rfl
  · rw [setGate_eq, storeGate, loadPair_storePair_entry (n := 256) (by decide) hv hu (Ne.symm hne)]
    exact h

theorem gatesSet_outside (hx : ¬ InArray L.idt 512 x) : gatesSet L m x = m x := by
  refine foldl_range_keeps (P := fun m' : Memory => m' x = m x) (fun m' v hv h => ?_) rfl
  rw [setGate_eq, storeGate, storePair_outside_array (n := 256) (by decide) hv hx]
  exact h

theorem handlersSet_handler (hi : i < 224) :
    load (handlersSet L m) (entry L.registeredHandlers i) = L.defaultRegisteredHandler := by
  refine foldl_range_all (P := fun i m => load m (entry L.registeredHandlers i) = L.defaultRegisteredHandler)
    (fun m i _ => load_store_self ..) (fun m i j hi hj hne h => ?_) m i hi
  rw [load_store_entry (n := 224) (by decide) hj hi (Ne.symm hne)]
  exact h

theorem handlersSet_outside (hx : ¬ InArray L.registeredHandlers 224 x) : handlersSet L m x = m x := by
  refine foldl_range_keeps (P := fun m' : Memory => m' x = m x) (fun m' i hi h => ?_) rfl
  rw [store_outside_array (by decide) hi hx]
  exact h

section

variable {σ : Type} (out8 : BitVec 16 → BitVec 8 → σ → σ) (L : Layout) (m : Memory) (s : σ)

theorem interruptsInit_mem : (interruptsInit out8 L m s).1 = handlersSet L (gatesSet L m) := by
  simp only [interruptsInit, handlersSet, gatesSet, entry]

theorem interruptsInit_idtr : (interruptsInit out8 L m s).2.1 = { size := 2047, offset := L.idt } := by
  simp only [interruptsInit]
  rfl

theorem interruptsInit_devices : (interruptsInit out8 L m s).2.2 = picInit out8 s := by
  simp only [interruptsInit]

end

/-- `interrupts_init` leaves the gates of the stubs and the default handler for every vector, and keeps the GDT. -/
theorem interruptsInit_tables {σ : Type} (out8 : BitVec 16 → BitVec 8 → σ → σ) (s : σ) (P : Placed L)
    (hcode : Segment.ofWords (loadPair m (entry L.gdt (2 * 1))) = kernelCode) :
    Tables L (fun _ => L.defaultRegisteredHandler) (interruptsInit out8 L m s).1 := by
  rw [interruptsInit_mem]
  refine ⟨?_, fun v hv => ?_, fun v hv hv' => handlersSet_handler (by omega)⟩
  · rw [loadPair_congr_array (n := 5) (by decide) (by decide) fun x hx =>
      (handlersSet_outside (P.gdt_handlers x hx)).trans (gatesSet_outside (P.gdt_idt x hx))]
    exact hcode
  · rw [loadPair_congr_array (n := 256) (by decide) hv fun x hx => handlersSet_outside (P.idt_handlers x hx)]
    exact gatesSet_gate hv

end OSForReal.Proof.Interrupts
