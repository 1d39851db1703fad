import OSForReal.Arch.Interrupts
import OSForReal.Framework.Descriptors
import OSForReal.Hal.Pic

/-!
# The descriptor tables and the registered handlers (`arch/x86/boot/gdt.c`, `arch/x86/interrupts.c`)

`gdt_init`, `interrupts_init`, `interrupts_register_handler` and
`c_interrupt_dispatch`, on the memory of the kernel. Where the tables and the
functions are is a `Layout`. The 256 assignments to `idt` differ in the vector
only, so they are one loop.
-/

namespace OSForReal.Interrupts

open Framework.X86

/-- Where the linker put the tables, `default_registered_handler` and the stubs. -/
structure Layout where
  gdt : Word
  idt : Word
  registeredHandlers : Word
  defaultRegisteredHandler : Word
  stubAddress : Nat → Word

/-! ## `gdt.c` -/

/-- `Segment_Descriptor` -/
structure SegmentDescriptor where
  limitLow : BitVec 16
  baseLow : BitVec 16
  baseMid : BitVec 8
  accessByte : BitVec 8
  limitHighAndFlags : BitVec 8
  baseHigh : BitVec 8
deriving DecidableEq, Repr

/-- `GDT_AB_ACCESSED` -/
def gdtAbAccessed : BitVec 8 := 1 <<< 0

/-- `GDT_AB_RW` -/
def gdtAbRw : BitVec 8 := 1 <<< 1

/-- `GDT_AB_DIR_CONFORM` -/
def gdtAbDirConform : BitVec 8 := 1 <<< 2

/-- `GDT_AB_EXEC` -/
def gdtAbExec : BitVec 8 := 1 <<< 3

/-- `GDT_AB_DATACODE` -/
def gdtAbDatacode : BitVec 8 := 1 <<< 4

/-- `GDT_AB_PRIV_3` -/
def gdtAbPriv3 : BitVec 8 := 3 <<< 5

/-- `GDT_AB_PRESENT` -/
def gdtAbPresent : BitVec 8 := 1 <<< 7

/-- `GDT_FLAGS_SIZE32` -/
def gdtFlagsSize32 : BitVec 8 := 1 <<< 2

/-- `GDT_FLAGS_GRAN4K` -/
def gdtFlagsGran4k : BitVec 8 := 1 <<< 3

/-- `gdt_create_descriptor` -/
def gdtCreateDescriptor (base limit : Word) (accessByte flags : BitVec 8) : SegmentDescriptor where
  limitLow := (limit &&& 0xffff).setWidth 16
  baseLow := (base &&& 0xffff).setWidth 16
  baseMid := ((base >>> 16) &&& 0xff).setWidth 8
  accessByte := accessByte
  limitHighAndFlags := (((limit >>> 16) &&& 0xf) ||| (flags.setWidth 32 <<< 4)).setWidth 8
  baseHigh := ((base >>> 24) &&& 0xff).setWidth 8

/-- `*p = d`, the fields in order without padding. -/
def storeSegment (m : Memory) (p : Word) (d : SegmentDescriptor) : Memory :=
  storePair m p (d.baseLow ++ d.limitLow, d.baseHigh ++ d.limitHighAndFlags ++ d.accessByte ++ d.baseMid)

/-- `gdt_init`: the memory, and what `lgdt` loads. -/
def gdtInit (L : Layout) (m : Memory) : Memory × TableRegister :=
  -- Null descriptor.
  let m := storeSegment m (L.gdt + 8 * 0) ⟨0, 0, 0, 0, 0, 0⟩
  -- Kernel code descriptor.
  let m := storeSegment m (L.gdt + 8 * 1) (gdtCreateDescriptor 0 0xfffff
    (gdtAbAccessed ||| gdtAbRw ||| gdtAbDirConform ||| gdtAbExec ||| gdtAbDatacode ||| gdtAbPresent)
    (gdtFlagsGran4k ||| gdtFlagsSize32))
  -- Kernel data descriptor.
  let m := storeSegment m (L.gdt + 8 * 2) (gdtCreateDescriptor 0 0xfffff
    (gdtAbAccessed ||| gdtAbRw ||| gdtAbDatacode ||| gdtAbPresent) (gdtFlagsGran4k ||| gdtFlagsSize32))
  -- User code descriptor.
  let m := storeSegment m (L.gdt + 8 * 3) (gdtCreateDescriptor 0 0xfffff
    (gdtAbAccessed ||| gdtAbRw ||| gdtAbDirConform ||| gdtAbExec ||| gdtAbPriv3 ||| gdtAbDatacode ||| gdtAbPresent)
    (gdtFlagsGran4k ||| gdtFlagsSize32))
  -- User data descriptor.
  let m := storeSegment m (L.gdt + 8 * 4) (gdtCreateDescriptor 0 0xfffff
    (gdtAbAccessed ||| gdtAbRw ||| gdtAbPriv3 ||| gdtAbDatacode ||| gdtAbPresent) (gdtFlagsGran4k ||| gdtFlagsSize32))
  (m, { size := 5 * 8 - 1, offset := L.gdt })

/-! ## `interrupts.c` -/

/-- `Gate_Descriptor` -/
structure GateDescriptor where
  offsetLow : BitVec 16
  segmentSelector : BitVec 16
  reserved : BitVec 8
  flags : BitVec 8
  offsetHigh : BitVec 16
deriving DecidableEq, Repr

/-- `IDT_GATE_INT32` -/
def idtGateInt32 : BitVec 8 := 0xE

/-- `IDT_PRIV_3` -/
def idtPriv3 : BitVec 8 := 3 <<< 5

/-- `IDT_PRESENT` -/
def idtPresent : BitVec 8 := 1 <<< 7

/-- `interrupts_create_descriptor` -/
def interruptsCreateDescriptor (offset : Word) (segmentSelector : BitVec 16) (flags : BitVec 8) : GateDescriptor where
  offsetLow := (offset &&& 0xffff).setWidth 16
  segmentSelector := segmentSelector
  reserved := 0
  flags := flags
  offsetHigh := ((offset >>> 16) &&& 0xffff).setWidth 16

/-- `*p = d`, the fields in order without padding. -/
def storeGate (m : Memory) (p : Word) (d : GateDescriptor) : Memory :=
  storePair m p (d.segmentSelector ++ d.offsetLow, d.offsetHigh ++ d.flags ++ d.reserved)

/-- `idt[vector] = …` in `interrupts_init`. -/
def setGate (L : Layout) (m : Memory) (vector : Nat) : Memory :=
  let segmentSelector := 0x8
  let flags := idtGateInt32 ||| idtPriv3 ||| idtPresent
  storeGate m (L.idt + BitVec.ofNat 32 (8 * vector))
    (interruptsCreateDescriptor (L.stubAddress vector) segmentSelector flags)

/-- `interrupts_init`: the memory, what `lidt` loads, and the devices behind `out_8`. -/
def interruptsInit {σ : Type} (out8 : BitVec 16 → BitVec 8 → σ → σ) (L : Layout) (m : Memory) (s : σ) :
    Memory × TableRegister × σ :=
  let s := picInit out8 s
  -- Set up the IDT handlers.
  let m := (List.range 256).foldl (setGate L) m
  -- Initialise the IDTR.
  let idtr := { size := 256 * 8 - 1, offset := L.idt }
  -- Initialize the registered interrupts.
  let m := (List.range (256 - 32)).foldl
    (fun m i => store m (L.registeredHandlers + BitVec.ofNat 32 (4 * i)) L.defaultRegisteredHandler) m
  (m, idtr, s)

/-- `&registered_handlers[vector - 32]` -/
def registeredHandler (L : Layout) (vector : Word) : Word := L.registeredHandlers + 4 * (vector - 32)

/-- `c_interrupt_dispatch`, at its entry: the function that it calls, with its `frame`. -/
def cInterruptDispatch (L : Layout) (s : State) : Word × Word :=
  (load s.mem (registeredHandler L (vectorArgument s)), frameArgument s)

/-- `interrupts_register_handler` -/
def interruptsRegisterHandler (L : Layout) (vector handler : Word) (m : Memory) : Memory :=
  store m (registeredHandler L vector) handler

end OSForReal.Interrupts
