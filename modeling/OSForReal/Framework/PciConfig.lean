import Mathlib.Data.BitVec

/-!
# The configuration space of PCI

A register is named by its bus, device, function and number (`PciRegister`). The
first configuration mechanism reaches it in two accesses: its name goes to
the address port, and its value through the data port.

* `PciRegister.named_address`: an address names the register that it was made for.
-/

namespace Framework

/-- A register of 32 bits, as an address names it. -/
structure PciRegister where
  bus : BitVec 8
  device : BitVec 5
  function : BitVec 3
  number : BitVec 6
deriving DecidableEq, Repr

namespace PciRegister

/-- The address of the register, with the bit that enables the data port. -/
def address (r : PciRegister) : BitVec 32 := 1#1 ++ 0#7 ++ r.bus ++ r.device ++ r.function ++ r.number ++ 0#2

/-- The register that an address names. -/
def named (a : BitVec 32) : PciRegister :=
  ⟨a.extractLsb' 16 8, a.extractLsb' 11 5, a.extractLsb' 8 3, a.extractLsb' 2 6⟩

@[simp] theorem named_address (r : PciRegister) : named r.address = r := by
  obtain ⟨bus, device, function, number⟩ := r
  simp only [named, address, PciRegister.mk.injEq]
  refine ⟨?_, ?_, ?_, ?_⟩
  all_goals
    ext i hi
    simp only [BitVec.getElem_extractLsb', BitVec.getLsbD_append]
    grind

end PciRegister

/-- The ports, and the registers behind them: of a register the bits of its mask can be written. -/
structure PciConfig where
  address : BitVec 32
  value : PciRegister → BitVec 32
  writable : PciRegister → BitVec 32

namespace PciConfig

/-- The data port is enabled. -/
def enabled (p : PciConfig) : Bool := p.address.getLsbD 31

/-- A register is written. -/
def write (r : PciRegister) (v : BitVec 32) (p : PciConfig) : PciConfig :=
  { p with value := Function.update p.value r (p.value r &&& ~~~p.writable r ||| v &&& p.writable r) }

/-- A double word is read from a port. -/
def in32 (port : BitVec 16) (p : PciConfig) : BitVec 32 :=
  if port = 0xCF8 then p.address
  else if port = 0xCFC ∧ p.enabled then p.value (.named p.address)
  else BitVec.allOnes 32

/-- A double word is written to a port. -/
def out32 (port : BitVec 16) (v : BitVec 32) (p : PciConfig) : PciConfig :=
  if port = 0xCF8 then { p with address := v }
  else if port = 0xCFC ∧ p.enabled then p.write (.named p.address) v
  else p

end PciConfig

end Framework
