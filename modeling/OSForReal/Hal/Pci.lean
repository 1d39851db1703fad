import OSForReal.Hal.Ide

/-!
# PCI (`hal/pci.c`)

A register of the configuration space is read and written through two ports, over
any `DwordIo`. `pci_init` looks for the IDE controller at one place.
-/

namespace OSForReal

open Framework (Res)

/-- `in_32` and `out_32`. -/
structure DwordIo (σ : Type) where
  in32 : BitVec 16 → σ → BitVec 32 × σ
  out32 : BitVec 16 → BitVec 32 → σ → σ

/-- `PCI_CONFIG_ADDRESS` -/
def pciConfigAddress : BitVec 16 := 0xCF8

/-- `PCI_CONFIG_DATA` -/
def pciConfigData : BitVec 16 := 0xCFC

/-- `PCI_ADDRESS_ENABLE` -/
def pciAddressEnable : BitVec 32 := 0x80000000

/-- `pci_get_register_address` -/
def pciGetRegisterAddress (bus device function reg : BitVec 8) : Res (BitVec 32) := do
  Res.assert (reg &&& 0x3 = 0)
  let bus32 := bus.setWidth 32
  let device32 := device.setWidth 32
  let function32 := function.setWidth 32
  let reg32 := reg.setWidth 32
  return pciAddressEnable ||| bus32 <<< 16 ||| device32 <<< 11 ||| function32 <<< 8 ||| reg32

section

variable {σ : Type} (P : DwordIo σ)

/-- `pci_read_register` -/
def pciReadRegister (bus device function reg : BitVec 8) (s : σ) : Res (BitVec 32 × σ) := do
  let address ← pciGetRegisterAddress bus device function reg
  let s := P.out32 pciConfigAddress address s
  return P.in32 pciConfigData s

/-- `pci_write_register` -/
def pciWriteRegister (bus device function reg : BitVec 8) (value : BitVec 32) (s : σ) : Res σ := do
  let address ← pciGetRegisterAddress bus device function reg
  let s := P.out32 pciConfigAddress address s
  return P.out32 pciConfigData value s

/-- How `pci_init` switches to PCI native mode if possible: the mode, the fields with it, and whether they are written. -/
def pciNativeMode (progIf : BitVec 8) (fields : BitVec 32) : BitVec 8 × BitVec 32 × Bool :=
  let (progIf, fields, shouldWriteProgIf) :=
    if progIf &&& 0x2 ≠ 0 then (progIf ||| 0x1, fields ||| (progIf ||| 0x1).setWidth 32 <<< 8, true)
    else (progIf, fields, false)
  if progIf &&& 0x8 ≠ 0 then (progIf ||| 0x4, fields ||| (progIf ||| 0x4).setWidth 32 <<< 8, true)
  else (progIf, fields, shouldWriteProgIf)

/-- The second part of `pci_init`: the base addresses are read for `ide_init`. -/
def pciInitDrives (Q : WordIo σ) (fuel : Nat) (ideBus ideDevice ideFunction : BitVec 8)
    (primaryPciNative secondaryPciNative : Bool) (t : IdeTables) (s : σ) : Res (Bool × IdeTables × σ) := do
  let (fields, s) ← pciReadRegister P ideBus ideDevice ideFunction 12 s
  -- The bits that are taken for the header type.
  let headerType := (fields >>> 24) &&& 0xFF
  Res.assert (headerType = 0)
  let (bar0, s) ← pciReadRegister P ideBus ideDevice ideFunction 16 s
  let (bar1, s) ← pciReadRegister P ideBus ideDevice ideFunction 20 s
  let (bar2, s) ← pciReadRegister P ideBus ideDevice ideFunction 24 s
  let (bar3, s) ← pciReadRegister P ideBus ideDevice ideFunction 28 s
  let (_, s) ← pciReadRegister P ideBus ideDevice ideFunction 32 s
  let bar := fun (v : BitVec 32) => UInt16.ofBitVec (v.setWidth 16)
  ideInit Q fuel primaryPciNative secondaryPciNative (bar bar0) (bar bar1) (bar bar2) (bar bar3) t s

/-- `pci_init`, on the ports `P` and `Q` of one machine. -/
def pciInit (Q : WordIo σ) (fuel : Nat) (t : IdeTables) (s : σ) : Res (Bool × IdeTables × σ) := do
  let ideBus := 0
  let ideDevice := 1
  let ideFunction := 1
  let (fields, s) ← pciReadRegister P ideBus ideDevice ideFunction 8 s
  let classCode := (fields >>> 24) &&& 0xFF
  let subclass := (fields >>> 16) &&& 0xFF
  Res.assert (classCode = 1 ∧ subclass = 1)
  let progIf := ((fields >>> 8) &&& 0xFF).setWidth 8
  let (progIf, fields, shouldWriteProgIf) := pciNativeMode progIf fields
  let primaryPciNative := progIf &&& 0x1 ≠ 0
  let secondaryPciNative := progIf &&& 0x4 ≠ 0
  let s ← if shouldWriteProgIf then pciWriteRegister P ideBus ideDevice ideFunction 8 fields s else .ok s
  pciInitDrives P Q fuel ideBus ideDevice ideFunction primaryPciNative secondaryPciNative t s

end

end OSForReal
