import OSForReal.Framework.PciConfig
import OSForReal.Hal.Pci
import OSForReal.Proof.Ata.Disk

/-!
# A PC with an IDE controller

The controller has two channels at the ports of a PC, and up to two drives on
each (`IdeChannel`). A drive is a `Disk`, which also identifies itself, or one
that takes packets and refuses to. It is BSY after the command to identify for as
long as it likes, but does not show ERR or DRQ meanwhile (`IdeLatency`), and after
other commands as a `Disk` is (`Latency`). Nothing drives the lines of a channel
without drives, and on any other a missing drive reports the status 0.
-/

namespace OSForReal.Proof.Ata

open Framework (PciConfig Res)

/-- What is at the place of a drive. -/
inductive IdeDevice where
  | disk (identifyData : Sector)
  | packet

/-- What the drives choose. The bits of the status reads after the `n`-th command to identify are in `identify`. -/
structure IdeLatency extends Latency where
  identify : Nat → List UInt8
  quiet : ∀ n, ∀ b ∈ identify n, b &&& (ataStatusError ||| ataStatusDrq) = 0

/-- A channel. -/
structure IdeChannel where
  devices : Fin 2 → Option IdeDevice
  /-- The registers, and the sectors of the disks. -/
  disk : Disk
  /-- The status reads that report BSY after the command to identify. -/
  busy : List UInt8
  /-- The words that a disk identifies itself with and that are still to come. -/
  words : List UInt16
  /-- The last command of the drive has failed. -/
  failed : Fin 2 → Bool
  events : Nat

variable (L : IdeLatency)

/-- The drive that the drive and head register selects. -/
def Disk.selected (d : Disk) : Fin 2 := if d.registers .driveOrHead >>> 4 &&& 1 = 0 then drv0 else drv1

namespace IdeChannel

def selected (c : IdeChannel) : Fin 2 := c.disk.selected

/-- The command register is written. -/
def command (v : UInt8) (c : IdeChannel) : IdeChannel :=
  match c.devices c.selected with
  | none => c
  | some .packet =>
    { c with busy := L.identify c.events, failed := Function.update c.failed c.selected true, events := c.events + 1 }
  | some (.disk identifyData) =>
    if v = ataCommandIdentify then
      { c with busy := L.identify c.events, words := identifyData.1, events := c.events + 1 }
    else { c with disk := c.disk.write L.toLatency .command v }

/-- A register is written, which a busy drive ignores. -/
def write (p : Port) (v : UInt8) (c : IdeChannel) : IdeChannel :=
  if c.busy ≠ [] ∨ c.disk.busy ≠ [] then c
  else if p = .command then c.command L v
  else { c with disk := c.disk.write L.toLatency p v }

/-- The status register is read. -/
def readStatus (c : IdeChannel) : UInt8 × IdeChannel :=
  if (c.devices drv0).isNone ∧ (c.devices drv1).isNone then (0xFF, c)
  else if (c.devices c.selected).isNone then (0, c)
  else
    match c.busy with
    | b :: busy => (ataStatusBusy ||| b, { c with busy })
    | [] =>
      if c.failed c.selected then (ataStatusReady ||| ataStatusError, c)
      else if c.words ≠ [] then (ataStatusReady ||| ataStatusDrq, c)
      else (c.disk.readStatus.1, { c with disk := c.disk.readStatus.2 })

/-- A word is read. -/
def readWord (c : IdeChannel) : UInt16 × IdeChannel :=
  match c.words with
  | w :: words => (w, { c with words })
  | [] => ((c.disk.readWord L.toLatency).1, { c with disk := (c.disk.readWord L.toLatency).2 })

/-- The registers of the channel. -/
def ports : Ports IdeChannel where
  in8 p c := match p with
    | .status => c.readStatus
    | p => (c.disk.registers p, c)
  out8 p v c := c.write L p v
  in16 _ c := c.readWord L
  out16 _ v c := { c with disk := c.disk.writeWord L.toLatency v }

end IdeChannel

/-! ## The ports of the PC -/

/-- The configuration space, and the controller's channels. -/
structure Pc where
  pci : PciConfig
  channels : IdeBusId → IdeChannel

namespace Pc

def setChannel (s : Pc) (bus : IdeBusId) (c : IdeChannel) : Pc := { s with channels := Function.update s.channels bus c }

/-- The channel at a port, and the number of its register. -/
def channelAt (port : UInt16) : Option (IdeBusId × Nat) :=
  if 0x1F0 ≤ port ∧ port ≤ 0x1F7 then some (.prim, port.toNat - 0x1F0)
  else if 0x170 ≤ port ∧ port ≤ 0x177 then some (.snd, port.toNat - 0x170)
  else none

/-- The register of a number; the last one is read as `last`. -/
def register (last : Port) : Nat → Port
  | 0 => .data
  | 1 => .error
  | 2 => .sectorCount
  | 3 => .lbaLowOrSectorNum
  | 4 => .lbaMidOrCylinderLow
  | 5 => .lbaHighOrCylinderHigh
  | 6 => .driveOrHead
  | _ => last

/-- What reads do; nothing drives the lines at other ports. -/
def read {α : Type} (f : Port → IdeChannel → α × IdeChannel) (floating : α) (port : UInt16) (s : Pc) : α × Pc :=
  match channelAt port with
  | some (bus, k) =>
    let r := f (register .status k) (s.channels bus)
    (r.1, s.setChannel bus r.2)
  | none => (floating, s)

/-- What writes do. -/
def written (f : Port → IdeChannel → IdeChannel) (port : UInt16) (s : Pc) : Pc :=
  match channelAt port with
  | some (bus, k) => s.setChannel bus (f (register .command k) (s.channels bus))
  | none => s

/-- The ports of bytes and words. -/
def wordIo : WordIo Pc where
  in8 := read (IdeChannel.ports L).in8 0xFF
  out8 port v := written (fun p => (IdeChannel.ports L).out8 p v) port
  in16 := read (IdeChannel.ports L).in16 0xFFFF
  out16 port v := written (fun p => (IdeChannel.ports L).out16 p v) port

/-- The ports of double words. -/
def dwordIo : DwordIo Pc where
  in32 port s := (s.pci.in32 port, s)
  out32 port v s := { s with pci := s.pci.out32 port v }

end Pc

/-! ## What `pci_init` is for -/

/-- How many sectors a disk says that it has, for numbers of 28 bits. -/
def lba28Sectors (identifyData : Sector) : Nat :=
  (identifyData.1.getD 60 0).toNat + 2 ^ 16 * (identifyData.1.getD 61 0).toNat

/-- What a table says of a drive is right. -/
def Describes (info : IdeDriveInfo) : Option IdeDevice → Prop
  | none => info.missing = true
  | some .packet => info.missing = false ∧ info.type = .unknown
  | some (.disk identifyData) =>
    let word := fun i => (identifyData.1.getD i 0).toNat
    info.missing = false ∧ info.type = .ata ∧
      info.lba28AddressableSectorCount.toNat = lba28Sectors identifyData ∧
      info.lba48AddressableSectorCount.toNat =
        (if (word 83).testBit 10 then word 100 + 2 ^ 16 * word 101 + 2 ^ 32 * word 102 + 2 ^ 48 * word 103 else 0) ∧
      ∀ m < 8, word 88 / 2 ^ 8 = 2 ^ m → info.udmaMode.toNat = m + 1

end OSForReal.Proof.Ata
