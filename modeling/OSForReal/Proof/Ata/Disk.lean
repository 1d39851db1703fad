import OSForReal.Framework.Refinement
import OSForReal.Kernel.TagFS
import OSForReal.Proof.Ata.Drive

/-!
# A disk behind the registers

Where `Drive` answers with words of its own choice, a `Disk` keeps sectors: it
decodes the registers that the driver wrote into a drive and a sector number
(`Disk.target`), and transfers the words of that sector; a command for a sector
behind the last one fails. No other error occurs. The disk is BSY after a
command for as long as it likes, and after the data, or another command, for at
most the four status reads that `ide_select_drive` makes (`Latency`). With a
fifth it would ignore the next command, and the driver would poll for ever.
-/

namespace OSForReal.Proof.Ata

open Framework (Bytes Object Res)
open Framework.Bytes

/-- A sector of 512 bytes, as the words that the data register carries. -/
abbrev Sector : Type := { words : List UInt16 // words.length = 256 }

/-- A sector of a channel: the drive, and its number there. -/
structure SectorAddress where
  drive : Nat
  lba28 : Nat
deriving DecidableEq

/-- What a disk chooses: the bits of the status reads that report BSY, after the `n`-th event. -/
structure Latency where
  transfer : Nat → List UInt8
  other : Nat → List UInt8
  settles : ∀ n, (other n).length ≤ 4

/-- The transfer that is under way: the words still to come, or those that have arrived. -/
inductive Transfer where
  | idle
  | aborted
  | dataIn (left : List UInt16)
  | dataOut (sector : SectorAddress) (words : List UInt16)

/-- The disks of a channel: the registers as they were last written, the sectors, and how many of them each drive has. -/
structure Disk where
  busy : List UInt8
  transfer : Transfer
  events : Nat
  registers : Port → UInt8
  sectors : SectorAddress → Sector
  capacity : Nat → Nat

/-- The sector that the registers name, in LBA mode and for one sector. -/
def Disk.target (d : Disk) : Option SectorAddress :=
  let head := d.registers .driveOrHead
  if head &&& ataDriveOrHeadLba ≠ 0 ∧ d.registers .sectorCount = 1 then
    some {
      drive := (head >>> 4 &&& 1).toNat
      lba28 := (d.registers .lbaLowOrSectorNum).toNat + 2 ^ 8 * (d.registers .lbaMidOrCylinderLow).toNat +
        2 ^ 16 * (d.registers .lbaHighOrCylinderHigh).toNat + 2 ^ 24 * (head &&& 0x0F).toNat }
  else none

variable (L : Latency)

/-- A command that transfers no data, or the end of the data. -/
def Disk.rest (d : Disk) : Disk := { d with busy := L.other d.events, transfer := .idle, events := d.events + 1 }

/-- The transfer that a command for a sector begins. -/
def Disk.begin (d : Disk) (command : UInt8) (a : SectorAddress) : Transfer :=
  if d.capacity a.drive ≤ a.lba28 then .aborted
  else if command = ataCommandReadSectors then .dataIn (d.sectors a).1
  else .dataOut a []

/-- The command register is written. -/
def Disk.command (v : UInt8) (d : Disk) : Disk :=
  match d.target with
  | none => d.rest L
  | some a =>
    if v = ataCommandReadSectors ∨ v = ataCommandWriteSectors then
      { d with busy := L.transfer d.events, transfer := d.begin v a, events := d.events + 1 }
    else d.rest L

/-- A register is written, which a busy disk ignores. -/
def Disk.write (p : Port) (v : UInt8) (d : Disk) : Disk :=
  if d.busy ≠ [] then d
  else if p = .command then d.command L v
  else { d with registers := Function.update d.registers p v }

/-- The status register is read. -/
def Disk.readStatus (d : Disk) : UInt8 × Disk :=
  match d.busy with
  | b :: busy => (ataStatusBusy ||| b, { d with busy })
  | [] => (match d.transfer with
    | .idle => ataStatusReady
    | .aborted => ataStatusReady ||| ataStatusError
    | _ => ataStatusReady ||| ataStatusDrq, d)

/-- A word is read. -/
def Disk.readWord (d : Disk) : UInt16 × Disk :=
  match d.transfer with
  | .dataIn [w] => (w, d.rest L)
  | .dataIn (w :: left) => (w, { d with transfer := .dataIn left })
  | _ => (0, d)

/-- A word is written; the last one fills the sector. -/
def Disk.writeWord (w : UInt16) (d : Disk) : Disk :=
  match d.transfer with
  | .dataOut a words =>
    if h : (words ++ [w]).length = 256 then
      Disk.rest L { d with sectors := Function.update d.sectors a ⟨words ++ [w], h⟩ }
    else { d with transfer := .dataOut a (words ++ [w]) }
  | _ => d

/-- The ports of the disk. -/
def diskPorts : Ports Disk where
  in8 p d := match p with
    | .status => d.readStatus
    | p => (d.registers p, d)
  out8 p v d := d.write L p v
  in16 _ d := d.readWord L
  out16 _ v d := d.writeWord L v

/-! ## What the driver is for -/

/-- A call of the driver, with the 512 bytes at `buffer` if it writes. -/
inductive SectorCall where
  | read (drive : DriveNumber) (lba28 : Lba28)
  | write (drive : DriveNumber) (lba28 : Lba28) (buffer : Bytes)

/-- The drive of a call. -/
def calledDrive : SectorCall → DriveNumber
  | .read drive _ => drive
  | .write drive _ _ => drive

/-- The sector of a call. -/
def calledSector : SectorCall → Lba28
  | .read _ lba28 => lba28
  | .write _ lba28 _ => lba28

/-- The drive has the sector. -/
def SectorCall.Within (capacity : Nat → Nat) (c : SectorCall) : Prop :=
  (calledSector c).1.toNat < capacity (calledDrive c).1.toNat

/-- The driver on buffers of bytes: what a call leaves in the one that it reads to. -/
def ataDriver : Object Disk SectorCall (List UInt8) where
  call d c bytes d' := match c with
    | .read drive lba28 =>
      ∃ words, bytes = bytes16 words ∧ ∃ fuel, ataReadSector (diskPorts L) fuel drive lba28 d = .ok (words, d')
    | .write drive lba28 buffer =>
      bytes = [] ∧ ∃ fuel, ataWriteSector (diskPorts L) fuel drive lba28 (word16 buffer) d = .ok d'

/-- What the driver is for: the bytes of each drive, a sector at a time, as the file system has them. -/
def drives (t : Nat → Bytes) : SectorCall → List UInt8 × (Nat → Bytes)
  | .read drive lba28 => ((List.range 512).map (TagFS.diskSector (t drive.1.toNat) lba28.1.toNat), t)
  | .write drive lba28 buffer =>
    ([], Function.update t drive.1.toNat (TagFS.writeDiskSector (t drive.1.toNat) lba28.1.toNat buffer))

/-- The sectors with these bytes. -/
def sectorsOf (t : Nat → Bytes) (a : SectorAddress) : Sector :=
  ⟨(List.range 256).map (word16 (TagFS.diskSector (t a.drive) a.lba28)), by simp⟩

end OSForReal.Proof.Ata
