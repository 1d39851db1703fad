import OSForReal.Framework.Res

/-!
# The ATA driver (`hal/ata.c`)

`ata_read_sector` and `ata_write_sector` transfer one sector by programmed I/O.
The driver is stated over any `Ports`: what reading and writing the registers
of a channel does. The bus only chooses the channel, so it is not an argument.
-/

namespace OSForReal

open Framework (Res)

/-- The registers of a channel. `ATA_STATUS` is read and `ATA_COMMAND` written at the same port. -/
inductive Port where
  | data
  | error
  | sectorCount
  | lbaLowOrSectorNum
  | lbaMidOrCylinderLow
  | lbaHighOrCylinderHigh
  | driveOrHead
  | status
  | command
deriving DecidableEq, Repr

/-- `in_8`, `out_8`, `in_16` and `out_16` on the ports of a channel. -/
structure Ports (σ : Type) where
  in8 : Port → σ → UInt8 × σ
  out8 : Port → UInt8 → σ → σ
  in16 : Port → σ → UInt16 × σ
  out16 : Port → UInt16 → σ → σ

/-- `ATA_STATUS_ERROR` -/
def ataStatusError : UInt8 := (1 : UInt8) <<< 0

/-- `ATA_STATUS_DRQ` -/
def ataStatusDrq : UInt8 := (1 : UInt8) <<< 3

/-- `ATA_STATUS_DRIVE_FAULT` -/
def ataStatusDriveFault : UInt8 := (1 : UInt8) <<< 5

/-- `ATA_STATUS_READY` -/
def ataStatusReady : UInt8 := (1 : UInt8) <<< 6

/-- `ATA_STATUS_BUSY` -/
def ataStatusBusy : UInt8 := (1 : UInt8) <<< 7

/-- `ATA_DRIVE_OR_HEAD_LBA` -/
def ataDriveOrHeadLba : UInt8 := (1 : UInt8) <<< 6

/-- `ATA_COMMAND_READ_SECTORS` -/
def ataCommandReadSectors : UInt8 := 0x20

/-- `ATA_COMMAND_WRITE_SECTORS` -/
def ataCommandWriteSectors : UInt8 := 0x30

/-- `ATA_COMMAND_CACHE_FLUSH` -/
def ataCommandCacheFlush : UInt8 := 0xE7

section Driver

variable {σ : Type} (P : Ports σ)

/-- `ide_select_drive`; the status is read four times to wait, and ignored. -/
def ideSelectDrive (drive : UInt8) (s : σ) : Res σ := do
  Res.assert (drive = 0 ∨ drive = 1)
  let s := P.out8 .driveOrHead ((0xA : UInt8) ||| drive <<< 4) s
  .ok ((List.range 4).foldl (fun s _ => (P.in8 .status s).2) s)

/-- `ata_prepare_transfer`; the sector count is read back to print it. -/
def ataPrepareTransfer (drive : UInt8) (lba28 : UInt32) (s : σ) : Res σ := do
  Res.assert (drive = 0 ∨ drive = 1)
  Res.assert (lba28 ≤ 0xFFFFFFF)
  let driveOrHeadValue := (0xA0 : UInt8) ||| drive <<< 4 ||| ataDriveOrHeadLba ||| ((lba28 >>> 24) &&& 0x0F).toUInt8
  let s := P.out8 .driveOrHead driveOrHeadValue s
  let s := P.out8 .sectorCount 1 s
  let s := (P.in8 .sectorCount s).2
  let s := P.out8 .lbaLowOrSectorNum (lba28 &&& 0xFF).toUInt8 s
  let s := P.out8 .lbaMidOrCylinderLow ((lba28 >>> 8) &&& 0xFF).toUInt8 s
  .ok (P.out8 .lbaHighOrCylinderHigh ((lba28 >>> 16) &&& 0xFF).toUInt8 s)

/-- Reads the status while `again` holds of it: `while (again(status)) status = in_8(ATA_STATUS(bus))`. -/
def pollStatus (again : UInt8 → Bool) (fuel : Nat) (status : UInt8) (s : σ) : Res (UInt8 × σ) :=
  Res.loop (fun (status, s) => .ok (if again status then .inl (P.in8 .status s) else .inr (status, s))) fuel (status, s)

/-- `status & ATA_STATUS_BUSY` -/
def isBusy (status : UInt8) : Bool := status &&& ataStatusBusy ≠ 0

/-- The bits of ERR and DF are set. -/
def isFault (status : UInt8) : Bool := status &&& (ataStatusError ||| ataStatusDriveFault) ≠ 0

/-- What `ata_read_sector` and `ata_write_sector` do before the data: the
command, and polling until the drive is ready for the data. -/
def ataStartTransfer (fuel : Nat) (drive : UInt8) (lba28 : UInt32) (command : UInt8) (s : σ) : Res (UInt8 × σ) := do
  let s ← ideSelectDrive P drive s
  let s ← ataPrepareTransfer P drive lba28 s
  let s := P.out8 .command command s
  let (status, s) := P.in8 .status s
  let (status, s) ← pollStatus P isBusy fuel status s
  let (status, s) ← pollStatus P (fun status => status &&& ataStatusDrq = 0 && !isFault status) fuel status s
  let s := if isFault status then (P.in8 .error s).2 else s
  Res.assert (isFault status = false)
  .ok (status, s)

/-- One word of the data: `buffer_16[i] = in_16(ATA_DATA(bus))`. -/
def readWord (p : List UInt16 × σ) : List UInt16 × σ := (p.1 ++ [(P.in16 .data p.2).1], (P.in16 .data p.2).2)

/-- `ata_read_sector`, with the words that it stores in the buffer. -/
def ataReadSector (fuel : Nat) (drive : UInt8) (lba28 : UInt32) (s : σ) : Res (List UInt16 × σ) := do
  let (_, s) ← ataStartTransfer P fuel drive lba28 ataCommandReadSectors s
  .ok ((List.range 256).foldl (fun p _ => readWord P p) ([], s))

/-- `ata_write_sector`. The status that the last loop tests is the one from before the data. -/
def ataWriteSector (fuel : Nat) (drive : UInt8) (lba28 : UInt32) (buffer : Nat → UInt16) (s : σ) : Res σ := do
  let (status, s) ← ataStartTransfer P fuel drive lba28 ataCommandWriteSectors s
  let s := (List.range 256).foldl (fun s i => P.out16 .data (buffer i) s) s
  let s := P.out8 .command ataCommandCacheFlush s
  let (_, s) ← pollStatus P isBusy fuel status s
  .ok s

end Driver

end OSForReal
