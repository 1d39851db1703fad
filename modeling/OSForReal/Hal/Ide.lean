import OSForReal.Hal.Ata
import OSForReal.Hal.Serial

/-!
# The drives of the IDE controller (`ide_init` of `hal/ata.c`)

The controller has two channels of two drives. `ide_init` notes the ports of
each channel and asks every drive what it is, over any `WordIo`. The warning that it prints
about the transfer mode is left out.
-/

namespace OSForReal

open Framework (Res)

/-- The ports of a machine: `in_8`, `out_8`, `in_16` and `out_16`. -/
structure WordIo (σ : Type) extends PortIo σ where
  in16 : UInt16 → σ → UInt16 × σ
  out16 : UInt16 → UInt16 → σ → σ

/-- `IDE_Bus_ID` -/
inductive IdeBusId where
  | prim
  | snd
deriving DecidableEq, Repr

/-- `IDE_Channel_Info` -/
structure IdeChannelInfo where
  ioBase : UInt16
  controlBase : UInt16
  busMaster : UInt16
deriving DecidableEq, Repr

/-- The numbers of the drives of a channel. -/
abbrev drv0 : Fin 2 := 0

abbrev drv1 : Fin 2 := 1

/-- `IDE_Drive_Type` -/
inductive IdeDriveType where
  | ata
  | unknown
deriving DecidableEq, Repr

/-- `IDE_Drive_Info` -/
structure IdeDriveInfo where
  missing : Bool
  type : IdeDriveType
  udmaMode : UInt8
  lba28AddressableSectorCount : UInt32
  lba48AddressableSectorCount : UInt64
deriving DecidableEq, Repr

/-- The globals `ide_channels` and `ide_drives`; the drives of a channel have the numbers 0 and 1. -/
structure IdeTables where
  channels : IdeBusId → IdeChannelInfo
  drives : IdeBusId → Fin 2 → IdeDriveInfo

/-- The globals before `ide_init`. -/
def IdeTables.zero : IdeTables where
  channels _ := ⟨0, 0, 0⟩
  drives _ _ := ⟨false, .ata, 0, 0, 0⟩

def IdeTables.setDrive (t : IdeTables) (bus : IdeBusId) (drive : Fin 2) (info : IdeDriveInfo) : IdeTables :=
  { t with drives := Function.update t.drives bus (Function.update (t.drives bus) drive info) }

/-- The macros `ATA_DATA` to `ATA_COMMAND`, as offsets from `io_base`. -/
def ataOffset : Port → UInt16
  | .data => 0
  | .error => 1
  | .sectorCount => 2
  | .lbaLowOrSectorNum => 3
  | .lbaMidOrCylinderLow => 4
  | .lbaHighOrCylinderHigh => 5
  | .driveOrHead => 6
  | .status => 7
  | .command => 7

/-- `ATA_COMMAND_IDENTIFY` -/
def ataCommandIdentify : UInt8 := 0xEC

section

variable {σ : Type} (P : WordIo σ)

/-- The registers of a channel, at its ports. -/
def channelPorts (t : IdeTables) (bus : IdeBusId) : Ports σ where
  in8 p s := P.in8 ((t.channels bus).ioBase + ataOffset p) s
  out8 p v s := P.out8 ((t.channels bus).ioBase + ataOffset p) v s
  in16 p s := P.in16 ((t.channels bus).ioBase + ataOffset p) s
  out16 p v s := P.out16 ((t.channels bus).ioBase + ataOffset p) v s

/-- `__builtin_ffs` of a byte. -/
def builtinFfs (x : UInt8) : UInt8 :=
  match (List.range 8).find? fun i => x.toNat.testBit i with
  | some i => UInt8.ofNat (i + 1)
  | none => 0

/-- What a drive answers. -/
inductive IdeAnswer where
  | missing
  | unknown
  | identified (identifyData : List UInt16)

/-- What `ide_init` notes of the words that a drive identifies itself with. -/
def identifiedInfo (info : IdeDriveInfo) (identifyData : List UInt16) : IdeDriveInfo :=
  let word := fun i => identifyData.getD i 0
  let activeUdmaMode := (word 88 >>> 8).toUInt8
  let info :=
    { info with
      udmaMode := builtinFfs activeUdmaMode
      lba28AddressableSectorCount := (word 60).toUInt32 ||| (word 61).toUInt32 <<< 16 }
  let supportsLba48 := word 83 &&& ((1 : UInt16) <<< 10) != 0
  if supportsLba48 then
    { info with
      lba48AddressableSectorCount := (word 100).toUInt64 ||| (word 101).toUInt64 <<< 16 |||
        (word 102).toUInt64 <<< 32 ||| (word 103).toUInt64 <<< 48 }
  else info

/-- What `ide_init` notes of an answer. -/
def IdeDriveInfo.note (info : IdeDriveInfo) : IdeAnswer → IdeDriveInfo
  | .missing => { info with missing := true }
  | .unknown => { info with type := .unknown }
  | .identified identifyData => identifiedInfo { info with type := .ata } identifyData

/-- What a drive answers to the command. The status that the first loop and the test for 0 use is the one
from before the command. -/
def readAnswer (C : Ports σ) (fuel : Nat) (status : UInt8) (s : σ) : Res (IdeAnswer × σ) :=
  if status = 0 then .ok (.missing, s)
  else do
    let (status, s) ← pollStatus C isBusy fuel status s
    let (status, s) ← pollStatus C (fun status => status &&& (ataStatusError ||| ataStatusDrq) = 0) fuel status s
    if status &&& ataStatusError ≠ 0 then return (.unknown, s)
    else
      let (identifyData, s) := (List.range 256).foldl (fun p _ => readWord C p) ([], s)
      return (.identified identifyData, s)

/-- The command to identify. -/
def identifyCommand (C : Ports σ) (s : σ) : σ :=
  let s := C.out8 .sectorCount 0 s
  let s := C.out8 .lbaLowOrSectorNum 0 s
  let s := C.out8 .lbaMidOrCylinderLow 0 s
  let s := C.out8 .lbaHighOrCylinderHigh 0 s
  C.out8 .command ataCommandIdentify s

/-- How `ide_init` asks a drive, through the registers of its channel. -/
def askDrive (C : Ports σ) (disableInterrupts : σ → σ) (fuel : Nat) (drive : UInt8) (s : σ) : Res (IdeAnswer × σ) := do
  let s ← ideSelectDrive C drive s
  let s := disableInterrupts s
  let (status, s) := C.in8 .status s
  let (status, s) ← pollStatus C isBusy fuel status s
  readAnswer C fuel status (identifyCommand C s)

/-- The body of the loops over the drives. -/
def identifyDrive (fuel : Nat) (bus : IdeBusId) (drive : Fin 2) (t : IdeTables) (s : σ) : Res (IdeTables × σ) :=
  let info := t.drives bus drive
  if info.missing then .ok (t, s)
  else do
    let disableInterrupts := P.out8 ((t.channels bus).controlBase + 0) 0x2
    let (answer, s) ← askDrive (channelPorts P t bus) disableInterrupts fuel (UInt8.ofNat drive) s
    return (t.setDrive bus drive (info.note answer), s)

/-- The first part of `ide_init`: the ports of the channels. -/
def setChannels (primaryPciNative secondaryPciNative : Bool) (bar0 bar1 bar2 bar3 : UInt16) (t : IdeTables) : IdeTables :=
  let set (t : IdeTables) (bus : IdeBusId) (ioBase controlBase : UInt16) : IdeTables :=
    { t with channels := Function.update t.channels bus { t.channels bus with ioBase, controlBase } }
  let t := if primaryPciNative then set t .prim bar0 bar1 else set t .prim 0x1F0 0x3F6
  if secondaryPciNative then set t .prim bar2 bar3 else set t .snd 0x170 0x376

/-- The drives of a channel without a bus behind it are missing. -/
def checkFloatingBus (t : IdeTables) (bus : IdeBusId) (status : UInt8) : IdeTables :=
  if status = 0xFF then
    let t := t.setDrive bus 0 { t.drives bus 0 with missing := true }
    t.setDrive bus 1 { t.drives bus 1 with missing := true }
  else t

/-- `ide_init` -/
def ideInit (fuel : Nat) (primaryPciNative secondaryPciNative : Bool) (bar0 bar1 bar2 bar3 : UInt16)
    (t : IdeTables) (s : σ) : Res (Bool × IdeTables × σ) := do
  let t := setChannels primaryPciNative secondaryPciNative bar0 bar1 bar2 bar3 t
  let (primaryStatus, s) := (channelPorts P t .prim).in8 .status s
  let (secondaryStatus, s) := (channelPorts P t .snd).in8 .status s
  let t := checkFloatingBus t .prim primaryStatus
  let t := checkFloatingBus t .snd secondaryStatus
  let (t, s) ← identifyDrive P fuel .prim 0 t s
  let (t, s) ← identifyDrive P fuel .prim 1 t s
  let (t, s) ← identifyDrive P fuel .snd 0 t s
  let (t, s) ← identifyDrive P fuel .snd 1 t s
  return (true, t, s)

end

end OSForReal
