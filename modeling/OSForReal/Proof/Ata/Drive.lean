import OSForReal.Hal.Ata

/-!
# A drive that is busy for as long as it likes

After each command and each completed data phase the drive reports BSY for a
finite number of status reads of its choice (`Behaviour`), with any other bits;
else it follows the PIO rules, and no error occurs. `Machine` is a drive with
the trace of the accesses to its registers.
-/

namespace OSForReal.Proof.Ata

/-- What the drive chooses: after the `n`-th command or data phase, the other
bits of each status read that reports BSY, and the words that are read. -/
structure Behaviour where
  busy : Nat → List UInt8
  word : Nat → Nat → UInt16

/-- The words still to be transferred. -/
inductive Phase where
  | idle
  | dataIn (left : Nat)
  | dataOut (left : Nat)
deriving DecidableEq

/-- The drive: the status reads that will report BSY, the phase, and the number
of commands and data phases so far. -/
structure Drive where
  busy : List UInt8
  phase : Phase
  events : Nat

/-- The drive is BSY. -/
def Drive.isBusy (d : Drive) : Prop := d.busy ≠ []

instance (d : Drive) : Decidable d.isBusy := inferInstanceAs (Decidable (d.busy ≠ []))

/-- An idle drive. -/
def Drive.idle : Drive := ⟨[], .idle, 0⟩

variable (B : Behaviour)

/-- A command or the end of a data phase: the drive is busy for as long as it likes. -/
def Drive.event (d : Drive) (phase : Phase) : Drive := ⟨B.busy d.events, phase, d.events + 1⟩

/-- The status register is read. -/
def Drive.readStatus (d : Drive) : UInt8 × Drive :=
  match d.busy with
  | b :: busy => (ataStatusBusy ||| b, { d with busy })
  | [] => (if d.phase = .idle then ataStatusReady else ataStatusReady ||| ataStatusDrq, d)

/-- A register is written. -/
def Drive.write (p : Port) (v : UInt8) (d : Drive) : Drive :=
  if p = .command then
    d.event B (if v = ataCommandReadSectors then .dataIn 256 else if v = ataCommandWriteSectors then .dataOut 256 else .idle)
  else d

/-- A word is read. -/
def Drive.readWord (d : Drive) : UInt16 × Drive :=
  match d.phase with
  | .dataIn (n + 1) => (B.word d.events n, if n = 0 then d.event B .idle else { d with phase := .dataIn n })
  | _ => (0, d)

/-- A word is written. -/
def Drive.writeWord (d : Drive) : Drive :=
  match d.phase with
  | .dataOut (n + 1) => if n = 0 then d.event B .idle else { d with phase := .dataOut n }
  | _ => d

/-! ## Traces -/

/-- An access to the registers; a write says whether the drive was busy. -/
inductive Access where
  | in8 (p : Port) (v : UInt8)
  | out8 (p : Port) (v : UInt8) (busy : Bool)
  | in16 (v : UInt16)
  | out16 (v : UInt16)
deriving DecidableEq

/-- A drive, and the accesses so far. -/
structure Machine where
  drive : Drive
  trace : List Access

/-- The ports of the drive. -/
def ports : Ports Machine where
  in8 p m := match p with
    | .status => (m.drive.readStatus.1, ⟨m.drive.readStatus.2, m.trace ++ [.in8 .status m.drive.readStatus.1]⟩)
    | p => (0, ⟨m.drive, m.trace ++ [.in8 p 0]⟩)
  out8 p v m := ⟨m.drive.write B p v, m.trace ++ [.out8 p v (decide m.drive.isBusy)]⟩
  in16 _ m := ((m.drive.readWord B).1, ⟨(m.drive.readWord B).2, m.trace ++ [.in16 (m.drive.readWord B).1]⟩)
  out16 _ v m := ⟨m.drive.writeWord B, m.trace ++ [.out16 v]⟩

/-- The command register and the sector count and LBA registers. -/
def Port.guarded (p : Port) : Bool :=
  p = .command || p = .sectorCount || p = .lbaLowOrSectorNum || p = .lbaMidOrCylinderLow || p = .lbaHighOrCylinderHigh

/-- The command register or an LBA or sector count register is written while the drive is busy. -/
def Access.violates : Access → Bool
  | .out8 p _ busy => Port.guarded p && busy
  | _ => false

/-- A CACHE FLUSH command is followed by a status read that shows BSY clear. -/
def AwaitsFlush (trace : List Access) : Prop :=
  ∃ busy v, isBusy v = false ∧ [.out8 .command ataCommandCacheFlush busy, .in8 .status v].Sublist trace

/-! ## Calls -/

/-- A sector number that the driver accepts. -/
abbrev Lba28 : Type := { lba28 : UInt32 // lba28 ≤ 0xFFFFFFF }

/-- A drive number that the driver accepts. -/
abbrev DriveNumber : Type := { drive : UInt8 // drive = 0 ∨ drive = 1 }

/-- A call of the driver. -/
inductive AtaCall where
  | readSector (lba28 : Lba28)
  | writeSector (lba28 : Lba28) (buffer : Nat → UInt16)

/-- The call writes. -/
def AtaCall.isWrite : AtaCall → Bool
  | .readSector _ => false
  | .writeSector _ _ => true

/-- A call, from a drive: the trace of the call, and the drive after it. -/
def AtaCall.run (fuel : Nat) (drive : DriveNumber) (c : AtaCall) (d : Drive) : Framework.Res Machine :=
  match c with
  | .readSector lba28 => do .ok (← ataReadSector (ports B) fuel drive lba28 ⟨d, []⟩).2
  | .writeSector lba28 buffer => ataWriteSector (ports B) fuel drive lba28 buffer ⟨d, []⟩

/-- Calls in order: each call with its trace. -/
def runCalls (fuel : Nat) (drive : DriveNumber) : List AtaCall → Drive → Framework.Res (List (AtaCall × List Access))
  | [], _ => .ok []
  | c :: calls, d => do
    let m ← c.run B fuel drive d
    .ok ((c, m.trace) :: (← runCalls fuel drive calls m.drive))

end OSForReal.Proof.Ata
