import OSForReal.Proof.Ata.Init

/-!
# The sectors of a PC's disks

Once `pci_init` has noted the drives, the driver is called for the disks among
them. It acts on a channel as on the disks behind it (`diskPorts_related`), so
on the ports of the PC it does to their bytes what it does to those of a disk.

* `pciInit_findsDisks`: after `pci_init`, calls for the sectors of the disks that the tables show, on both channels and
  in any order.
-/

namespace OSForReal.Proof.Ata

open Framework (Bytes Object Simulation Keeps outputs Res)
open Framework.Bytes
open Framework.Res (Related Returns)

variable {L : IdeLatency} {s : Pc} {c c₀ : IdeChannel} {d : Disk} {bus : IdeBusId} {drive : Fin 2} {t : IdeTables}
  {p : Port} {v : UInt8}

/-! ## The selected drive -/

/-- The drive of a value of the drive and head register. -/
def headDrive (v : UInt8) : Fin 2 := if v >>> 4 &&& 1 = 0 then drv0 else drv1

/-- The drive of a call. -/
def driveOf (drive : DriveNumber) : Fin 2 := if drive.1 = 0 then drv0 else drv1

theorem driveOf_val (drive : DriveNumber) : (driveOf drive : Nat) = drive.1.toNat := by
  obtain ⟨drive, rfl | rfl⟩ := drive <;> rfl

theorem headDrive_selectHead (drive : DriveNumber) : headDrive (selectHead drive.1) = driveOf drive := by
  obtain ⟨drive, rfl | rfl⟩ := drive <;> decide

theorem headDrive_transferHead (drive : DriveNumber) (lba28 : Lba28) :
    headDrive (transferHead drive.1 lba28.1) = driveOf drive := by
  obtain ⟨htop, hlt⟩ := top_bits lba28.2
  obtain ⟨-, hdrive, -⟩ := head_decodes _ hlt drive
  rw [headDrive, transferHead, htop, hdrive, driveOf]

namespace Disk

theorem selected_congr {d d' : Disk} (h : d'.registers = d.registers) : d'.selected = d.selected := by
  rw [selected, selected, h]

theorem registers_readStatus (d : Disk) : d.readStatus.2.registers = d.registers := by
  unfold readStatus
  split <;> rfl

theorem registers_readWord (L : Latency) (d : Disk) : (d.readWord L).2.registers = d.registers := by
  unfold readWord
  split <;> rfl

theorem registers_writeWord (L : Latency) (w : UInt16) (d : Disk) : (d.writeWord L w).registers = d.registers := by
  unfold writeWord
  split
  · split <;> rfl
  · rfl

theorem registers_command (L : Latency) (v : UInt8) (d : Disk) : (d.command L v).registers = d.registers := by
  unfold command
  split
  · rfl
  · split <;> rfl

/-- Only the drive and head register selects. -/
theorem selected_write (L : Latency) (hp : p ≠ .driveOrHead) (v : UInt8) (d : Disk) :
    (d.write L p v).selected = d.selected := by
  refine if_congr ?_ rfl rfl
  rw [write]
  split
  · rfl
  · split
    · rw [registers_command]
    · exact iff_of_eq (congrArg (fun x : UInt8 => x >>> 4 &&& 1 = 0) (Function.update_of_ne hp.symm v d.registers))

theorem selected_write_head (L : Latency) (v : UInt8) (d : Disk) :
    (d.write L .driveOrHead v).selected = if d.busy ≠ [] then d.selected else headDrive v := by
  rw [write]
  by_cases hbusy : d.busy ≠ []
  · rw [if_pos hbusy, if_pos hbusy]
  · rw [if_neg hbusy, if_neg hbusy, if_neg (by decide)]
    exact congrArg headDrive (Function.update_self Port.driveOrHead v d.registers)

end Disk

/-! ## A channel and its disks -/

namespace IdeChannel

/-- A disk that has not failed is there. -/
structure IsDisk (c : IdeChannel) (drive : Fin 2) : Prop where
  fine : c.failed drive = false
  disk : ∃ data, c.devices drive = some (.disk data)

theorem IsDisk.present (h : c.IsDisk drive) : ¬ (c.devices drive).isNone := by
  obtain ⟨data, hdata⟩ := h.disk
  rw [hdata]
  exact Bool.false_ne_true

theorem IsDisk.driven (h : c.IsDisk drive) : ¬ c.Floating := fun hbus => by
  obtain ⟨data, hdata⟩ := h.disk
  rw [hbus.devices] at hdata
  cases hdata

/-- No command to identify is under way. -/
structure Quiet (c : IdeChannel) : Prop where
  busy : c.busy = []
  words : c.words = []

/-- The channel with other registers and sectors. -/
def withDisk (c : IdeChannel) (d : Disk) : IdeChannel := { c with disk := d }

/-- The channel is as it was but for its disks, and one of them is selected. -/
structure Serves (c₀ c : IdeChannel) (d : Disk) : Prop where
  channel : c = c₀.withDisk d
  selected : c₀.IsDisk d.selected

theorem write_withDisk (L : IdeLatency) (h : c.Quiet) (hp : p ≠ .command) (v : UInt8) (d : Disk) :
    (c.withDisk d).write L p v = c.withDisk (d.write L.toLatency p v) := by
  by_cases hbusy : d.busy ≠ []
  · rw [write, if_pos (.inr hbusy), Disk.write, if_pos hbusy]
  · have hready : ¬ ((c.withDisk d).busy ≠ [] ∨ (c.withDisk d).disk.busy ≠ []) := not_or.mpr ⟨not_not.mpr h.busy, hbusy⟩
    rw [write, if_neg hready, if_neg hp]
    rfl

theorem command_withDisk (L : IdeLatency) (h : c.Quiet) (hv : v ≠ ataCommandIdentify) (hdisk : c.IsDisk d.selected) :
    (c.withDisk d).write L .command v = c.withDisk (d.write L.toLatency .command v) := by
  by_cases hbusy : d.busy ≠ []
  · rw [write, if_pos (.inr hbusy), Disk.write, if_pos hbusy]
  · have hready : ¬ ((c.withDisk d).busy ≠ [] ∨ (c.withDisk d).disk.busy ≠ []) := not_or.mpr ⟨not_not.mpr h.busy, hbusy⟩
    obtain ⟨data, hdata⟩ := hdisk.disk
    have hdevice : (c.withDisk d).devices (c.withDisk d).selected = some (.disk data) := hdata
    rw [write, if_neg hready, if_pos rfl, command, hdevice]
    exact if_neg hv

theorem readStatus_withDisk (h : c.Quiet) (hdisk : c.IsDisk d.selected) :
    (c.withDisk d).readStatus = (d.readStatus.1, c.withDisk d.readStatus.2) := by
  obtain ⟨devices, disk, busy, words, failed, events⟩ := c
  obtain rfl : busy = [] := h.busy
  obtain rfl : words = [] := h.words
  have hfine : ¬ failed d.selected = true := ne_true_of_eq_false hdisk.fine
  exact (if_neg hdisk.driven).trans ((if_neg hdisk.present).trans ((if_neg hfine).trans (if_neg (not_not.mpr rfl))))

theorem readWord_withDisk (L : IdeLatency) (h : c.Quiet) (d : Disk) :
    (c.withDisk d).readWord L = ((d.readWord L.toLatency).1, c.withDisk (d.readWord L.toLatency).2) := by
  obtain ⟨devices, disk, busy, words, failed, events⟩ := c
  obtain rfl : words = [] := h.words
  rfl

end IdeChannel

/-- The driver acts on a channel as on its disks. -/
theorem diskPorts_related (L : IdeLatency) (h : c₀.Quiet) :
    PortsRelated (IdeChannel.ports L) (diskPorts L.toLatency) c₀.Serves (fun v => c₀.IsDisk (headDrive v))
      fun v => v ≠ ataCommandIdentify where
  in8 p c d hp hR := by
    obtain ⟨rfl, hdisk⟩ := hR
    by_cases hstatus : p = .status
    · subst hstatus
      have hread := IdeChannel.readStatus_withDisk h hdisk
      refine ⟨congrArg Prod.fst hread, congrArg Prod.snd hread, ?_⟩
      show c₀.IsDisk d.readStatus.2.selected
      rwa [Disk.selected_congr d.registers_readStatus]
    · cases p with
      | status => exact absurd rfl hstatus
      | _ => exact ⟨rfl, rfl, hdisk⟩
  head v c d hv hR := by
    obtain ⟨rfl, hdisk⟩ := hR
    refine ⟨IdeChannel.write_withDisk L h (by decide) v d, ?_⟩
    show c₀.IsDisk (d.write L.toLatency .driveOrHead v).selected
    rw [Disk.selected_write_head]
    split
    · exact hdisk
    · exact hv
  command v c d hv hR := by
    obtain ⟨rfl, hdisk⟩ := hR
    refine ⟨IdeChannel.command_withDisk L h hv hdisk, ?_⟩
    show c₀.IsDisk (d.write L.toLatency .command v).selected
    rwa [Disk.selected_write L.toLatency (by decide)]
  out8 p v c d hp hR := by
    obtain ⟨rfl, hdisk⟩ := hR
    refine ⟨IdeChannel.write_withDisk L h hp.2.2 v d, ?_⟩
    show c₀.IsDisk (d.write L.toLatency p v).selected
    rwa [Disk.selected_write L.toLatency hp.2.1]
  in16 c d hR := by
    obtain ⟨rfl, hdisk⟩ := hR
    have hread := IdeChannel.readWord_withDisk L h d
    refine ⟨congrArg Prod.fst hread, congrArg Prod.snd hread, ?_⟩
    show c₀.IsDisk (d.readWord L.toLatency).2.selected
    rwa [Disk.selected_congr (d.registers_readWord L.toLatency)]
  out16 v c d hR := by
    obtain ⟨rfl, hdisk⟩ := hR
    refine ⟨rfl, ?_⟩
    show c₀.IsDisk (d.writeWord L.toLatency v).selected
    rwa [Disk.selected_congr (d.registers_writeWord L.toLatency v)]

/-! ## The calls -/

/-- A call of the driver on a channel, with the 512 bytes at `buffer` if it writes. -/
def pcCall (L : IdeLatency) (t : IdeTables) (bus : IdeBusId) (c : SectorCall) (bytes : List UInt8) (s s' : Pc) : Prop :=
  match c with
  | .read drive lba28 => ∃ words, bytes = bytes16 words ∧
    ∃ fuel, ataReadSector (channelPorts (Pc.wordIo L) t bus) fuel drive lba28 s = .ok (words, s')
  | .write drive lba28 buffer => bytes = [] ∧
    ∃ fuel, ataWriteSector (channelPorts (Pc.wordIo L) t bus) fuel drive lba28 (word16 buffer) s = .ok s'

/-- The driver on the ports of a PC, with the tables of `pci_init`. -/
def pcDriver (L : IdeLatency) (t : IdeTables) : Object Pc (IdeBusId × SectorCall) (List UInt8) where
  call s c bytes s' := pcCall L t c.1 c.2 bytes s s'

/-- What the driver is for: the bytes of the drives of both channels. -/
def pcDrives (b : IdeBusId → Nat → Bytes) (c : IdeBusId × SectorCall) : List UInt8 × (IdeBusId → Nat → Bytes) :=
  ((drives (b c.1) c.2).1, Function.update b c.1 (drives (b c.1) c.2).2)

/-- The table shows a disk. -/
def ShowsDisk (t : IdeTables) (bus : IdeBusId) (drive : Fin 2) : Prop :=
  (t.drives bus drive).missing = false ∧ (t.drives bus drive).type = .ata

/-- The table shows a disk that has the sector of the call. -/
def ShowsSector (t : IdeTables) (c : IdeBusId × SectorCall) : Prop :=
  ShowsDisk t c.1 (driveOf (calledDrive c.2)) ∧
    (calledSector c.2).1.toNat < (t.drives c.1 (driveOf (calledDrive c.2))).lba28AddressableSectorCount.toNat

/-- A PC between calls, whose disks have the bytes. -/
structure PcHasBytes (t : IdeTables) (s : Pc) (b : IdeBusId → Nat → Bytes) : Prop where
  quiet : ∀ bus, (s.channels bus).Quiet
  bytes : ∀ bus, HasBytes (s.channels bus).disk.capacity (s.channels bus).disk (b bus)
  capacity : ∀ bus drive, ShowsDisk t bus drive →
    (s.channels bus).disk.capacity drive = (t.drives bus drive).lba28AddressableSectorCount.toNat
  isDisk : ∀ bus drive, ShowsDisk t bus drive → (s.channels bus).IsDisk drive
  selected : ∀ bus, (s.channels bus).disk.busy ≠ [] → (s.channels bus).IsDisk (s.channels bus).disk.selected

/-- The PC after a call on a channel that leaves its disks as `d`. -/
def Pc.withDisk (s : Pc) (bus : IdeBusId) (d : Disk) : Pc := s.setChannel bus ((s.channels bus).withDisk d)

/-- What a call on the ports of a PC is related to. -/
def Served (s : Pc) (bus : IdeBusId) (s' : Pc) (d : Disk) : Prop :=
  s' = s.withDisk bus d ∧ (s.channels bus).IsDisk d.selected

/-- The ports of a PC's channel, as those of its disks. -/
theorem pcPorts_related (L : IdeLatency) (h : Legacy t) (s : Pc) (bus : IdeBusId) (hquiet : (s.channels bus).Quiet) :
    PortsRelated (channelPorts (Pc.wordIo L) t bus) (diskPorts L.toLatency) (Served s bus)
      (fun v => (s.channels bus).IsDisk (headDrive v)) fun v => v ≠ ataCommandIdentify := by
  have hserved : (fun s' d => ∃ c, s' = s.setChannel bus c ∧ (s.channels bus).Serves c d) = Served s bus := by
    funext s' d
    refine propext ⟨fun hR => ?_, fun hR => ⟨_, hR.1, rfl, hR.2⟩⟩
    obtain ⟨c, hc, hserves⟩ := hR
    exact ⟨hc.trans (congrArg (s.setChannel bus) hserves.channel), hserves.selected⟩
  rw [← hserved]
  exact (channelPorts_related L h s bus).comp (diskPorts_related L hquiet)

/-- The drive is selected before a call. -/
theorem served_select (L : IdeLatency) (h : Legacy t) {b : IdeBusId → Nat → Bytes} (hs : PcHasBytes t s b)
    {drive : DriveNumber} (hdisk : ShowsDisk t bus (driveOf drive)) :
    Served s bus ((channelPorts (Pc.wordIo L) t bus).out8 .driveOrHead (selectHead drive.1) s)
      ((diskPorts L.toLatency).out8 .driveOrHead (selectHead drive.1) (s.channels bus).disk) := by
  have hwrite := (channelPorts_related L h s bus).head (selectHead drive.1) s (s.channels bus) trivial
    (Pc.setChannel_channels s bus).symm
  have hchannel := IdeChannel.write_withDisk L (hs.quiet bus) (by decide : Port.driveOrHead ≠ .command) (selectHead drive.1)
    (s.channels bus).disk
  refine ⟨hwrite.trans (congrArg (s.setChannel bus) hchannel), ?_⟩
  show (s.channels bus).IsDisk (Disk.write L.toLatency .driveOrHead (selectHead drive.1) (s.channels bus).disk).selected
  rw [Disk.selected_write_head, headDrive_selectHead]
  split
  case isTrue hbusy => exact hs.selected bus hbusy
  case isFalse => exact hs.isDisk bus _ hdisk

/-- And the head that a transfer writes selects it, too. -/
theorem PcHasBytes.isDisk_head {b : IdeBusId → Nat → Bytes} (hs : PcHasBytes t s b) {drive : DriveNumber}
    (hdisk : ShowsDisk t bus (driveOf drive)) (lba28 : Lba28) :
    (s.channels bus).IsDisk (headDrive (transferHead drive.1 lba28.1)) := by
  rw [headDrive_transferHead]
  exact hs.isDisk bus _ hdisk

/-- A call does on the ports of a PC what it does on the disks. -/
theorem pcCall_related (L : IdeLatency) (h : Legacy t) {b : IdeBusId → Nat → Bytes} (hs : PcHasBytes t s b) (call : SectorCall)
    (hcall : ShowsDisk t bus (driveOf (calledDrive call))) (bytes : List UInt8) :
    (∀ s', pcCall L t bus call bytes s s' →
      ∃ d', (ataDriver L.toLatency).call (s.channels bus).disk call bytes d' ∧ Served s bus s' d') ∧
    (∀ d', (ataDriver L.toLatency).call (s.channels bus).disk call bytes d' → ∃ s', pcCall L t bus call bytes s s') := by
  have hports := pcPorts_related L h s bus (hs.quiet bus)
  have hselect := served_select L h hs hcall
  cases call with
  | read drive lba28 =>
    have hhead := hs.isDisk_head hcall lba28
    have hread := fun fuel => ataReadSector_related hports fuel (by decide) hhead hselect
    constructor
    · intro s' hpc
      obtain ⟨words, rfl, fuel, hpc⟩ := hpc
      obtain ⟨x, hdisk, hx⟩ := (hread fuel).of_ok hpc
      obtain rfl : words = x.1 := hx.1
      exact ⟨x.2, ⟨_, rfl, fuel, hdisk⟩, hx.2⟩
    · intro d' hdisk
      obtain ⟨words, rfl, fuel, hdisk⟩ := hdisk
      obtain ⟨x, hpc, hx⟩ := (hread fuel).of_ok' hdisk
      obtain rfl : x.1 = words := hx.1
      exact ⟨x.2, _, rfl, fuel, hpc⟩
  | write drive lba28 buffer =>
    have hhead := hs.isDisk_head hcall lba28
    have hwrite := fun fuel => ataWriteSector_related hports fuel (word16 buffer) (by decide) (by decide) hhead hselect
    constructor
    · intro s' hpc
      obtain ⟨rfl, fuel, hpc⟩ := hpc
      obtain ⟨d', hdisk, hx⟩ := (hwrite fuel).of_ok hpc
      exact ⟨d', ⟨rfl, fuel, hdisk⟩, hx⟩
    · intro d' hdisk
      obtain ⟨rfl, fuel, hdisk⟩ := hdisk
      obtain ⟨s', hpc, -⟩ := (hwrite fuel).of_ok' hdisk
      exact ⟨s', rfl, fuel, hpc⟩

/-- A sector that the tables show is one that the drive has. -/
theorem PcHasBytes.within {b : IdeBusId → Nat → Bytes} (h : PcHasBytes t s b) {c : IdeBusId × SectorCall}
    (hc : ShowsSector t c) : c.2.Within (s.channels c.1).disk.capacity := by
  rw [SectorCall.Within, ← driveOf_val, h.capacity _ _ hc.1]
  exact hc.2

/-- What a call leaves. -/
theorem PcHasBytes.served {b : IdeBusId → Nat → Bytes} {s' : Pc} {d' : Disk} {b' : Nat → Bytes} (h : PcHasBytes t s b)
    (hserved : Served s bus s' d') (hd : HasBytes (s.channels bus).disk.capacity d' b') :
    PcHasBytes t s' (Function.update b bus b') := by
  obtain ⟨rfl, hdisk⟩ := hserved
  have hcapacity : d'.capacity = (s.channels bus).disk.capacity := Stores.capacity hd
  refine ⟨?_, ?_, ?_, ?_, ?_⟩
  · exact Pc.setChannel_forall (C := fun _ c => c.Quiet) ⟨(h.quiet bus).busy, (h.quiet bus).words⟩ h.quiet
  · intro bus'
    by_cases heq : bus' = bus
    · subst heq
      rw [Pc.withDisk, Pc.setChannel_self, Function.update_self]
      show HasBytes d'.capacity d' b'
      rw [hcapacity]
      exact hd
    · rw [Pc.withDisk, Pc.setChannel_of_ne heq, Function.update_of_ne heq]
      exact h.bytes bus'
  · refine Pc.setChannel_forall (C := fun bus' c => ∀ drive, ShowsDisk t bus' drive →
      c.disk.capacity drive = (t.drives bus' drive).lba28AddressableSectorCount.toNat) (fun drive hshown => ?_) h.capacity
    exact (congrFun hcapacity drive).trans (h.capacity bus drive hshown)
  · refine Pc.setChannel_forall (C := fun bus' c => ∀ drive, ShowsDisk t bus' drive → c.IsDisk drive)
      (fun drive hshown => ?_) h.isDisk
    have hbefore := h.isDisk bus drive hshown
    exact ⟨hbefore.fine, hbefore.disk⟩
  · exact Pc.setChannel_forall (C := fun _ c => c.disk.busy ≠ [] → c.IsDisk c.disk.selected)
      (fun _ => ⟨hdisk.fine, hdisk.disk⟩) h.selected

/-- The driver on the ports of a PC reads and writes the bytes of the disks that the tables show. -/
theorem pcDriver_simulates (L : IdeLatency) (h : Legacy t) :
    Simulation (pcDriver L t) pcDrives (fun _ => ShowsSector t) (PcHasBytes t) where
  returns s b c hR hok := by
    obtain ⟨r, d', hdisk⟩ := (ataDriver_simulates L.toLatency _).returns _ _ c.2 (hR.bytes c.1) (hR.within hok)
    obtain ⟨s', hpc⟩ := (pcCall_related L h hR c.2 hok.1 r).2 d' hdisk
    exact ⟨r, s', hpc⟩
  agrees s b c r s' hR hok hcall := by
    obtain ⟨d', hdisk, hserved⟩ := (pcCall_related L h hR c.2 hok.1 r).1 s' hcall
    obtain ⟨rfl, hd⟩ := (ataDriver_simulates L.toLatency _).agrees _ _ c.2 r d' (hR.bytes c.1) (hR.within hok) hdisk
    exact ⟨rfl, hR.served hserved hd⟩

/-! ## After the boot -/

/-- What the tables show as a disk is one. -/
theorem Describes.isDisk {info : IdeDriveInfo} {device : Option IdeDevice} (h : Describes info device)
    (hmissing : info.missing = false) (htype : info.type = .ata) : ∃ data, device = some (.disk data) := by
  cases device with
  | none => exact absurd (show info.missing = true from h) (by rw [hmissing]; decide)
  | some device =>
    cases device with
    | packet => exact absurd (show info.missing = false ∧ info.type = .unknown from h).2 (by rw [htype]; decide)
    | disk data => exact ⟨data, rfl⟩

theorem Noted.hasBytes {s₀ : Pc} (h : Noted s₀ allDrives t s) (hs : Powered s₀) {b : IdeBusId → Nat → Bytes}
    (hb : ∀ bus, (s₀.channels bus).disk.sectors = sectorsOf (b bus)) : PcHasBytes t s b where
  quiet bus := ⟨(h.settled bus).busy, (h.settled bus).words⟩
  bytes bus := ⟨(h.sectors bus).trans (hb bus), rfl, (h.settled bus).idle, by rw [(h.settled bus).diskBusy]; decide⟩
  capacity bus drive hshown := by
    have hdescribes := h.describes bus drive (mem_allDrives bus drive)
    obtain ⟨data, hdata⟩ := hdescribes.isDisk hshown.1 hshown.2
    rw [hdata] at hdescribes
    rw [h.capacity, hs.capacity bus drive data hdata]
    exact hdescribes.2.2.1.symm
  isDisk bus drive hshown := by
    obtain ⟨data, hdata⟩ := (h.describes bus drive (mem_allDrives bus drive)).isDisk hshown.1 hshown.2
    exact ⟨h.failed bus drive (.inr ⟨data, hdata⟩), data, by rw [h.devices, hdata]⟩
  selected bus hbusy := absurd (h.settled bus).diskBusy hbusy

/-- What `pci_init` and the driver do for a PC that held the bytes `b` when it was turned on: the tables describe the
drives, and calls for the sectors of the disks that they show read and write the bytes of these. -/
structure FindsDisks (L : IdeLatency) (s : Pc) (b : IdeBusId → Nat → Bytes) (t : IdeTables) (s' : Pc) : Prop where
  returns : Returns (fun n => pciInit Pc.dwordIo (Pc.wordIo L) n .zero s) (true, t, s')
  describes : ∀ bus drive, Describes (t.drives bus drive) ((s.channels bus).devices drive)
  calls : ∀ l : List (IdeBusId × SectorCall), (∀ c ∈ l, ShowsSector t c) → ∀ rs,
    (∃ s'', (pcDriver L t).Run s' l rs s'') ↔ rs = outputs pcDrives b l

/-- On a PC whose IDE controller is in compatibility mode, with any drives that take as long as they like to identify
themselves, `pci_init` returns and finds out what they are, and the driver then does for the sectors that the disks
have what the file system takes it to do. -/
theorem pciInit_findsDisks (L : IdeLatency) (s : Pc) (hpci : LegacyController s.pci) (hs : Powered s)
    (b : IdeBusId → Nat → Bytes) (hb : ∀ bus, (s.channels bus).disk.sectors = sectorsOf (b bus)) :
    ∃ t s', FindsDisks L s b t s' := by
  obtain ⟨t, s', hreturns, h⟩ := pciInit_returns L hpci hs
  exact ⟨t, s', hreturns, fun bus drive => h.describes bus drive (mem_allDrives bus drive), fun l hl _ =>
    (pcDriver_simulates L h.legacy).run_iff (h.hasBytes hs hb) (.of_mem hl b)⟩

/-- A drive that is BSY for two status reads. -/
def twoReads (_ : Nat) : List UInt8 := [0, 0x40]

theorem twoReads_settles (n : Nat) : (twoReads n).length ≤ 4 := Nat.le_add_left 2 2

theorem twoReads_quiet (n : Nat) : ∀ b ∈ twoReads n, b &&& (ataStatusError ||| ataStatusDrq) = 0 := by
  intro b hb
  simp only [twoReads, List.mem_cons, List.not_mem_nil, or_false] at hb
  obtain rfl | rfl := hb <;> decide

def slowDrives : IdeLatency where
  transfer := twoReads
  other := twoReads
  settles := twoReads_settles
  identify := twoReads
  quiet := twoReads_quiet

/-- A disk with 0x20000 sectors. -/
def smallDisk (i : Nat) : UInt16 := if i = 61 then 2 else 0

theorem length_smallDisk : ((List.range 256).map smallDisk).length = 256 := by
  rw [List.length_map, List.length_range]

/-- One drive on each channel, with zeros. -/
def channelOf (device : IdeDevice) : IdeChannel where
  devices drive := if drive = drv0 then some device else none
  disk := ⟨[], .idle, 0, fun _ => 0, sectorsOf fun _ _ => 0, fun _ => 0x20000⟩
  busy := []
  words := []
  failed _ := false
  events := 0

/-- A disk, and a drive that takes packets. -/
def smallPc : Pc where
  pci := ⟨0, fun r => if r = controllerRegister 2 then 0x01018000 else 0, fun _ => 0⟩
  channels bus := if bus = .prim then channelOf (.disk ⟨_, length_smallDisk⟩) else channelOf .packet

theorem legacyController_smallPc : LegacyController smallPc.pci where
  classCode := by decide
  subclass := by decide
  progIf := by decide
  headerType := by decide

theorem powered_smallPc : Powered smallPc where
  settled bus := by cases bus <;> exact ⟨rfl, rfl, rfl, rfl⟩
  failed bus drive := by cases bus <;> rfl
  capacity bus drive data hdata := by
    cases bus with
    | prim =>
      obtain rfl | rfl : drive = 0 ∨ drive = 1 := by omega
      · obtain rfl : (⟨_, length_smallDisk⟩ : Sector) = data := by injection Option.some.inj hdata
        decide
      · cases hdata
    | snd =>
      obtain rfl | rfl : drive = 0 ∨ drive = 1 := by omega
      · injection Option.some.inj hdata
      · cases hdata

/-- A sector is written and read. -/
def sectorCalls : List (IdeBusId × SectorCall) :=
  [(.prim, .write ⟨0, zero_driveNumber⟩ ⟨5, five_lba28⟩ fun _ => 7), (.prim, .read ⟨0, zero_driveNumber⟩ ⟨5, five_lba28⟩)]

theorem pciInit_findsDisks_first : ∃ t s', FindsDisks slowDrives smallPc (fun _ _ _ => 0) t s' ∧
    (t.drives .prim 0).lba28AddressableSectorCount.toNat = 0x20000 ∧ (t.drives .prim 1).missing = true ∧
    (t.drives .snd 0).type = .unknown ∧
    ∃ s'', (pcDriver slowDrives t).Run s' sectorCalls [[], List.replicate 512 7] s'' := by
  obtain ⟨t, s', h⟩ := pciInit_findsDisks slowDrives smallPc legacyController_smallPc powered_smallPc (fun _ _ _ => 0)
    fun bus => by cases bus <;> rfl
  have hdisk : Describes (t.drives .prim 0) (some (.disk ⟨_, length_smallDisk⟩)) := h.describes .prim 0
  obtain ⟨hmissing, htype, hcount, -⟩ := hdisk
  have hpacket : Describes (t.drives .snd 0) (some .packet) := h.describes .snd 0
  refine ⟨t, s', h, hcount.trans (by decide), h.describes .prim 1, hpacket.2, (h.calls _ (fun c hc => ?_) _).mpr ?_⟩
  · simp only [sectorCalls, List.mem_cons, List.not_mem_nil, or_false] at hc
    have hsector : 5 < (t.drives .prim 0).lba28AddressableSectorCount.toNat := by
      rw [hcount]
      decide
    obtain rfl | rfl := hc <;> exact ⟨⟨hmissing, htype⟩, hsector⟩
  · decide +kernel

end OSForReal.Proof.Ata
