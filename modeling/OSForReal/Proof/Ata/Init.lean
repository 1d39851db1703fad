import OSForReal.Proof.Ata.Detect

/-!
# `pci_init` finds the drives of a PC

The registers of a channel are at the ports that `ide_init` notes
(`channelPorts_related`), so a drive answers through them what it is. The
tables describe every drive in the end, and nothing on a disk has changed:

* `ideInit_returns`: the drives are asked one after the other, and each step notes one more (`Noted.step`).
* `pciInit_returns`: a controller at the ports of a PC is found and its drives are asked.
-/

namespace OSForReal.Proof.Ata

open Framework (PciConfig PciRegister Res)
open Framework.Res (Related Returns)

variable {L : IdeLatency} {s s₀ : Pc} {c : IdeChannel} {bus : IdeBusId} {drive : Fin 2} {t : IdeTables}
  {done : List (IdeBusId × Fin 2)}

/-! ## The ports of a channel -/

/-- The ports of the channels of a PC. -/
def channelBase : IdeBusId → UInt16 × UInt16
  | .prim => (0x1F0, 0x3F6)
  | .snd => (0x170, 0x376)

/-- The channels are where they are in a PC. -/
structure Legacy (t : IdeTables) : Prop where
  ioBase : ∀ bus, (t.channels bus).ioBase = (channelBase bus).1
  controlBase : ∀ bus, (t.channels bus).controlBase = (channelBase bus).2

theorem Legacy.setDrive (h : Legacy t) (bus : IdeBusId) (drive : Fin 2) (info : IdeDriveInfo) :
    Legacy (t.setDrive bus drive info) :=
  ⟨h.ioBase, h.controlBase⟩

namespace Pc

@[simp] theorem setChannel_self (s : Pc) (bus : IdeBusId) (c : IdeChannel) : (s.setChannel bus c).channels bus = c :=
  Function.update_self ..

theorem setChannel_of_ne {bus bus' : IdeBusId} (h : bus' ≠ bus) (s : Pc) (c : IdeChannel) :
    (s.setChannel bus c).channels bus' = s.channels bus' :=
  Function.update_of_ne h ..

/-- What holds of a channel that is changed, and of the other one before, holds of both. -/
theorem setChannel_forall {C : IdeBusId → IdeChannel → Prop} {s : Pc} {bus : IdeBusId} {c : IdeChannel} (hself : C bus c)
    (hother : ∀ bus', C bus' (s.channels bus')) (bus' : IdeBusId) : C bus' ((s.setChannel bus c).channels bus') := by
  by_cases heq : bus' = bus
  · subst heq
    rw [setChannel_self]
    exact hself
  · rw [setChannel_of_ne heq]
    exact hother bus'

@[simp] theorem setChannel_setChannel (s : Pc) (bus : IdeBusId) (c c' : IdeChannel) :
    (s.setChannel bus c).setChannel bus c' = s.setChannel bus c' := by
  rw [setChannel, setChannel, Function.update_idem]
  rfl

theorem setChannel_channels (s : Pc) (bus : IdeBusId) : s.setChannel bus (s.channels bus) = s := by
  rw [setChannel, Function.update_eq_self]

theorem channelAt_base (bus : IdeBusId) (p : Port) :
    channelAt ((channelBase bus).1 + ataOffset p) = some (bus, (ataOffset p).toNat) := by
  cases bus <;> cases p <;> decide

theorem channelAt_control (bus : IdeBusId) : channelAt ((channelBase bus).2 + 0) = none := by
  cases bus <;> decide

theorem register_read {p : Port} (hp : p ≠ .command) : register .status (ataOffset p).toNat = p := by
  cases p with
  | command => exact absurd rfl hp
  | _ => rfl

theorem register_written {p : Port} (hp : p ≠ .status) : register .command (ataOffset p).toNat = p := by
  cases p with
  | status => exact absurd rfl hp
  | _ => rfl

theorem read_channel {α : Type} (f : Port → IdeChannel → α × IdeChannel) (floating : α) {p : Port} (hp : p ≠ .command)
    (s : Pc) (bus : IdeBusId) (c : IdeChannel) :
    read f floating ((channelBase bus).1 + ataOffset p) (s.setChannel bus c) = ((f p c).1, s.setChannel bus (f p c).2) := by
  simp only [read, channelAt_base, register_read hp, setChannel_self, setChannel_setChannel]

theorem written_channel (f : Port → IdeChannel → IdeChannel) {p : Port} (hp : p ≠ .status) (s : Pc) (bus : IdeBusId)
    (c : IdeChannel) :
    written f ((channelBase bus).1 + ataOffset p) (s.setChannel bus c) = s.setChannel bus (f p c) := by
  simp only [written, channelAt_base, register_written hp, setChannel_self, setChannel_setChannel]

theorem written_control (f : Port → IdeChannel → IdeChannel) (s : Pc) (bus : IdeBusId) :
    written f ((channelBase bus).2 + 0) s = s := by
  simp only [written, channelAt_control]

end Pc

/-- The registers of a channel are at its ports. -/
theorem channelPorts_related (L : IdeLatency) (h : Legacy t) (s : Pc) (bus : IdeBusId) :
    PortsRelated (channelPorts (Pc.wordIo L) t bus) (IdeChannel.ports L) (fun s' c => s' = s.setChannel bus c)
      (fun _ => True) fun _ => True := by
  have hread : ∀ p, p ≠ .command → ∀ c, (channelPorts (Pc.wordIo L) t bus).in8 p (s.setChannel bus c) =
      (((IdeChannel.ports L).in8 p c).1, s.setChannel bus ((IdeChannel.ports L).in8 p c).2) := fun p hp c => by
    show Pc.read _ _ ((t.channels bus).ioBase + ataOffset p) _ = _
    rw [h.ioBase]
    exact Pc.read_channel _ _ hp s bus c
  have hwritten : ∀ p, p ≠ .status → ∀ v c, (channelPorts (Pc.wordIo L) t bus).out8 p v (s.setChannel bus c) =
      s.setChannel bus ((IdeChannel.ports L).out8 p v c) := fun p hp v c => by
    show Pc.written (fun p => (IdeChannel.ports L).out8 p v) ((t.channels bus).ioBase + ataOffset p) _ = _
    rw [h.ioBase]
    exact Pc.written_channel _ hp s bus c
  refine ⟨fun p s' c hp hR => ?_, fun v s' c _ hR => ?_, fun v s' c _ hR => ?_, fun p v s' c hp hR => ?_,
    fun s' c hR => ?_, fun v s' c hR => ?_⟩
  · rw [hR, hread p hp]
    exact ⟨rfl, rfl⟩
  · rw [hR, hwritten _ (by decide)]
  · rw [hR, hwritten _ (by decide)]
  · rw [hR, hwritten p hp.1]
  · rw [hR]
    show Same _ (Pc.read _ _ ((t.channels bus).ioBase + ataOffset .data) _) _
    rw [h.ioBase, Pc.read_channel _ _ (by decide)]
    exact ⟨rfl, rfl⟩
  · rw [hR]
    show Pc.written (fun p => (IdeChannel.ports L).out16 p v) ((t.channels bus).ioBase + ataOffset .data) _ = _
    rw [h.ioBase]
    exact Pc.written_channel _ (by decide) s bus c

/-! ## One drive -/

/-- No drive is at the channel. -/
def IdeChannel.Floating (c : IdeChannel) : Prop := (c.devices drv0).isNone ∧ (c.devices drv1).isNone

instance (c : IdeChannel) : Decidable c.Floating := inferInstanceAs (Decidable (_ ∧ _))

theorem IdeChannel.Floating.devices (h : c.Floating) (drive : Fin 2) : c.devices drive = none := by
  refine Option.isNone_iff_eq_none.mp ?_
  obtain rfl | rfl : drive = 0 ∨ drive = 1 := by omega
  · exact h.1
  · exact h.2

/-- A drive that is not known to be missing is asked. -/
theorem identifyDrive_returns (L : IdeLatency) (h : Legacy t) (hmissing : (t.drives bus drive).missing = false)
    (hsettled : (s.channels bus).Settled) (hbus : ¬ (s.channels bus).Floating)
    (hfailed : (s.channels bus).failed drive = false) :
    ∃ c', Returns (fun n => identifyDrive (Pc.wordIo L) n bus drive t s)
        (t.setDrive bus drive ((t.drives bus drive).note (answerOf ((s.channels bus).devices drive))), s.setChannel bus c') ∧
      IdeChannel.Answered (s.channels bus) drive c' := by
  obtain ⟨c', hanswer, hafter⟩ := IdeChannel.askDrive_returns L hsettled hbus hfailed
  have hports := channelPorts_related L h s bus
  have hcontrol : ∀ s' c, s' = s.setChannel bus c →
      (Pc.wordIo L).out8 ((t.channels bus).controlBase + 0) 0x2 s' = s.setChannel bus (id c) := fun s' c hR => by
    rw [h.controlBase, hR]
    exact Pc.written_control (fun p => (IdeChannel.ports L).out8 p 0x2) _ bus
  have hselect := hports.head (selectHead (UInt8.ofNat drive)) s (s.channels bus) trivial (Pc.setChannel_channels s bus).symm
  obtain ⟨x, hasked, hx⟩ := Related.returns (fun n => askDrive_related hports n trivial hcontrol hselect)
    (fun x y hx hy => Prod.ext (hx.1.trans hy.1.symm) (hx.2.trans hy.2.symm)) hanswer
  obtain rfl : x = (answerOf ((s.channels bus).devices drive), s.setChannel bus c') := Prod.ext hx.1 hx.2
  refine ⟨c', ?_, hafter⟩
  have hnot : ¬ (t.drives bus drive).missing = true := by
    rw [hmissing]
    decide
  unfold identifyDrive
  simp only [if_neg hnot]
  exact hasked.bind (Returns.ok _)

/-! ## All drives -/

/-- What the globals say before anything is known. -/
def zeroInfo : IdeDriveInfo := ⟨false, .ata, 0, 0, 0⟩

/-- A machine at its start: no command was given to a drive, and each disk has the sectors that it will say it has. -/
structure Powered (s : Pc) : Prop where
  settled : ∀ bus, (s.channels bus).Settled
  failed : ∀ bus drive, (s.channels bus).failed drive = false
  capacity : ∀ bus drive data, (s.channels bus).devices drive = some (.disk data) →
    (s.channels bus).disk.capacity drive = lba28Sectors data

/-- The drives of `done` are noted, and what is on the disks is what it was. -/
structure Noted (s₀ : Pc) (done : List (IdeBusId × Fin 2)) (t : IdeTables) (s : Pc) : Prop where
  legacy : Legacy t
  describes : ∀ bus drive, (bus, drive) ∈ done → Describes (t.drives bus drive) ((s₀.channels bus).devices drive)
  floating : ∀ bus drive, (s₀.channels bus).Floating → (t.drives bus drive).missing = true
  unknown : ∀ bus drive, (bus, drive) ∉ done → ¬ (s₀.channels bus).Floating → t.drives bus drive = zeroInfo
  settled : ∀ bus, (s.channels bus).Settled
  devices : ∀ bus, (s.channels bus).devices = (s₀.channels bus).devices
  sectors : ∀ bus, (s.channels bus).disk.sectors = (s₀.channels bus).disk.sectors
  capacity : ∀ bus, (s.channels bus).disk.capacity = (s₀.channels bus).disk.capacity
  failed : ∀ bus drive, ((bus, drive) ∉ done ∨ ∃ data, (s₀.channels bus).devices drive = some (.disk data)) →
    (s.channels bus).failed drive = false

theorem setDrive_self (t : IdeTables) (bus : IdeBusId) (drive : Fin 2) (info : IdeDriveInfo) :
    (t.setDrive bus drive info).drives bus drive = info :=
  (congrFun (Function.update_self ..) drive).trans (Function.update_self ..)

theorem setDrive_of_ne {bus bus' : IdeBusId} {drive drive' : Fin 2} (h : (bus', drive') ≠ (bus, drive)) (t : IdeTables)
    (info : IdeDriveInfo) : (t.setDrive bus drive info).drives bus' drive' = t.drives bus' drive' := by
  by_cases hbus : bus' = bus
  · subst hbus
    have hdrive : drive' ≠ drive := fun hdrive => h (by rw [hdrive])
    exact (congrFun (Function.update_self ..) drive').trans (Function.update_of_ne hdrive ..)
  · exact congrFun (Function.update_of_ne hbus ..) drive'

/-- One more drive is noted. -/
theorem Noted.step (h : Noted s₀ done t s) (L : IdeLatency) (bus : IdeBusId) (drive : Fin 2) (hnew : (bus, drive) ∉ done) :
    ∃ t' s', Returns (fun n => identifyDrive (Pc.wordIo L) n bus drive t s) (t', s') ∧
      Noted s₀ ((bus, drive) :: done) t' s' := by
  by_cases hbus : (s₀.channels bus).Floating
  · have hmissing := h.floating bus drive hbus
    refine ⟨t, s, ?_, { h with
      describes := fun bus' drive' hmem => ?_
      unknown := fun bus' drive' hmem => h.unknown bus' drive' fun hmem' => hmem (List.mem_cons_of_mem _ hmem')
      failed := fun bus' drive' hor => h.failed bus' drive' (hor.imp_left fun hmem hmem' =>
        hmem (List.mem_cons_of_mem _ hmem')) }⟩
    · unfold identifyDrive
      simp only [if_pos hmissing]
      exact Returns.ok _
    · obtain heq | hmem := List.mem_cons.mp hmem
      · obtain ⟨rfl, rfl⟩ := Prod.mk.inj heq
        rw [hbus.devices]
        exact hmissing
      · exact h.describes bus' drive' hmem
  · have hzero := h.unknown bus drive hnew hbus
    have hbus' : ¬ (s.channels bus).Floating := by
      rw [IdeChannel.Floating, h.devices]
      exact hbus
    obtain ⟨c', hreturns, hafter⟩ := identifyDrive_returns L h.legacy (by rw [hzero]; rfl) (h.settled bus) hbus'
      (h.failed bus drive (.inl hnew))
    have hmem : ∀ {bus' drive'}, (bus', drive') ∉ (bus, drive) :: done → (bus', drive') ∉ done := fun hnot hmem =>
      hnot (List.mem_cons_of_mem _ hmem)
    refine ⟨_, _, hreturns, h.legacy.setDrive .., fun bus' drive' hnow => ?_, fun bus' drive' hfloating => ?_,
      fun bus' drive' hnot hfloating => ?_, ?_, ?_, ?_, ?_, ?_⟩
    · by_cases heq : (bus', drive') = (bus, drive)
      · obtain ⟨rfl, rfl⟩ := Prod.mk.inj heq
        rw [setDrive_self, hzero, h.devices]
        exact describes_note _
      · rw [setDrive_of_ne heq]
        exact h.describes bus' drive' ((List.mem_cons.mp hnow).resolve_left heq)
    · have hne : (bus', drive') ≠ (bus, drive) := fun heq => hbus ((Prod.mk.inj heq).1 ▸ hfloating)
      rw [setDrive_of_ne hne]
      exact h.floating bus' drive' hfloating
    · rw [setDrive_of_ne fun heq => hnot (heq ▸ List.mem_cons_self)]
      exact h.unknown bus' drive' (hmem hnot) hfloating
    · exact Pc.setChannel_forall (C := fun _ c => c.Settled) hafter.settled h.settled
    · exact Pc.setChannel_forall (C := fun bus' c => c.devices = (s₀.channels bus').devices)
        (hafter.devices.trans (h.devices bus)) h.devices
    · exact Pc.setChannel_forall (C := fun bus' c => c.disk.sectors = (s₀.channels bus').disk.sectors)
        (hafter.sectors.trans (h.sectors bus)) h.sectors
    · exact Pc.setChannel_forall (C := fun bus' c => c.disk.capacity = (s₀.channels bus').disk.capacity)
        (hafter.capacity.trans (h.capacity bus)) h.capacity
    · refine Pc.setChannel_forall (C := fun bus' c => ∀ drive', ((bus', drive') ∉ (bus, drive) :: done ∨
        ∃ data, (s₀.channels bus').devices drive' = some (.disk data)) → c.failed drive' = false) (fun drive' hor => ?_)
        fun bus' drive' hor => h.failed bus' drive' (hor.imp_left hmem)
      -- Another drive is not asked, and a disk does not fail the command.
      have hkept : drive' ≠ drive ∨ ∃ data, (s.channels bus).devices drive' = some (.disk data) := by
        rw [h.devices]
        exact hor.imp_left fun hnot hdrive => hnot (by rw [hdrive]; exact List.mem_cons_self)
      exact (hafter.failed drive' hkept).trans (h.failed bus drive' (hor.imp_left hmem))

/-- The status of a channel before its drives are asked. -/
theorem in8_floating (L : IdeLatency) (h : Legacy t) (hs : Powered s) (bus : IdeBusId) :
    ∃ v, (channelPorts (Pc.wordIo L) t bus).in8 .status s = (v, s) ∧ (v = 0xFF ↔ (s.channels bus).Floating) := by
  obtain ⟨hvalue, hstate⟩ := (channelPorts_related L h s bus).in8 .status s (s.channels bus) (by decide)
    (Pc.setChannel_channels s bus).symm
  have hread : ∃ v, (s.channels bus).readStatus = (v, s.channels bus) ∧ (v = 0xFF ↔ (s.channels bus).Floating) := by
    by_cases hbus : (s.channels bus).Floating
    · exact ⟨0xFF, if_pos hbus, iff_of_true rfl hbus⟩
    · refine ⟨_, (hs.settled bus).readStatus hbus (hs.failed bus _), iff_of_false ?_ hbus⟩
      split <;> decide
  obtain ⟨v, hread, hv⟩ := hread
  refine ⟨v, Prod.ext (hvalue.trans (congrArg Prod.fst hread)) (hstate.trans ?_), hv⟩
  show s.setChannel bus (s.channels bus).readStatus.2 = s
  rw [hread, Pc.setChannel_channels]

theorem checkFloatingBus_drives (t : IdeTables) (bus bus' : IdeBusId) (v : UInt8) (drive : Fin 2) :
    (checkFloatingBus t bus v).drives bus' drive =
      if bus' = bus ∧ v = 0xFF then { t.drives bus' drive with missing := true } else t.drives bus' drive := by
  unfold checkFloatingBus
  by_cases hv : v = 0xFF
  · by_cases hbus : bus' = bus
    · subst hbus
      rw [if_pos hv, if_pos ⟨rfl, hv⟩]
      obtain rfl | rfl : drive = 0 ∨ drive = 1 := by omega
      · rw [setDrive_of_ne (by simp), setDrive_self]
      · rw [setDrive_self, setDrive_of_ne (by simp)]
    · have hne : ∀ d, (bus', drive) ≠ (bus, d) := fun d heq => hbus (Prod.mk.inj heq).1
      rw [if_pos hv, if_neg fun h => hbus h.1, setDrive_of_ne (hne 1), setDrive_of_ne (hne 0)]
  · rw [if_neg hv, if_neg fun h => hv h.2]

/-- The tables when the channels without drives are known. -/
theorem noted_checkFloatingBus (hs : Powered s) {v w : UInt8} (hv : v = 0xFF ↔ (s.channels .prim).Floating)
    (hw : w = 0xFF ↔ (s.channels .snd).Floating) (h : Legacy t) (hzero : ∀ bus drive, t.drives bus drive = zeroInfo) :
    Noted s [] (checkFloatingBus (checkFloatingBus t .prim v) .snd w) s := by
  have hlegacy : ∀ t bus v, Legacy t → Legacy (checkFloatingBus t bus v) := fun t bus v h => by
    unfold checkFloatingBus
    split
    · exact (h.setDrive ..).setDrive ..
    · exact h
  have hdrive : ∀ bus drive, (checkFloatingBus (checkFloatingBus t .prim v) .snd w).drives bus drive =
      if (s.channels bus).Floating then { zeroInfo with missing := true } else zeroInfo := by
    intro bus drive
    cases bus <;> simp [checkFloatingBus_drives, hzero, hv, hw]
  refine ⟨hlegacy _ _ _ (hlegacy _ _ _ h), fun _ _ hmem => absurd hmem List.not_mem_nil, fun bus drive hbus => ?_,
    fun bus drive _ hbus => ?_, hs.settled, fun _ => rfl, fun _ => rfl, fun _ => rfl, fun bus drive _ => hs.failed bus drive⟩
  · rw [hdrive, if_pos hbus]
  · rw [hdrive, if_neg hbus]

/-- The drives in the order in which they are asked, the last one first. -/
def allDrives : List (IdeBusId × Fin 2) := [(.snd, drv1), (.snd, drv0), (.prim, drv1), (.prim, drv0)]

theorem mem_allDrives (bus : IdeBusId) (drive : Fin 2) : (bus, drive) ∈ allDrives := by
  obtain rfl | rfl : drive = 0 ∨ drive = 1 := by omega
  all_goals cases bus <;> decide

/-- `ide_init` returns, and has noted every drive. -/
theorem ideInit_returns (L : IdeLatency) (hs : Powered s) (bar0 bar1 bar2 bar3 : UInt16) :
    ∃ t s', Returns (fun n => ideInit (Pc.wordIo L) n false false bar0 bar1 bar2 bar3 .zero s) (true, t, s') ∧
      Noted s allDrives t s' := by
  have hlegacy : Legacy (setChannels false false bar0 bar1 bar2 bar3 .zero) :=
    ⟨fun bus => by cases bus <;> rfl, fun bus => by cases bus <;> rfl⟩
  obtain ⟨v, hprim, hv⟩ := in8_floating L hlegacy hs .prim
  obtain ⟨w, hsnd, hw⟩ := in8_floating L hlegacy hs .snd
  have h₀ := noted_checkFloatingBus hs hv hw hlegacy fun _ _ => rfl
  obtain ⟨t₁, s₁, hreturns₁, h₁⟩ := h₀.step L .prim 0 (by decide)
  obtain ⟨t₂, s₂, hreturns₂, h₂⟩ := h₁.step L .prim 1 (by decide)
  obtain ⟨t₃, s₃, hreturns₃, h₃⟩ := h₂.step L .snd 0 (by decide)
  obtain ⟨t₄, s₄, hreturns₄, h₄⟩ := h₃.step L .snd 1 (by decide)
  refine ⟨t₄, s₄, ?_, h₄⟩
  unfold ideInit
  simp only [hprim, hsnd]
  exact hreturns₁.bind (hreturns₂.bind (hreturns₃.bind (hreturns₄.bind (Returns.ok _))))

/-! ## The controller -/

/-- A register of the controller. -/
def controllerRegister (number : BitVec 6) : PciRegister := ⟨0, 1, 1, number⟩

/-- The controller is one for IDE, in compatibility mode and fixed to it. -/
structure LegacyController (p : PciConfig) : Prop where
  classCode : (p.value (controllerRegister 2) >>> 24) &&& 0xFF = 1
  subclass : (p.value (controllerRegister 2) >>> 16) &&& 0xFF = 1
  progIf : ((p.value (controllerRegister 2) >>> 8) &&& 0xFF).setWidth 8 &&& 0x0F = 0
  headerType : (p.value (controllerRegister 3) >>> 24) &&& 0xFF = 0

theorem pciGetRegisterAddress_eq : ∀ number : BitVec 6,
    pciGetRegisterAddress 0 1 1 (number.setWidth 8 <<< 2) = .ok (controllerRegister number).address := by
  decide +kernel

theorem enabled_address : ∀ number : BitVec 6, (controllerRegister number).address.getLsbD 31 = true := by
  decide +kernel

/-- The name of a register is in the address port. -/
def Pc.addressed (s : Pc) (number : BitVec 6) : Pc :=
  { s with pci := { s.pci with address := (controllerRegister number).address } }

theorem pciReadRegister_eq {reg : BitVec 8} {number : BitVec 6} (hreg : reg = number.setWidth 8 <<< 2) (s : Pc) :
    pciReadRegister Pc.dwordIo 0 1 1 reg s = .ok (s.pci.value (controllerRegister number), s.addressed number) := by
  rw [hreg, pciReadRegister, pciGetRegisterAddress_eq, Res.ok_bind]
  show Res.ok (PciConfig.in32 0xCFC { s.pci with address := (controllerRegister number).address }, s.addressed number) = _
  rw [PciConfig.in32, if_neg (by decide), if_pos ⟨rfl, enabled_address number⟩, PciRegister.named_address]

theorem and_eq_zero {x m k : BitVec 8} (h : x &&& m = 0) (hk : m &&& k = k) : x &&& k = 0 := by
  rw [← hk, ← BitVec.and_assoc, h]
  exact BitVec.zero_and

/-- A mode that is fixed is not switched. -/
theorem pciNativeMode_fixed {progIf : BitVec 8} (h₂ : progIf &&& 0x2 = 0) (h₈ : progIf &&& 0x8 = 0) (fields : BitVec 32) :
    pciNativeMode progIf fields = (progIf, fields, false) := by
  unfold pciNativeMode
  rw [if_neg (not_not.mpr h₂)]
  exact if_neg (not_not.mpr h₈)

theorem pciReadRegister_again {reg : BitVec 8} {number : BitVec 6} (hreg : reg = number.setWidth 8 <<< 2) (s : Pc)
    (last : BitVec 6) : pciReadRegister Pc.dwordIo 0 1 1 reg (s.addressed last) =
      .ok (s.pci.value (controllerRegister number), s.addressed number) :=
  pciReadRegister_eq hreg (s.addressed last)

section

variable {σ : Type} {P : DwordIo σ} {Q : WordIo σ} {b d f : BitVec 8} {n : Nat} {s s₂ s₃ s₄ s₅ s₆ s₇ s₈ : σ}
  {v₂ v₃ v₄ v₅ v₆ v₇ v₈ : BitVec 32} {primaryPciNative secondaryPciNative : Bool}

/-- What `ide_init` is given, by what the registers read as. -/
theorem pciInitDrives_reads (h₃ : pciReadRegister P b d f 12 s = .ok (v₃, s₃))
    (h₄ : pciReadRegister P b d f 16 s₃ = .ok (v₄, s₄)) (h₅ : pciReadRegister P b d f 20 s₄ = .ok (v₅, s₅))
    (h₆ : pciReadRegister P b d f 24 s₅ = .ok (v₆, s₆)) (h₇ : pciReadRegister P b d f 28 s₆ = .ok (v₇, s₇))
    (h₈ : pciReadRegister P b d f 32 s₇ = .ok (v₈, s₈)) (hheader : (v₃ >>> 24) &&& 0xFF = 0) :
    pciInitDrives P Q n b d f primaryPciNative secondaryPciNative t s =
      ideInit Q n primaryPciNative secondaryPciNative (.ofBitVec (v₄.setWidth 16)) (.ofBitVec (v₅.setWidth 16))
        (.ofBitVec (v₆.setWidth 16)) (.ofBitVec (v₇.setWidth 16)) t s₈ := by
  unfold pciInitDrives
  simp only [h₃, Res.ok_bind]
  rw [Res.assert_bind hheader, h₄, Res.ok_bind, h₅, Res.ok_bind, h₆, Res.ok_bind, h₇, Res.ok_bind, h₈, Res.ok_bind]

end

/-- What `ide_init` is given. -/
def Pc.bar (s : Pc) (number : BitVec 6) : UInt16 := .ofBitVec ((s.pci.value (controllerRegister number)).setWidth 16)

theorem pciInitDrives_eq (hheader : (s.pci.value (controllerRegister 3) >>> 24) &&& 0xFF = 0) (Q : WordIo Pc) (n : Nat)
    (last : BitVec 6) : pciInitDrives Pc.dwordIo Q n 0 1 1 false false t (s.addressed last) =
      ideInit Q n false false (s.bar 4) (s.bar 5) (s.bar 6) (s.bar 7) t (s.addressed 8) :=
  pciInitDrives_reads (pciReadRegister_again (by decide) s last) (pciReadRegister_again (by decide) s 3)
    (pciReadRegister_again (by decide) s 4) (pciReadRegister_again (by decide) s 5)
    (pciReadRegister_again (by decide) s 6) (pciReadRegister_again (by decide) s 7) hheader

/-- A controller that is fixed to compatibility mode is not written to. -/
theorem pciInit_eq (hpci : LegacyController s.pci) (Q : WordIo Pc) (n : Nat) (t : IdeTables) :
    pciInit Pc.dwordIo Q n t s = pciInitDrives Pc.dwordIo Q n 0 1 1 false false t (s.addressed 2) := by
  have hread := @pciReadRegister_eq 8 2 (by decide)
  -- No bit of the mode can be set, and none is.
  have hbit : ∀ k, 0x0F &&& k = k → ((s.pci.value (controllerRegister 2) >>> 8) &&& 0xFF).setWidth 8 &&& k = 0 :=
    fun _ hk => and_eq_zero hpci.progIf hk
  have hprim := hbit 0x1 (by decide)
  have hsnd := hbit 0x4 (by decide)
  have hmode := pciNativeMode_fixed (hbit 0x2 (by decide)) (hbit 0x8 (by decide)) (s.pci.value (controllerRegister 2))
  have hassert : Res.assert ((s.pci.value (controllerRegister 2) >>> 24) &&& 0xFF = 1 ∧
      (s.pci.value (controllerRegister 2) >>> 16) &&& 0xFF = 1) = Res.ok () := if_pos ⟨hpci.classCode, hpci.subclass⟩
  unfold pciInit
  simp only [hread, hassert, hmode, Res.ok_bind, Bool.false_eq_true, if_false]
  simp only [hprim, hsnd, ne_eq, not_true, decide_false]

/-- `pci_init` returns, and has noted every drive. -/
theorem pciInit_returns (L : IdeLatency) (hpci : LegacyController s.pci) (hs : Powered s) :
    ∃ t s', Returns (fun n => pciInit Pc.dwordIo (Pc.wordIo L) n .zero s) (true, t, s') ∧ Noted s allDrives t s' := by
  have hpowered : Powered (s.addressed 8) := ⟨hs.settled, hs.failed, hs.capacity⟩
  obtain ⟨t, s', hreturns, h⟩ := ideInit_returns L hpowered (s.bar 4) (s.bar 5) (s.bar 6) (s.bar 7)
  refine ⟨t, s', ?_, h.legacy, h.describes, h.floating, h.unknown, h.settled, h.devices, h.sectors, h.capacity, h.failed⟩
  have heq : ∀ n, pciInit Pc.dwordIo (Pc.wordIo L) n .zero s =
      ideInit (Pc.wordIo L) n false false (s.bar 4) (s.bar 5) (s.bar 6) (s.bar 7) .zero (s.addressed 8) := fun n => by
    rw [pciInit_eq hpci, pciInitDrives_eq hpci.headerType]
  rw [funext heq]
  exact hreturns

end OSForReal.Proof.Ata
