import Mathlib.Data.Nat.Bitwise
import OSForReal.Proof.Ata.Controller
import OSForReal.Proof.Ata.Related
import OSForReal.Proof.Ata.Store

/-!
# `ide_init` finds out what each drive is

A drive answers `askDrive` with what it is (`askDrive_returns`), through the registers of its
channel and so through the ports of the PC (`channelPorts_related`).
-/

namespace OSForReal.Proof.Ata

open Framework (Res)
open Framework.Res (Related Returns)

variable {L : IdeLatency} {c : IdeChannel} {drive : Fin 2} {r : Port → UInt8} {bits : List UInt8}
  {v : UInt8}

/-! ## The answer -/

/-- What a drive should answer. -/
def answerOf : Option IdeDevice → IdeAnswer
  | none => .missing
  | some .packet => .unknown
  | some (.disk identifyData) => .identified identifyData.1

/-! ## What is noted -/

theorem or_shiftLeft {x y k : Nat} (hx : x < 2 ^ k) : x ||| y <<< k = x + 2 ^ k * y := by
  rw [Nat.or_comm, ← Nat.shiftLeft_add_eq_or_of_lt hx, Nat.shiftLeft_eq]
  ring

theorem toNat_lba28 (x y : UInt16) : (x.toUInt32 ||| y.toUInt32 <<< 16).toNat = x.toNat + 2 ^ 16 * y.toNat := by
  have hx := x.toNat_lt
  have hy := y.toNat_lt
  rw [UInt32.toNat_or, UInt32.toNat_shiftLeft, UInt16.toNat_toUInt32, UInt16.toNat_toUInt32]
  show x.toNat ||| (y.toNat <<< 16) % 2 ^ 32 = _
  rw [Nat.mod_eq_of_lt (by rw [Nat.shiftLeft_eq]; omega), or_shiftLeft hx]

theorem toNat_lba48 (x y z w : UInt16) :
    (x.toUInt64 ||| y.toUInt64 <<< 16 ||| z.toUInt64 <<< 32 ||| w.toUInt64 <<< 48).toNat =
      x.toNat + 2 ^ 16 * y.toNat + 2 ^ 32 * z.toNat + 2 ^ 48 * w.toNat := by
  have hx := x.toNat_lt
  have hy := y.toNat_lt
  have hz := z.toNat_lt
  have hw := w.toNat_lt
  have hlow : x.toNat + 2 ^ 16 * y.toNat < 2 ^ 32 := by omega
  have hmid : x.toNat + 2 ^ 16 * y.toNat + 2 ^ 32 * z.toNat < 2 ^ 48 := by omega
  simp only [UInt64.toNat_or, UInt64.toNat_shiftLeft, UInt16.toNat_toUInt64]
  show x.toNat ||| (y.toNat <<< 16) % 2 ^ 64 ||| (z.toNat <<< 32) % 2 ^ 64 ||| (w.toNat <<< 48) % 2 ^ 64 = _
  rw [Nat.mod_eq_of_lt (by rw [Nat.shiftLeft_eq]; omega), Nat.mod_eq_of_lt (by rw [Nat.shiftLeft_eq]; omega),
    Nat.mod_eq_of_lt (by rw [Nat.shiftLeft_eq]; omega), or_shiftLeft hx, or_shiftLeft hlow, or_shiftLeft hmid]

theorem supportsLba48_eq (x : UInt16) : (x &&& ((1 : UInt16) <<< 10) != 0) = x.toNat.testBit 10 := by
  have hand : (x &&& ((1 : UInt16) <<< 10)).toNat = (x.toNat.testBit 10).toNat * 2 ^ 10 := by
    rw [UInt16.toNat_and]
    exact Nat.and_two_pow x.toNat 10
  cases hbit : x.toNat.testBit 10 with
  | false =>
    rw [hbit] at hand
    exact bne_eq_false_iff_eq.mpr (UInt16.toNat_inj.mp hand)
  | true =>
    rw [hbit] at hand
    refine bne_iff_ne.mpr fun h => ?_
    rw [h] at hand
    cases hand

theorem builtinFfs_two_pow : ∀ m < 8, (builtinFfs (UInt8.ofNat (2 ^ m))).toNat = m + 1 := by
  decide

theorem activeMode_eq (x : UInt16) {m : Nat} (h : x.toNat / 2 ^ 8 = 2 ^ m) : (x >>> 8).toUInt8 = UInt8.ofNat (2 ^ m) := by
  refine UInt8.toNat_inj.mp ?_
  rw [UInt16.toNat_toUInt8, UInt16.toNat_shiftRight, UInt8.toNat_ofNat', ← h]
  show x.toNat >>> 8 % 2 ^ 8 = _
  rw [Nat.shiftRight_eq_div_pow]

/-- What is noted of an answer is right. -/
theorem describes_note (device : Option IdeDevice) :
    Describes (IdeDriveInfo.note ⟨false, .ata, 0, 0, 0⟩ (answerOf device)) device := by
  cases device with
  | none => exact rfl
  | some device =>
    cases device with
    | packet => exact ⟨rfl, rfl⟩
    | disk data =>
      obtain ⟨data, hdata⟩ := data
      simp only [answerOf, IdeDriveInfo.note, identifiedInfo, supportsLba48_eq, Describes]
      have hmode : ∀ m < 8, (data.getD 88 0).toNat / 2 ^ 8 = 2 ^ m →
          (builtinFfs ((data.getD 88 0) >>> 8).toUInt8).toNat = m + 1 := fun m hm h => by
        rw [activeMode_eq _ h]
        exact builtinFfs_two_pow m hm
      split
      · exact ⟨rfl, rfl, toNat_lba28 .., toNat_lba48 .., hmode⟩
      · exact ⟨rfl, rfl, toNat_lba28 .., rfl, hmode⟩

/-! ## Polling -/

section Polling

variable {σ : Type} {P : Ports σ} {again : UInt8 → Bool} {status : UInt8} {s s' : σ}

theorem pollStatus_again (h : again status = true) (hread : P.in8 .status s = (v, s')) (n : Nat) :
    pollStatus P again (n + 1) status s = pollStatus P again n v s' := by
  refine Res.loop_continue ?_ n
  show Res.ok (if again status = true then Sum.inl (P.in8 .status s) else _) = _
  rw [if_pos h, hread]

theorem pollStatus_done (h : again status = false) (n : Nat) : pollStatus P again (n + 1) status s = .ok (status, s) := by
  refine Res.loop_leave ?_ n
  show Res.ok (if again status = true then _ else Sum.inr (status, s)) = _
  rw [h]
  rfl

end Polling

/-! ## A channel between commands -/

namespace IdeChannel

/-- No command is under way, and all that has come is read. -/
structure Settled (c : IdeChannel) : Prop where
  busy : c.busy = []
  words : c.words = []
  diskBusy : c.disk.busy = []
  idle : c.disk.transfer = .idle

/-- The channel with other contents of the registers. -/
def withRegisters (c : IdeChannel) (r : Port → UInt8) : IdeChannel := { c with disk := { c.disk with registers := r } }

theorem Settled.withRegisters (h : c.Settled) (r : Port → UInt8) : (c.withRegisters r).Settled :=
  ⟨h.busy, h.words, h.diskBusy, h.idle⟩

theorem Settled.out8 (h : c.Settled) {p : Port} (hp : p ≠ .command) (v : UInt8) (r : Port → UInt8) :
    (ports L).out8 p v (c.withRegisters r) = c.withRegisters (Function.update r p v) := by
  show (c.withRegisters r).write L p v = _
  have hready : ¬ ((c.withRegisters r).busy ≠ [] ∨ (c.withRegisters r).disk.busy ≠ []) := by
    rw [(h.withRegisters r).busy, (h.withRegisters r).diskBusy]
    simp
  have hdisk : ¬ (c.withRegisters r).disk.busy ≠ [] := not_not.mpr h.diskBusy
  rw [write, if_neg hready, if_neg hp, Disk.write, if_neg hdisk, if_neg hp]
  rfl

/-- What a status read finds, and that it changes nothing. -/
theorem Settled.readStatus (h : c.Settled) (hbus : ¬ ((c.devices 0).isNone ∧ (c.devices 1).isNone))
    (hfailed : c.failed c.selected = false) :
    c.readStatus = (if (c.devices c.selected).isNone then 0 else ataStatusReady, c) := by
  obtain ⟨devices, ⟨diskBusy, transfer, diskEvents, registers, sectors, capacity⟩, busy, words, failed, events⟩ := c
  obtain rfl : busy = [] := h.busy
  obtain rfl : words = [] := h.words
  obtain rfl : diskBusy = [] := h.diskBusy
  obtain rfl : transfer = .idle := h.idle
  rw [IdeChannel.readStatus, if_neg hbus]
  split
  · rfl
  · rw [hfailed]
    rfl

theorem and_or_distrib (x y z : UInt8) : (x ||| y) &&& z = x &&& z ||| y &&& z := by
  apply UInt8.toBitVec_inj.mp
  simp only [UInt8.toBitVec_and, UInt8.toBitVec_or]
  exact BitVec.and_or_distrib_right

/-- The status of a drive that is there, after the command. -/
theorem readStatus_busy {b : UInt8} (hbusy : c.busy = b :: bits) (hbus : ¬ ((c.devices 0).isNone ∧ (c.devices 1).isNone))
    (hdevice : ¬ (c.devices c.selected).isNone) : c.readStatus = (ataStatusBusy ||| b, { c with busy := bits }) := by
  obtain ⟨devices, disk, busy, words, failed, events⟩ := c
  obtain rfl : busy = b :: bits := hbusy
  rw [IdeChannel.readStatus, if_neg hbus, if_neg hdevice]

/-- A drive that is asked is BSY for a while, and then shows the status `v`. -/
theorem pollAnswer (hbusy : c.busy = bits) (hquiet : ∀ b ∈ bits, b &&& (ataStatusError ||| ataStatusDrq) = 0)
    (hbus : ¬ ((c.devices 0).isNone ∧ (c.devices 1).isNone)) (hdevice : ¬ (c.devices c.selected).isNone)
    (hstatus : IdeChannel.readStatus { c with busy := [] } = (v, { c with busy := [] }))
    (hv : v &&& (ataStatusError ||| ataStatusDrq) ≠ 0) {status : UInt8}
    (hagain : status &&& (ataStatusError ||| ataStatusDrq) = 0) :
    ∃ n, pollStatus (ports L) (fun status => status &&& (ataStatusError ||| ataStatusDrq) = 0) n status c =
      .ok (v, { c with busy := [] }) := by
  induction bits generalizing c status with
  | nil =>
    have hread : (ports L).in8 .status c = (v, { c with busy := [] }) := by
      obtain ⟨devices, disk, busy, words, failed, events⟩ := c
      obtain rfl : busy = [] := hbusy
      exact hstatus
    exact ⟨2, (pollStatus_again (decide_eq_true hagain) hread 1).trans (pollStatus_done (decide_eq_false hv) 0)⟩
  | cons b bits ih =>
    have hread : (ports L).in8 .status c = (ataStatusBusy ||| b, { c with busy := bits }) :=
      readStatus_busy hbusy hbus hdevice
    have hb : (ataStatusBusy ||| b) &&& (ataStatusError ||| ataStatusDrq) = 0 := by
      rw [and_or_distrib, hquiet b List.mem_cons_self]
      rfl
    obtain ⟨n, hn⟩ := @ih { c with busy := bits } rfl (fun b hb => hquiet b (List.mem_cons_of_mem _ hb)) hbus hdevice
      hstatus _ hb
    exact ⟨n + 1, (pollStatus_again (decide_eq_true hagain) hread n).trans hn⟩

/-- The words that a disk identifies itself with are read one by one. -/
theorem readWords_identify {l : List Nat} {words : List UInt16} (hlen : l.length = words.length) (hwords : c.words = words)
    (acc : List UInt16) :
    l.foldl (fun p _ => OSForReal.readWord (ports L) p) (acc, c) = (acc ++ words, { c with words := [] }) := by
  induction words generalizing l c acc with
  | nil =>
    obtain rfl := List.length_eq_zero_iff.mp hlen
    obtain ⟨devices, disk, busy, words, failed, events⟩ := c
    obtain rfl : words = [] := hwords
    rw [List.foldl_nil, List.append_nil]
  | cons w words ih =>
    obtain ⟨i, l, rfl⟩ : ∃ i l', l = i :: l' := List.exists_cons_of_length_eq_add_one hlen
    have hread : OSForReal.readWord (ports L) (acc, c) = (acc ++ [w], { c with words }) := by
      show (acc ++ [(c.readWord L).1], (c.readWord L).2) = _
      rw [IdeChannel.readWord, hwords]
    rw [List.foldl_cons, hread, @ih { c with words } l (Nat.succ.inj hlen) rfl, List.append_assoc]
    rfl

/-! ## The drive -/

theorem head_selects : ∀ drive : Fin 2,
    (if selectHead (UInt8.ofNat drive) >>> 4 &&& 1 = 0 then (0 : Fin 2) else 1) = drive := by
  decide

theorem driveNumber_eq : ∀ drive : Fin 2, UInt8.ofNat drive = 0 ∨ UInt8.ofNat drive = 1 := by
  decide

/-- The registers select the drive. -/
def Selects (drive : Fin 2) (r : Port → UInt8) : Prop := r .driveOrHead = selectHead (UInt8.ofNat drive)

theorem Selects.selected (hr : Selects drive r) : (c.withRegisters r).selected = drive := by
  show (if r .driveOrHead >>> 4 &&& 1 = 0 then (0 : Fin 2) else 1) = drive
  rw [hr]
  exact head_selects drive

/-- The status of the drive before a command. -/
def readyOr (device : Option IdeDevice) : UInt8 := if device.isNone then 0 else ataStatusReady

theorem in8_status (L : IdeLatency) (h : c.Settled) (hbus : ¬ ((c.devices 0).isNone ∧ (c.devices 1).isNone))
    (hfailed : c.failed drive = false) (hr : Selects drive r) :
    (ports L).in8 .status (c.withRegisters r) = (readyOr (c.devices drive), c.withRegisters r) := by
  have hselected : (c.withRegisters r).selected = drive := hr.selected
  have hfailed' : (c.withRegisters r).failed (c.withRegisters r).selected = false := by rwa [hselected]
  refine ((h.withRegisters r).readStatus hbus hfailed').trans ?_
  rw [hselected]
  rfl

/-- What is left when a drive has answered. -/
structure Answered (c : IdeChannel) (drive : Fin 2) (c' : IdeChannel) : Prop where
  settled : c'.Settled
  devices : c'.devices = c.devices
  sectors : c'.disk.sectors = c.disk.sectors
  capacity : c'.disk.capacity = c.disk.capacity
  failed : ∀ d, (d ≠ drive ∨ ∃ data, c.devices d = some (.disk data)) → c'.failed d = c.failed d

/-- The command reaches the drive that is selected. -/
theorem identifyCommand_eq (L : IdeLatency) (h : c.Settled) (hr : Selects drive r) :
    ∃ r', Selects drive r' ∧
      identifyCommand (ports L) (c.withRegisters r) = (c.withRegisters r').command L ataCommandIdentify := by
  let r₁ := Function.update (Function.update r .sectorCount 0) .lbaLowOrSectorNum 0
  let r₂ := Function.update (Function.update r₁ .lbaMidOrCylinderLow 0) .lbaHighOrCylinderHigh 0
  have hready : ¬ ((c.withRegisters r₂).busy ≠ [] ∨ (c.withRegisters r₂).disk.busy ≠ []) := by
    rw [(h.withRegisters r₂).busy, (h.withRegisters r₂).diskBusy]
    simp
  refine ⟨r₂, hr, ?_⟩
  rw [identifyCommand, h.out8 (by decide), h.out8 (by decide), h.out8 (by decide), h.out8 (by decide)]
  exact (if_neg hready).trans (if_pos rfl)

/-- A drive that is there is BSY for a while, and then shows the status `v`. -/
theorem readAnswer_present (hbusy : c.busy = bits) (hquiet : ∀ b ∈ bits, b &&& (ataStatusError ||| ataStatusDrq) = 0)
    (hbus : ¬ ((c.devices 0).isNone ∧ (c.devices 1).isNone)) (hdevice : ¬ (c.devices c.selected).isNone)
    (hstatus : IdeChannel.readStatus { c with busy := [] } = (v, { c with busy := [] }))
    (hv : v &&& (ataStatusError ||| ataStatusDrq) ≠ 0) {answer : IdeAnswer} {c' : IdeChannel}
    (hanswer : (if v &&& ataStatusError ≠ 0 then (IdeAnswer.unknown, { c with busy := [] })
      else (.identified ((List.range 256).foldl (fun p _ => OSForReal.readWord (ports L) p) ([], { c with busy := [] })).1,
        ((List.range 256).foldl (fun p _ => OSForReal.readWord (ports L) p) ([], { c with busy := [] })).2)) = (answer, c')) :
    Returns (fun n => readAnswer (ports L) n ataStatusReady c) (answer, c') := by
  have hagain : ataStatusReady &&& (ataStatusError ||| ataStatusDrq) = 0 := by decide
  have hready : isBusy ataStatusReady = false := by decide
  have hzero : ataStatusReady ≠ 0 := by decide
  obtain ⟨n, hn⟩ := @pollAnswer L c bits v hbusy hquiet hbus hdevice hstatus hv _ hagain
  unfold readAnswer
  simp only [if_neg hzero]
  refine Returns.bind (Returns.loop (pollStatus_done hready 0)) (Returns.bind (Returns.loop hn) ?_)
  rw [← hanswer]
  by_cases herror : v &&& ataStatusError ≠ 0
  · simp only [if_pos herror]
    exact Returns.ok _
  · simp only [if_neg herror]
    exact Returns.ok _

/-- The drive answers the command with what it is. -/
def Answers (L : IdeLatency) (c : IdeChannel) (drive : Fin 2) (r : Port → UInt8) : Prop :=
  ∃ c', Returns (fun n => readAnswer (ports L) n (readyOr (c.devices drive))
    ((c.withRegisters r).command L ataCommandIdentify)) (answerOf (c.devices drive), c') ∧ Answered c drive c'

theorem answers_none (L : IdeLatency) (h : c.Settled) (hr : Selects drive r) (hdevice : c.devices drive = none) :
    Answers L c drive r := by
  have hselected : (c.withRegisters r).selected = drive := hr.selected
  have hdevices : (c.withRegisters r).devices = c.devices := rfl
  unfold Answers
  rw [hdevice]
  refine ⟨c.withRegisters r, ?_, h.withRegisters r, rfl, rfl, rfl, fun _ _ => rfl⟩
  rw [IdeChannel.command, hselected, hdevices, hdevice]
  exact Returns.ok _

/-- A drive is there when it is selected. -/
theorem Selects.present {device : IdeDevice} (hr : Selects drive r) (hdevice : c.devices drive = some device) :
    ¬ (c.devices (c.withRegisters r).selected).isNone := by
  have hselected : (c.withRegisters r).selected = drive := hr.selected
  rw [hselected, hdevice]
  exact Bool.false_ne_true

/-- A drive that takes packets fails the command. -/
theorem answers_packet (L : IdeLatency) (h : c.Settled) (hbus : ¬ ((c.devices 0).isNone ∧ (c.devices 1).isNone))
    (hr : Selects drive r) (hdevice : c.devices drive = some .packet) : Answers L c drive r := by
  have hselected : (c.withRegisters r).selected = drive := hr.selected
  have hdevices : (c.withRegisters r).devices = c.devices := rfl
  let c₁ : IdeChannel :=
    { c.withRegisters r with
      busy := L.identify c.events, failed := Function.update c.failed drive true, events := c.events + 1 }
  have hcommand : (c.withRegisters r).command L ataCommandIdentify = c₁ := by
    rw [IdeChannel.command, hselected, hdevices, hdevice]
    rfl
  have hstatus : IdeChannel.readStatus { c₁ with busy := [] } =
      (ataStatusReady ||| ataStatusError, { c₁ with busy := [] }) := by
    have hfail : Function.update c.failed drive true (c.withRegisters r).selected = true := by
      rw [hselected, Function.update_self]
    exact (if_neg hbus).trans ((if_neg (hr.present hdevice)).trans (if_pos hfail))
  unfold Answers
  rw [hcommand, hdevice]
  refine ⟨{ c₁ with busy := [] }, ?_, ⟨rfl, h.words, h.diskBusy, h.idle⟩, rfl, rfl, rfl, fun d hd => ?_⟩
  · exact readAnswer_present (c := c₁) (v := ataStatusReady ||| ataStatusError) rfl (L.quiet c.events) hbus
      (hr.present hdevice) hstatus (by decide) (if_pos (by decide))
  · -- Only this drive fails, which is no disk.
    refine Function.update_of_ne (hd.elim id fun hdisk => ?_) _ _
    obtain ⟨data, hdata⟩ := hdisk
    intro heq
    rw [heq, hdevice] at hdata
    cases hdata

/-- A disk has its words read. -/
theorem answers_disk (L : IdeLatency) (h : c.Settled) (hbus : ¬ ((c.devices 0).isNone ∧ (c.devices 1).isNone))
    (hfailed : c.failed drive = false) (hr : Selects drive r) {data : Sector} (hdevice : c.devices drive = some (.disk data)) :
    Answers L c drive r := by
  have hselected : (c.withRegisters r).selected = drive := hr.selected
  have hdevices : (c.withRegisters r).devices = c.devices := rfl
  let c₁ : IdeChannel :=
    { c.withRegisters r with busy := L.identify c.events, words := data.1, events := c.events + 1 }
  have hcommand : (c.withRegisters r).command L ataCommandIdentify = c₁ := by
    rw [IdeChannel.command, hselected, hdevices, hdevice]
    rfl
  have hne : data.1 ≠ [] := List.ne_nil_of_length_pos (by rw [data.2]; decide)
  have hstatus : IdeChannel.readStatus { c₁ with busy := [] } =
      (ataStatusReady ||| ataStatusDrq, { c₁ with busy := [] }) := by
    have hfine : ¬ c.failed (c.withRegisters r).selected = true := by
      rw [hselected, hfailed]
      decide
    exact (if_neg hbus).trans ((if_neg (hr.present hdevice)).trans ((if_neg hfine).trans (if_pos hne)))
  have hwords := @readWords_identify L { c₁ with busy := [] } (List.range 256) data.1
    (by rw [List.length_range, data.2]) rfl []
  unfold Answers
  rw [hcommand, hdevice]
  refine ⟨{ c₁ with busy := [], words := [] }, ?_, ⟨rfl, rfl, h.diskBusy, h.idle⟩, rfl, rfl, rfl, fun _ _ => rfl⟩
  refine readAnswer_present (c := c₁) (v := ataStatusReady ||| ataStatusDrq) rfl (L.quiet c.events) hbus
    (hr.present hdevice) hstatus (by decide) ?_
  rw [if_neg (by decide), hwords]
  rfl

theorem answers (L : IdeLatency) (h : c.Settled) (hbus : ¬ ((c.devices 0).isNone ∧ (c.devices 1).isNone))
    (hfailed : c.failed drive = false) (hr : Selects drive r) : Answers L c drive r := by
  cases hdevice : c.devices drive with
  | none => exact answers_none L h hr hdevice
  | some device =>
    cases device with
    | packet => exact answers_packet L h hbus hr hdevice
    | disk data => exact answers_disk L h hbus hfailed hr hdevice

/-- A drive answers what it is, and the channel is settled again. -/
theorem askDrive_returns (L : IdeLatency) (h : c.Settled) (hbus : ¬ ((c.devices 0).isNone ∧ (c.devices 1).isNone))
    (hfailed : c.failed drive = false) :
    ∃ c', Returns (fun n => askDrive (ports L) id n (UInt8.ofNat drive) c) (answerOf (c.devices drive), c') ∧
      Answered c drive c' := by
  let r := Function.update c.disk.registers .driveOrHead (selectHead (UInt8.ofNat drive))
  have hr : Selects drive r := Function.update_self ..
  have hread := in8_status L h hbus hfailed hr
  have hselect : ideSelectDrive (ports L) (UInt8.ofNat drive) c = .ok (c.withRegisters r) := by
    have hwrite : (ports L).out8 .driveOrHead (selectHead (UInt8.ofNat drive)) c = c.withRegisters r :=
      h.out8 (by decide) _ c.disk.registers
    rw [ideSelectDrive, Res.assert_bind (driveNumber_eq drive)]
    show Res.ok ((List.range 4).foldl _ ((ports L).out8 .driveOrHead (selectHead (UInt8.ofNat drive)) c)) = _
    rw [hwrite, List.foldl_fixed' (fun _ => by rw [hread])]
  have hready : isBusy (readyOr (c.devices drive)) = false := by
    rw [readyOr]
    split <;> decide
  obtain ⟨r', hr', hcommand⟩ := identifyCommand_eq L h hr
  obtain ⟨c', hanswer, hafter⟩ := answers L h hbus hfailed hr'
  refine ⟨c', ?_, hafter⟩
  have heq : ∀ n, askDrive (ports L) id n (UInt8.ofNat drive) c =
      (pollStatus (ports L) isBusy n (readyOr (c.devices drive)) (c.withRegisters r) >>= fun x =>
        readAnswer (ports L) n x.1 (identifyCommand (ports L) x.2)) := by
    intro n
    rw [askDrive, hselect, Res.ok_bind]
    simp only [id, hread]
  rw [funext heq]
  refine Returns.bind (Returns.loop (pollStatus_done hready 0)) ?_
  simp only [hcommand]
  exact hanswer

end IdeChannel

end OSForReal.Proof.Ata
