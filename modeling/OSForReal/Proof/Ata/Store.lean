import OSForReal.Proof.Ata.Disk
import OSForReal.Proof.Ata.Discipline

/-!
# The driver stores sectors

`ata_prepare_transfer` writes the registers that name its sector
(`target_prepared`), and the loops over the data transfer the words of it. So
with a disk that settles, `ata_read_sector` and `ata_write_sector` are a store
of the sectors that it has (`readSector_returns`, `writeSector_returns`), and of
the bytes of two drives as the file system has them (`ataDriver_refines_drives`).
-/

namespace OSForReal.Proof.Ata

open Framework (Bytes Object Res Simulation outputs)
open Framework.Bytes
open Framework.Res (Returns)
open OSForReal.TagFS (diskSector writeDiskSector)

variable {L : Latency} {d : Disk} {drive : DriveNumber} {lba28 : Lba28} {a : SectorAddress}

/-- The sector of a call. -/
def sectorAddress (drive : DriveNumber) (lba28 : Lba28) : SectorAddress := ⟨drive.1.toNat, lba28.1.toNat⟩

/-- The sector of the words that a call writes. -/
def sectorOf (buffer : Nat → UInt16) : Sector := ⟨(List.range 256).map buffer, by simp⟩

/-! ## The registers -/

/-- A byte of a sector number. -/
theorem toNat_byte (x k : UInt32) (hk : k.toNat < 32) :
    ((x >>> k) &&& 0xFF).toUInt8.toNat = x.toNat / 2 ^ k.toNat % 256 := by
  rw [UInt32.toNat_toUInt8, UInt32.toNat_and, UInt32.toNat_shiftRight, Nat.mod_eq_of_lt hk, Nat.shiftRight_eq_div_pow]
  show (_ &&& (2 ^ 8 - 1)) % 256 = _
  rw [Nat.and_two_pow_sub_one_eq_mod]
  omega

/-- The highest four bits of a sector number. -/
theorem top_bits {x : UInt32} (hx : x ≤ 0xFFFFFFF) :
    ((x >>> 24) &&& 0x0F).toUInt8 = UInt8.ofNat (x.toNat / 2 ^ 24) ∧ x.toNat / 2 ^ 24 < 16 := by
  have hle : x.toNat ≤ 0xFFFFFFF := hx
  refine ⟨UInt8.toNat_inj.mp ?_, by omega⟩
  rw [UInt32.toNat_toUInt8, UInt32.toNat_and, UInt32.toNat_shiftRight, Nat.shiftRight_eq_div_pow, UInt8.toNat_ofNat']
  show (_ &&& (2 ^ 4 - 1)) % 256 = _
  rw [Nat.and_two_pow_sub_one_eq_mod]
  show (x.toNat / 2 ^ 24 % 2 ^ 4) % 256 = _
  omega

/-- What the drive and head register says. -/
theorem head_decodes : ∀ k < 16, ∀ drive : DriveNumber,
    ((0xA0 : UInt8) ||| drive.1 <<< 4 ||| ataDriveOrHeadLba ||| UInt8.ofNat k) &&& ataDriveOrHeadLba ≠ 0 ∧
      ((0xA0 : UInt8) ||| drive.1 <<< 4 ||| ataDriveOrHeadLba ||| UInt8.ofNat k) >>> 4 &&& 1 = drive.1 ∧
      (((0xA0 : UInt8) ||| drive.1 <<< 4 ||| ataDriveOrHeadLba ||| UInt8.ofNat k) &&& 0x0F).toNat = k := by
  rintro k hk ⟨drive, rfl | rfl⟩ <;> revert k <;> decide

/-- The registers as `ata_prepare_transfer` writes them. -/
def prepared (drive : DriveNumber) (lba28 : Lba28) (registers : Port → UInt8) : Port → UInt8 :=
  let r := Function.update registers .driveOrHead
    ((0xA0 : UInt8) ||| drive.1 <<< 4 ||| ataDriveOrHeadLba ||| ((lba28.1 >>> 24) &&& 0x0F).toUInt8)
  let r := Function.update r .sectorCount 1
  let r := Function.update r .lbaLowOrSectorNum (lba28.1 &&& 0xFF).toUInt8
  let r := Function.update r .lbaMidOrCylinderLow ((lba28.1 >>> 8) &&& 0xFF).toUInt8
  Function.update r .lbaHighOrCylinderHigh ((lba28.1 >>> 16) &&& 0xFF).toUInt8

/-- The registers name the sector of the call. -/
theorem target_prepared {registers : Port → UInt8} (h : d.registers = prepared drive lba28 registers) :
    d.target = some (sectorAddress drive lba28) := by
  obtain ⟨htop, hlt⟩ := top_bits lba28.2
  obtain ⟨hlba, hdrive, hnibble⟩ := head_decodes _ hlt drive
  have hlow := toNat_byte lba28.1 0 (by decide)
  have hmid := toNat_byte lba28.1 8 (by decide)
  have hhigh := toNat_byte lba28.1 16 (by decide)
  have hle : lba28.1.toNat ≤ 0xFFFFFFF := lba28.2
  rw [← htop] at hlba hdrive hnibble
  have hshift : lba28.1 >>> 0 = lba28.1 := by simp
  rw [hshift] at hlow
  -- What each register holds.
  have hhead : d.registers .driveOrHead = (0xA0 : UInt8) ||| drive.1 <<< 4 ||| ataDriveOrHeadLba |||
      ((lba28.1 >>> 24) &&& 0x0F).toUInt8 := by rw [h]; rfl
  have hcount : d.registers .sectorCount = 1 := by rw [h]; rfl
  have hlow' : d.registers .lbaLowOrSectorNum = (lba28.1 &&& 0xFF).toUInt8 := by rw [h]; rfl
  have hmid' : d.registers .lbaMidOrCylinderLow = ((lba28.1 >>> 8) &&& 0xFF).toUInt8 := by rw [h]; rfl
  have hhigh' : d.registers .lbaHighOrCylinderHigh = ((lba28.1 >>> 16) &&& 0xFF).toUInt8 := by rw [h]; rfl
  have hlba' : d.registers .driveOrHead &&& ataDriveOrHeadLba ≠ 0 ∧ d.registers .sectorCount = 1 :=
    ⟨by rw [hhead]; exact hlba, hcount⟩
  simp only [Disk.target, if_pos hlba']
  rw [hhead, hlow', hmid', hhigh', hdrive, hlow, hmid, hhigh, hnibble, sectorAddress]
  congr 2
  show lba28.1.toNat / 2 ^ 0 % 256 + 2 ^ 8 * (lba28.1.toNat / 2 ^ 8 % 256) +
    2 ^ 16 * (lba28.1.toNat / 2 ^ 16 % 256) + 2 ^ 24 * (lba28.1.toNat / 2 ^ 24) = lba28.1.toNat
  omega

/-! ## Status reads -/

/-- A disk that is waiting for the data. -/
def Transfer.waits : Transfer → Bool
  | .dataIn _ => true
  | .dataOut _ _ => true
  | _ => false

theorem diskStatus_snd (d : Disk) : ((diskPorts L).in8 .status d).2 = { d with busy := d.busy.drop 1 } := by
  rcases d with ⟨busy, transfer, events, registers, sectors, capacity⟩
  cases busy <;> rfl

theorem diskStatuses (d : Disk) (n : Nat) :
    (List.range n).foldl (fun d _ => ((diskPorts L).in8 .status d).2) d = { d with busy := d.busy.drop n } := by
  induction n with
  | zero => rfl
  | succ n ih =>
    rw [List.range_succ, List.foldl_append, ih, List.foldl_cons, List.foldl_nil, diskStatus_snd]
    simp only [List.drop_drop]

/-- Polling until BSY clears. -/
theorem pollBusy_returns (L : Latency) (d : Disk) (hwaits : d.transfer.waits = true) :
    Returns (fun n => pollStatus (diskPorts L) isBusy n ((diskPorts L).in8 .status d).1 ((diskPorts L).in8 .status d).2)
      (readyStatus, { d with busy := [] }) := by
  obtain ⟨busy, hbusy⟩ : ∃ busy, d.busy = busy := ⟨_, rfl⟩
  suffices h : ∃ n, pollStatus (diskPorts L) isBusy n ((diskPorts L).in8 .status d).1 ((diskPorts L).in8 .status d).2 =
      .ok (readyStatus, { d with busy := [] }) by
    obtain ⟨n, hn⟩ := h
    exact Returns.loop hn
  induction busy generalizing d with
  | nil =>
    have hread : (diskPorts L).in8 .status d = (readyStatus, { d with busy := [] }) := by
      rcases d with ⟨busy, transfer, events, registers, sectors, capacity⟩
      obtain rfl : busy = [] := hbusy
      cases transfer with
      | idle => cases hwaits
      | aborted => cases hwaits
      | dataIn => rfl
      | dataOut => rfl
    have hnot : isBusy readyStatus = false := by decide
    rw [hread]
    refine ⟨1, Res.loop_leave ?_ 0⟩
    simp only [hnot]
    rfl
  | cons b busy ih =>
    have hread : (diskPorts L).in8 .status d = (ataStatusBusy ||| b, { d with busy }) := by
      rcases d with ⟨_, transfer, events, registers, sectors, capacity⟩
      obtain rfl : _ = b :: busy := hbusy
      rfl
    obtain ⟨n, hn⟩ := ih { d with busy } hwaits rfl
    rw [hread]
    refine ⟨n + 1, (Res.loop_continue ?_ n).trans hn⟩
    simp only [isBusy_busy]
    rfl

/-! ## Before the data -/

/-- The disk after `ide_select_drive`: idle, with some registers. -/
theorem ideSelectDrive_disk (L : Latency) (drive : DriveNumber) (hbusy : d.busy.length ≤ 4) :
    ∃ registers, ideSelectDrive (diskPorts L) drive d = .ok { d with busy := [], registers } := by
  unfold ideSelectDrive
  rw [Res.assert_bind drive.2]
  show ∃ registers, Res.ok ((List.range 4).foldl (fun d _ => ((diskPorts L).in8 .status d).2) (d.write L .driveOrHead _)) = _
  rw [diskStatuses]
  unfold Disk.write
  by_cases hidle : d.busy = []
  · rw [if_neg (not_not.mpr hidle), if_neg (by decide), hidle]
    exact ⟨_, rfl⟩
  · rw [if_pos hidle, List.drop_eq_nil_of_le hbusy]
    exact ⟨_, rfl⟩

theorem ataPrepareTransfer_disk (L : Latency) (drive : DriveNumber) (lba28 : Lba28) (hidle : d.busy = []) :
    ataPrepareTransfer (diskPorts L) drive lba28 d = .ok { d with registers := prepared drive lba28 d.registers } := by
  rcases d with ⟨busy, transfer, events, registers, sectors, capacity⟩
  obtain rfl : busy = [] := hidle
  unfold ataPrepareTransfer
  rw [Res.assert_bind drive.2, Res.assert_bind lba28.2]
  rfl

/-- A command for a sector that the drive has is not aborted. -/
theorem Disk.begin_within {command : UInt8} (h : a.lba28 < d.capacity a.drive) :
    d.begin command a = if command = ataCommandReadSectors then .dataIn (d.sectors a).1 else .dataOut a [] :=
  if_neg (Nat.not_le.mpr h)

/-- What a call does before the data. -/
theorem startTransfer_returns (L : Latency) (drive : DriveNumber) (lba28 : Lba28) {command : UInt8}
    (hbusy : d.busy.length ≤ 4) (hwithin : lba28.1.toNat < d.capacity drive.1.toNat)
    (hcommand : command = ataCommandReadSectors ∨ command = ataCommandWriteSectors) :
    ∃ registers, Returns (fun n => ataStartTransfer (diskPorts L) n drive lba28 command d)
      (readyStatus, ⟨[], d.begin command (sectorAddress drive lba28), d.events + 1, registers, d.sectors, d.capacity⟩) := by
  obtain ⟨registers, hselect⟩ := ideSelectDrive_disk L drive hbusy
  let d₁ : Disk := { d with busy := [], registers }
  let d₂ : Disk := { d₁ with registers := prepared drive lba28 registers }
  let d₃ : Disk :=
    ⟨L.transfer d.events, d.begin command (sectorAddress drive lba28), d.events + 1, d₂.registers, d.sectors, d.capacity⟩
  have hprepare : ataPrepareTransfer (diskPorts L) drive lba28 d₁ = .ok d₂ := ataPrepareTransfer_disk L drive lba28 rfl
  have htarget : d₂.target = some (sectorAddress drive lba28) := target_prepared rfl
  have hbegin : (diskPorts L).out8 .command command d₂ = d₃ := by
    show d₂.write L .command command = d₃
    unfold Disk.write Disk.command
    rw [if_neg (by simp [d₂, d₁]), if_pos rfl, htarget]
    exact if_pos hcommand
  have hwaits : d₃.transfer.waits = true := by
    show (d.begin command (sectorAddress drive lba28)).waits = true
    rw [Disk.begin_within hwithin]
    rcases hcommand with rfl | rfl <;> rfl
  have heq : ∀ n, ataStartTransfer (diskPorts L) n drive lba28 command d =
      (pollStatus (diskPorts L) isBusy n ((diskPorts L).in8 .status d₃).1 ((diskPorts L).in8 .status d₃).2 >>= fun x =>
        pollStatus (diskPorts L) (fun status => status &&& ataStatusDrq = 0 && !isFault status) n x.1 x.2 >>= fun y =>
          (Res.assert (isFault y.1 = false) >>= fun _ =>
            Res.ok (y.1, if isFault y.1 then ((diskPorts L).in8 .error y.2).2 else y.2))) := by
    intro n
    unfold ataStartTransfer
    rw [hselect, Res.ok_bind, hprepare, Res.ok_bind, hbegin]
  refine ⟨d₂.registers, ?_⟩
  rw [funext heq]
  refine Returns.bind (pollBusy_returns L d₃ hwaits)
    (Returns.bind (@Returns.loop _ _ _ 1 _ (readyStatus, { d₃ with busy := [] }) (Res.loop_leave ?_ 0)) ?_)
  · have hleave : (decide (readyStatus &&& ataStatusDrq = 0) && !isFault readyStatus) = false := by decide
    simp only [hleave]
    rfl
  · have hfault : isFault readyStatus = false := by decide
    simp only [hfault]
    exact Returns.ok _

/-! ## The data -/

/-- Reading as many words as are to come reads all of them. -/
theorem readWords_disk (L : Latency) {left : List UInt16} {l : List Nat} (hlen : l.length = left.length) (hne : left ≠ [])
    (hd : d.transfer = .dataIn left) (acc : List UInt16) :
    l.foldl (fun p _ => readWord (diskPorts L) p) (acc, d) = (acc ++ left, d.rest L) := by
  induction left generalizing l d acc with
  | nil => exact absurd rfl hne
  | cons w left ih =>
    obtain ⟨i, l, rfl⟩ : ∃ i l', l = i :: l' := List.exists_cons_of_length_eq_add_one hlen
    have hlen' : l.length = left.length := by simpa using hlen
    rw [List.foldl_cons]
    cases left with
    | nil =>
      have hread : readWord (diskPorts L) (acc, d) = (acc ++ [w], d.rest L) := by
        show (acc ++ [(d.readWord L).1], (d.readWord L).2) = _
        rw [Disk.readWord, hd]
      obtain rfl : l = [] := List.length_eq_zero_iff.mp hlen'
      rw [hread, List.foldl_nil]
    | cons w' left =>
      have hread : readWord (diskPorts L) (acc, d) = (acc ++ [w], { d with transfer := .dataIn (w' :: left) }) := by
        show (acc ++ [(d.readWord L).1], (d.readWord L).2) = _
        rw [Disk.readWord, hd]
      rw [hread, ih hlen' (List.cons_ne_nil w' left) rfl, List.append_assoc]
      rfl

theorem out16_disk (L : Latency) (w : UInt16) (d : Disk) : (diskPorts L).out16 .data w d = d.writeWord L w := by
  rfl

/-- Writing fewer words than a sector has. -/
theorem writeWords_disk (L : Latency) (buffer : Nat → UInt16) (hd : d.transfer = .dataOut a []) {n : Nat} (hn : n < 256) :
    (List.range n).foldl (fun d i => (diskPorts L).out16 .data (buffer i) d) d =
      { d with transfer := .dataOut a ((List.range n).map buffer) } := by
  induction n with
  | zero =>
    rw [List.range_zero, List.map_nil, ← hd]
    rfl
  | succ n ih =>
    rw [List.range_succ, List.foldl_append, ih (by omega), List.foldl_cons, List.foldl_nil, List.map_append]
    rw [out16_disk, Disk.writeWord]
    simp only
    rw [dif_neg (by simp only [List.length_append, List.length_map, List.length_range, List.length_singleton]; omega)]
    rfl

/-- Writing the words of a sector. -/
theorem writeSector_disk (L : Latency) (buffer : Nat → UInt16) (hd : d.transfer = .dataOut a []) :
    (List.range 256).foldl (fun d i => (diskPorts L).out16 .data (buffer i) d) d =
      Disk.rest L { d with sectors := Function.update d.sectors a (sectorOf buffer) } := by
  have hrange : List.range 256 = List.range 255 ++ [255] := List.range_succ
  have hsector : (List.range 255).map buffer ++ [buffer 255] = (sectorOf buffer).1 := by
    have hmap : (List.range 256).map buffer = (List.range 255).map buffer ++ [buffer 255] := by
      rw [hrange, List.map_append]
      rfl
    exact hmap.symm
  have hlen : ((List.range 255).map buffer ++ [buffer 255]).length = 256 := by
    rw [hsector]
    exact (sectorOf buffer).2
  have hword : (⟨(List.range 255).map buffer ++ [buffer 255], hlen⟩ : Sector) = sectorOf buffer := Subtype.ext hsector
  rw [hrange, List.foldl_append, writeWords_disk L buffer hd (by decide), List.foldl_cons, List.foldl_nil, out16_disk,
    Disk.writeWord]
  simp only
  rw [dif_pos hlen, hword]
  rfl

/-! ## The calls -/

/-- The disk between calls holds the store, of so many sectors of each drive. -/
structure Stores (capacity : Nat → Nat) (d : Disk) (t : SectorAddress → Sector) : Prop where
  sectors : d.sectors = t
  capacity : d.capacity = capacity
  idle : d.transfer = .idle
  settles : d.busy.length ≤ 4

variable {capacity : Nat → Nat} {t : SectorAddress → Sector}

theorem Stores.rest (L : Latency) (h : d.sectors = t) (hc : d.capacity = capacity) : Stores capacity (d.rest L) t :=
  ⟨h, hc, rfl, L.settles d.events⟩

theorem readSector_returns (L : Latency) (drive : DriveNumber) (lba28 : Lba28) (h : Stores capacity d t)
    (hwithin : lba28.1.toNat < capacity drive.1.toNat) :
    ∃ d', Returns (fun n => ataReadSector (diskPorts L) n drive lba28 d) ((t (sectorAddress drive lba28)).1, d') ∧
      Stores capacity d' t := by
  rw [← h.capacity] at hwithin
  obtain ⟨registers, hstart⟩ := startTransfer_returns L drive lba28 h.settles hwithin (.inl rfl)
  let d₁ : Disk := ⟨[], .dataIn (t (sectorAddress drive lba28)).1, d.events + 1, registers, d.sectors, d.capacity⟩
  have hlen : (List.range 256).length = (t (sectorAddress drive lba28)).1.length := by
    rw [List.length_range, (t (sectorAddress drive lba28)).2]
  have hne : (t (sectorAddress drive lba28)).1 ≠ [] := List.ne_nil_of_length_pos (by rw [(t _).2]; decide)
  have hdata := @readWords_disk d₁ L _ _ hlen hne rfl []
  have hbegin : d.begin ataCommandReadSectors (sectorAddress drive lba28) = d₁.transfer := by
    rw [Disk.begin_within hwithin, if_pos rfl, h.sectors]
  rw [hbegin] at hstart
  refine ⟨d₁.rest L, Returns.bind hstart ?_, Stores.rest L h.sectors h.capacity⟩
  show Returns (fun _ => Res.ok ((List.range 256).foldl (fun p _ => readWord (diskPorts L) p) ([], d₁))) _
  rw [hdata]
  exact Returns.ok _

theorem writeSector_returns (L : Latency) (drive : DriveNumber) (lba28 : Lba28) (buffer : Nat → UInt16)
    (h : Stores capacity d t) (hwithin : lba28.1.toNat < capacity drive.1.toNat) :
    ∃ d', Returns (fun n => ataWriteSector (diskPorts L) n drive lba28 buffer d) d' ∧
      Stores capacity d' (Function.update t (sectorAddress drive lba28) (sectorOf buffer)) := by
  rw [← h.capacity] at hwithin
  obtain ⟨registers, hstart⟩ := startTransfer_returns L drive lba28 h.settles hwithin (.inr rfl)
  let d₁ : Disk := ⟨[], .dataOut (sectorAddress drive lba28) [], d.events + 1, registers, d.sectors, d.capacity⟩
  have hbegin : d.begin ataCommandWriteSectors (sectorAddress drive lba28) = d₁.transfer := by
    rw [Disk.begin_within hwithin, if_neg (by decide)]
  rw [hbegin] at hstart
  let d₂ : Disk := Disk.rest L { d₁ with sectors := Function.update d₁.sectors (sectorAddress drive lba28) (sectorOf buffer) }
  have hdata : (List.range 256).foldl (fun d i => (diskPorts L).out16 .data (buffer i) d) d₁ = d₂ :=
    writeSector_disk L buffer rfl
  have hstores : Stores capacity d₂ (Function.update t (sectorAddress drive lba28) (sectorOf buffer)) :=
    Stores.rest L (by rw [← h.sectors]) h.capacity
  -- The flush is ignored, or it is a command without data.
  have hflush : Stores capacity ((diskPorts L).out8 .command ataCommandCacheFlush d₂)
      (Function.update t (sectorAddress drive lba28) (sectorOf buffer)) := by
    show Stores capacity (d₂.write L .command ataCommandCacheFlush) _
    unfold Disk.write
    by_cases hbusy : d₂.busy = []
    · rw [if_neg (not_not.mpr hbusy), if_pos rfl]
      have hrest : d₂.command L ataCommandCacheFlush = d₂.rest L := by
        unfold Disk.command
        split
        · rfl
        · exact if_neg (by decide)
      rw [hrest]
      exact Stores.rest L hstores.sectors hstores.capacity
    · rw [if_pos hbusy]
      exact hstores
  refine ⟨_, Returns.bind hstart ?_, hflush⟩
  show Returns (fun n => pollStatus (diskPorts L) isBusy n readyStatus ((diskPorts L).out8 .command ataCommandCacheFlush
    ((List.range 256).foldl (fun d i => (diskPorts L).out16 .data (buffer i) d) d₁)) >>= fun x => Res.ok x.2) _
  rw [hdata]
  have hnot : isBusy readyStatus = false := by decide
  refine Returns.bind (@Returns.loop _ _ _ 1 _ (readyStatus, _) (Res.loop_leave ?_ 0)) (Returns.ok _)
  simp only [hnot]
  rfl

/-! ## The bytes -/

/-- The sectors after one was written. -/
theorem sectorsOf_write (t : Nat → Bytes) (drive : DriveNumber) (lba28 : Lba28) (buffer : Bytes) :
    sectorsOf (Function.update t drive.1.toNat (writeDiskSector (t drive.1.toNat) lba28.1.toNat buffer)) =
      Function.update (sectorsOf t) (sectorAddress drive lba28) (sectorOf (word16 buffer)) := by
  funext a
  apply Subtype.ext
  by_cases ha : a = sectorAddress drive lba28
  · subst ha
    rw [Function.update_self]
    refine List.map_congr_left fun i hi => ?_
    have hi := List.mem_range.mp hi
    simp only [sectorAddress, Function.update_self]
    refine word16_congr ?_ ?_ <;> exact (copy_in (by omega) (by omega)).trans (congrArg buffer (by omega))
  · rw [Function.update_of_ne ha]
    refine List.map_congr_left fun i hi => ?_
    have hi := List.mem_range.mp hi
    by_cases hd : a.drive = drive.1.toNat
    · have hlba : a.lba28 ≠ lba28.1.toNat := fun h => ha (by cases a; simp_all [sectorAddress])
      rw [hd, Function.update_self]
      refine word16_congr ?_ ?_ <;> exact copy_out (by omega)
    · rw [Function.update_of_ne hd]

/-- The disk between calls has the bytes. -/
def HasBytes (capacity : Nat → Nat) (d : Disk) (t : Nat → Bytes) : Prop := Stores capacity d (sectorsOf t)

/-- The driver reads and writes the bytes of the sectors that the drives have. -/
theorem ataDriver_simulates (L : Latency) (capacity : Nat → Nat) :
    Simulation (ataDriver L) drives (fun _ c => c.Within capacity) (HasBytes capacity) where
  returns d t c hR hok := by
    cases c with
    | read drive lba28 =>
      obtain ⟨d', hret, -⟩ := readSector_returns L drive lba28 hR hok
      exact ⟨_, d', _, rfl, hret.iff.mpr rfl⟩
    | write drive lba28 buffer =>
      obtain ⟨d', hret, -⟩ := writeSector_returns L drive lba28 (word16 buffer) hR hok
      exact ⟨[], d', rfl, hret.iff.mpr rfl⟩
  agrees d t c bytes d' hR hok hcall := by
    cases c with
    | read drive lba28 =>
      obtain ⟨d₁, hret, hd₁⟩ := readSector_returns L drive lba28 hR hok
      obtain ⟨words, rfl, hcall⟩ := hcall
      obtain ⟨rfl, rfl⟩ := Prod.mk.inj (hret.iff.mp hcall)
      have hbytes := bytes16_word16 (diskSector (t drive.1.toNat) lba28.1.toNat) 256
      refine ⟨?_, hd₁⟩
      simp only [sectorsOf, sectorAddress, drives]
      exact hbytes
    | write drive lba28 buffer =>
      obtain ⟨d₁, hret, hd₁⟩ := writeSector_returns L drive lba28 (word16 buffer) hR hok
      obtain ⟨rfl, hcall⟩ := hcall
      obtain rfl := hret.iff.mp hcall
      refine ⟨rfl, ?_⟩
      show Stores capacity _ (sectorsOf (Function.update t _ _))
      rw [sectorsOf_write]
      exact hd₁

/-- Whatever calls of the driver for sectors that the drives have follow one another, whatever
the registers hold at first and for however long the disk is busy before a transfer, they
return, and do to the bytes of the drives what the file system takes them to do. -/
theorem ataDriver_refines_drives (L : Latency) (capacity : Nat → Nat) (registers : Port → UInt8) (t : Nat → Bytes)
    (calls : List SectorCall) (h : ∀ c ∈ calls, c.Within capacity) (results : List (List UInt8)) :
    (∃ d', (ataDriver L).Run ⟨[], .idle, 0, registers, sectorsOf t, capacity⟩ calls results d') ↔
      results = outputs drives t calls :=
  (ataDriver_simulates L capacity).run_iff ⟨rfl, rfl, rfl, Nat.zero_le 4⟩ (.of_mem h t)

/-- A disk that is BSY for seven status reads before a transfer, and for two after it. -/
def slowDisk : Latency where
  transfer _ := [0, 0x40, 0x01, 0x20, 0x08, 0, 0]
  other _ := [0x01, 0]
  settles _ := by decide

theorem zero_driveNumber : (0 : UInt8) = 0 ∨ (0 : UInt8) = 1 := .inl rfl

theorem one_driveNumber : (1 : UInt8) = 0 ∨ (1 : UInt8) = 1 := .inr rfl

theorem five_lba28 : (5 : UInt32) ≤ 0xFFFFFFF := by decide

/-- Sector 5 of both drives is written, and read again. -/
def twoDriveCalls : List SectorCall :=
  [.write ⟨0, zero_driveNumber⟩ ⟨5, five_lba28⟩ fun _ => 7, .write ⟨1, one_driveNumber⟩ ⟨5, five_lba28⟩ fun _ => 9,
    .read ⟨0, zero_driveNumber⟩ ⟨5, five_lba28⟩, .read ⟨1, one_driveNumber⟩ ⟨5, five_lba28⟩]

theorem ataDriver_refines_drives_first : ∃ d', (ataDriver slowDisk).Run
    ⟨[], .idle, 0, fun _ => 0xFF, sectorsOf fun _ _ => 0, fun _ => 6⟩ twoDriveCalls
    [[], [], List.replicate 512 7, List.replicate 512 9] d' := by
  refine (ataDriver_refines_drives slowDisk (fun _ => 6) (fun _ => 0xFF) (fun _ _ => 0) twoDriveCalls (fun c hc => ?_) _).mpr ?_
  · simp only [twoDriveCalls, List.mem_cons, List.not_mem_nil, or_false] at hc
    obtain rfl | rfl | rfl | rfl := hc <;> exact (by decide : 5 < 6)
  · decide +kernel

end OSForReal.Proof.Ata
