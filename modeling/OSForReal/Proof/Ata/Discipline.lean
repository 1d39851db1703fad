import OSForReal.Proof.Ata.Drive

/-!
# When the driver waits for the drive

`ata_read_sector` polls the drive before the data, but nothing after it: the
next call begins with the four status reads of `ide_select_drive` and then
writes registers. `ata_write_sector` writes the CACHE FLUSH command right behind
the data, and the loop that should wait for it tests the status from before the
data, so it never reads another one (`writeSector_spec`). `disciplined_iff` says
for which calls and drives the discipline is kept.
-/

namespace OSForReal.Proof.Ata

open Framework (Res)

variable {B : Behaviour} {m : Machine} {tr : List Access}

/-- Nothing in the trace is a violation. -/
def Clean (tr : List Access) : Prop := ∀ a ∈ tr, a.violates = false

/-- No CACHE FLUSH command is in the trace. -/
def NoFlush (tr : List Access) : Prop := ∀ busy, Access.out8 .command ataCommandCacheFlush busy ∉ tr

/-- No register is written in the trace. -/
def Quiet (tr : List Access) : Prop := ∀ a ∈ tr, ∀ p v busy, a ≠ .out8 p v busy

theorem Clean.append {tr' : List Access} : Clean (tr ++ tr') ↔ Clean tr ∧ Clean tr' := List.forall_mem_append

theorem NoFlush.append {tr' : List Access} (h : NoFlush tr) (h' : NoFlush tr') : NoFlush (tr ++ tr') := fun busy hmem =>
  (List.mem_append.mp hmem).elim (h busy) (h' busy)

theorem Quiet.append {tr' : List Access} (h : Quiet tr) (h' : Quiet tr') : Quiet (tr ++ tr') :=
  List.forall_mem_append.mpr ⟨h, h'⟩

theorem Quiet.clean (h : Quiet tr) : Clean tr := fun a ha => by
  cases a with
  | out8 p v busy => exact absurd rfl (h _ ha p v busy)
  | in8 => rfl
  | in16 => rfl
  | out16 => rfl

theorem Quiet.noFlush (h : Quiet tr) : NoFlush tr := fun busy hmem => h _ hmem _ _ busy rfl

theorem quiet_singleton {a : Access} (h : ∀ p v busy, a ≠ .out8 p v busy) : Quiet [a] := fun b hb => by
  rw [List.mem_singleton.mp hb]
  exact h

/-! ## Status reads -/

/-- The status once the drive is ready for the data. -/
abbrev readyStatus : UInt8 := ataStatusReady ||| ataStatusDrq

theorem isBusy_busy (b : UInt8) : isBusy (ataStatusBusy ||| b) = true := by
  have hbit : (ataStatusBusy ||| b) &&& ataStatusBusy = ataStatusBusy := by
    apply UInt8.eq_of_toBitVec_eq
    refine BitVec.eq_of_getLsbD_eq fun i _ => ?_
    simp only [UInt8.toBitVec_and, UInt8.toBitVec_or, BitVec.getLsbD_and, BitVec.getLsbD_or]
    cases ataStatusBusy.toBitVec.getLsbD i <;> simp
  unfold isBusy
  rw [hbit]
  decide

theorem readStatus_snd (d : Drive) : d.readStatus.2 = { d with busy := d.busy.drop 1 } := by
  rcases d with ⟨busy, phase, events⟩
  cases busy <;> rfl

/-- Reading the status and polling until BSY clears: the drive is not busy any more, and is ready for the data. -/
theorem pollBusy_spec {busy : List UInt8} (hbusy : m.drive.busy = busy) (hphase : m.drive.phase ≠ .idle) :
    ∃ tr, Quiet tr ∧ ∀ fuel, busy.length < fuel →
      pollStatus (ports B) isBusy fuel ((ports B).in8 .status m).1 ((ports B).in8 .status m).2 =
        .ok (readyStatus, ⟨{ m.drive with busy := [] }, m.trace ++ tr⟩) := by
  induction busy generalizing m with
  | nil =>
    refine ⟨[.in8 .status readyStatus], quiet_singleton fun _ _ _ => Access.noConfusion, fun fuel hfuel => ?_⟩
    obtain ⟨fuel, rfl⟩ := Nat.exists_eq_add_one_of_ne_zero (Nat.ne_zero_of_lt hfuel)
    have hread : m.drive.readStatus = (readyStatus, { m.drive with busy := [] }) := by
      unfold Drive.readStatus
      rw [hbusy]
      simp only [if_neg hphase, readyStatus]
      rw [← hbusy]
    have hnot : isBusy readyStatus = false := by decide
    simp only [ports, hread]
    refine Res.loop_leave ?_ fuel
    simp [hnot]
  | cons b busy ih =>
    have hread : m.drive.readStatus = (ataStatusBusy ||| b, { m.drive with busy }) := by
      unfold Drive.readStatus
      rw [hbusy]
    obtain ⟨tr, hquiet, hr⟩ :=
      @ih ⟨{ m.drive with busy }, m.trace ++ [.in8 .status (ataStatusBusy ||| b)]⟩ rfl hphase
    refine ⟨.in8 .status (ataStatusBusy ||| b) :: tr, ?_, fun fuel hfuel => ?_⟩
    · exact (quiet_singleton fun _ _ _ => Access.noConfusion).append hquiet
    · obtain ⟨fuel, rfl⟩ := Nat.exists_eq_add_one_of_ne_zero (Nat.ne_zero_of_lt hfuel)
      rw [List.append_cons, ← hr fuel (Nat.lt_of_succ_lt_succ hfuel)]
      simp only [ports, hread]
      refine Res.loop_continue ?_ fuel
      simp [isBusy_busy]

/-- Reading the status `n` times, whatever it shows. -/
theorem readStatuses_spec (m : Machine) (n : Nat) :
    ∃ tr, Quiet tr ∧ (List.range n).foldl (fun s _ => ((ports B).in8 .status s).2) m =
      ⟨{ m.drive with busy := m.drive.busy.drop n }, m.trace ++ tr⟩ := by
  induction n with
  | zero => exact ⟨[], fun _ h => absurd h List.not_mem_nil, by simp⟩
  | succ n ih =>
    obtain ⟨tr, hquiet, hr⟩ := ih
    refine ⟨tr ++ [.in8 .status (Drive.readStatus { m.drive with busy := m.drive.busy.drop n }).1],
      hquiet.append (quiet_singleton fun _ _ _ => Access.noConfusion), ?_⟩
    rw [List.range_succ, List.foldl_append, hr, List.foldl_cons, List.foldl_nil]
    simp only [ports, readStatus_snd, List.drop_drop, List.append_assoc]

/-! ## Before the data -/

theorem ideSelectDrive_spec (drive : DriveNumber) (d : Drive) :
    ∃ tr, Quiet tr ∧ ideSelectDrive (ports B) drive ⟨d, []⟩ = .ok ⟨{ d with busy := d.busy.drop 4 },
      .out8 .driveOrHead ((0xA : UInt8) ||| drive.1 <<< 4) (decide d.isBusy) :: tr⟩ := by
  obtain ⟨tr, hquiet, hr⟩ := @readStatuses_spec B
    ((ports B).out8 .driveOrHead ((0xA : UInt8) ||| drive.1 <<< 4) ⟨d, []⟩) 4
  refine ⟨tr, hquiet, ?_⟩
  unfold ideSelectDrive
  rw [Res.assert_bind drive.2]
  exact congrArg Res.ok hr

/-- `ata_prepare_transfer` writes the registers of the drive, whether it is busy or not. -/
theorem ataPrepareTransfer_spec (drive : DriveNumber) (lba28 : Lba28) (m : Machine) :
    ∃ tr, ataPrepareTransfer (ports B) drive lba28 m = .ok ⟨m.drive, m.trace ++ tr⟩ ∧
      (m.drive.busy = [] → Clean tr) ∧ NoFlush tr := by
  refine ⟨[.out8 .driveOrHead ((0xA0 : UInt8) ||| drive.1 <<< 4 ||| ataDriveOrHeadLba |||
      ((lba28.1 >>> 24) &&& 0x0F).toUInt8) (decide m.drive.isBusy),
    .out8 .sectorCount 1 (decide m.drive.isBusy), .in8 .sectorCount 0,
    .out8 .lbaLowOrSectorNum (lba28.1 &&& 0xFF).toUInt8 (decide m.drive.isBusy),
    .out8 .lbaMidOrCylinderLow ((lba28.1 >>> 8) &&& 0xFF).toUInt8 (decide m.drive.isBusy),
    .out8 .lbaHighOrCylinderHigh ((lba28.1 >>> 16) &&& 0xFF).toUInt8 (decide m.drive.isBusy)], ?_, ?_, ?_⟩
  · unfold ataPrepareTransfer
    rw [Res.assert_bind drive.2, Res.assert_bind lba28.2]
    simp [ports, Drive.write]
  · intro hbusy
    simp [Clean, Access.violates, Port.guarded, Drive.isBusy, hbusy]
  · intro busy
    simp

/-- The phase after a command. -/
def transferPhase (command : UInt8) : Phase :=
  if command = ataCommandReadSectors then .dataIn 256 else if command = ataCommandWriteSectors then .dataOut 256 else .idle

/-- A call begins with four status reads, and writes registers whatever they show. -/
theorem startTransfer_spec {command : UInt8} (drive : DriveNumber) (lba28 : Lba28) (d : Drive)
    (hcommand : command = ataCommandReadSectors ∨ command = ataCommandWriteSectors) :
    ∃ tr, (∀ fuel, (B.busy d.events).length < fuel → ataStartTransfer (ports B) fuel drive lba28 command ⟨d, []⟩ =
        .ok (readyStatus, ⟨⟨[], transferPhase command, d.events + 1⟩, tr⟩)) ∧
      (Clean tr ↔ d.busy.length ≤ 4) ∧ NoFlush tr := by
  have hphase : transferPhase command ≠ .idle := by rcases hcommand with rfl | rfl <;> decide
  have hflush : command ≠ ataCommandCacheFlush := by rcases hcommand with rfl | rfl <;> decide
  obtain ⟨tr₁, hquiet₁, hselect⟩ := @ideSelectDrive_spec B drive d
  obtain ⟨tr₂, hprepare, hclean₂, hno₂⟩ := @ataPrepareTransfer_spec B drive lba28
    ⟨{ d with busy := d.busy.drop 4 }, .out8 .driveOrHead ((0xA : UInt8) ||| drive.1 <<< 4) (decide d.isBusy) :: tr₁⟩
  let m₃ : Machine := (ports B).out8 .command command
    ⟨{ d with busy := d.busy.drop 4 },
      (.out8 .driveOrHead ((0xA : UInt8) ||| drive.1 <<< 4) (decide d.isBusy) :: tr₁) ++ tr₂⟩
  have hdrive : m₃.drive = ⟨B.busy d.events, transferPhase command, d.events + 1⟩ := rfl
  obtain ⟨tr₄, hquiet₄, hpoll⟩ := @pollBusy_spec B m₃ _ rfl (by rw [hdrive]; exact hphase)
  -- What the drive is when the registers are written.
  have hbusy : d.busy.drop 4 = [] ↔ d.busy.length ≤ 4 := List.drop_eq_nil_iff
  refine ⟨m₃.trace ++ tr₄, fun fuel hfuel => ?_, ?_, ?_⟩
  · obtain ⟨fuel, rfl⟩ := Nat.exists_eq_add_one_of_ne_zero (Nat.ne_zero_of_lt hfuel)
    have hready : pollStatus (ports B) (fun status => status &&& ataStatusDrq = 0 && !isFault status) (fuel + 1)
        readyStatus ⟨{ m₃.drive with busy := [] }, m₃.trace ++ tr₄⟩ =
        .ok (readyStatus, ⟨{ m₃.drive with busy := [] }, m₃.trace ++ tr₄⟩) := by
      have hleave : (decide (readyStatus &&& ataStatusDrq = 0) && !isFault readyStatus) = false := by decide
      refine Res.loop_leave ?_ fuel
      simp only [hleave]
      rfl
    have hfault : isFault readyStatus = false := by decide
    unfold ataStartTransfer
    rw [hselect, Res.ok_bind, hprepare, Res.ok_bind]
    show (pollStatus (ports B) isBusy (fuel + 1) ((ports B).in8 .status m₃).1 ((ports B).in8 .status m₃).2 >>= _) = _
    rw [hpoll _ hfuel, Res.ok_bind]
    show (pollStatus (ports B) _ (fuel + 1) readyStatus _ >>= _) = _
    rw [hready, Res.ok_bind]
    simp only [hfault]
    rfl
  · have hselected : Clean (.out8 .driveOrHead ((0xA : UInt8) ||| drive.1 <<< 4) (decide d.isBusy) :: tr₁) :=
      List.forall_mem_cons.mpr ⟨rfl, hquiet₁.clean⟩
    have hwritten : Clean [.out8 .command command (decide (d.busy.drop 4 ≠ []))] ↔ d.busy.length ≤ 4 := by
      rw [← hbusy]
      simp [Clean, Access.violates, Port.guarded]
    show Clean (_ ++ tr₂ ++ [.out8 .command command (decide (d.busy.drop 4 ≠ []))] ++ tr₄) ↔ _
    rw [Clean.append, Clean.append, Clean.append, hwritten]
    constructor
    · rintro ⟨⟨-, h⟩, -⟩
      exact h
    · intro h
      exact ⟨⟨⟨hselected, hclean₂ (hbusy.mpr h)⟩, h⟩, hquiet₄.clean⟩
  · have hselected : NoFlush (.out8 .driveOrHead ((0xA : UInt8) ||| drive.1 <<< 4) (decide d.isBusy) :: tr₁) := by
      intro busy hmem
      rcases List.mem_cons.mp hmem with h | h
      · cases h
      · exact hquiet₁.noFlush busy h
    have hwritten : NoFlush [.out8 .command command (decide (d.busy.drop 4 ≠ []))] := by
      intro busy hmem
      rw [List.mem_singleton] at hmem
      cases hmem
      exact hflush rfl
    exact ((hselected.append hno₂).append hwritten).append hquiet₄.noFlush

/-! ## The data -/

/-- Reading all words of the phase ends it. -/
theorem readWords_spec (l : List Nat) (buffer : List UInt16) (hphase : m.drive.phase = .dataIn (l.length + 1)) (j : Nat) :
    ∃ tr buffer', Quiet tr ∧ (l ++ [j]).foldl (fun p _ => readWord (ports B) p) (buffer, m) =
      (buffer', ⟨m.drive.event B .idle, m.trace ++ tr⟩) := by
  induction l generalizing m buffer with
  | nil =>
    refine ⟨[.in16 (B.word m.drive.events 0)], buffer ++ [B.word m.drive.events 0],
      quiet_singleton fun _ _ _ => Access.noConfusion, ?_⟩
    simp only [List.nil_append, List.foldl_cons, List.foldl_nil, readWord, ports, Drive.readWord, hphase]
    rfl
  | cons i l ih =>
    obtain ⟨tr, buffer', hquiet, hr⟩ := @ih
      ⟨{ m.drive with phase := .dataIn (l.length + 1) }, m.trace ++ [.in16 (B.word m.drive.events (l.length + 1))]⟩
      (buffer ++ [B.word m.drive.events (l.length + 1)]) rfl
    refine ⟨.in16 (B.word m.drive.events (l.length + 1)) :: tr, buffer',
      (quiet_singleton fun _ _ _ => Access.noConfusion).append hquiet, ?_⟩
    have hword : m.drive.readWord B =
        (B.word m.drive.events (l.length + 1), { m.drive with phase := .dataIn (l.length + 1) }) := by
      simp only [Drive.readWord, hphase, List.length_cons]
      rw [if_neg (Nat.succ_ne_zero _)]
    rw [List.append_cons m.trace, List.cons_append, List.foldl_cons]
    simp only [readWord, ports, hword]
    exact hr

/-- Writing all words of the phase ends it. -/
theorem writeWords_spec (buffer : Nat → UInt16) (l : List Nat) (hphase : m.drive.phase = .dataOut (l.length + 1))
    (j : Nat) :
    ∃ tr, Quiet tr ∧ (l ++ [j]).foldl (fun s i => (ports B).out16 .data (buffer i) s) m =
      ⟨m.drive.event B .idle, m.trace ++ tr⟩ := by
  induction l generalizing m with
  | nil =>
    refine ⟨[.out16 (buffer j)], quiet_singleton fun _ _ _ => Access.noConfusion, ?_⟩
    simp only [List.nil_append, List.foldl_cons, List.foldl_nil, ports, Drive.writeWord, hphase]
    rfl
  | cons i l ih =>
    obtain ⟨tr, hquiet, hr⟩ := @ih
      ⟨{ m.drive with phase := .dataOut (l.length + 1) }, m.trace ++ [.out16 (buffer i)]⟩ rfl
    refine ⟨.out16 (buffer i) :: tr, (quiet_singleton fun _ _ _ => Access.noConfusion).append hquiet, ?_⟩
    have hword : m.drive.writeWord B = { m.drive with phase := .dataOut (l.length + 1) } := by
      simp only [Drive.writeWord, hphase, List.length_cons]
      rw [if_neg (Nat.succ_ne_zero _)]
    rw [List.append_cons m.trace, List.cons_append, List.foldl_cons]
    simp only [ports, hword]
    exact hr

/-! ## Calls -/

/-- `ata_read_sector` leaves the drive as the data phase leaves it. -/
theorem readSector_spec (drive : DriveNumber) (lba28 : Lba28) (d : Drive) :
    ∃ m, (∀ fuel, (B.busy d.events).length < fuel → (AtaCall.readSector lba28).run B fuel drive d = .ok m) ∧
      m.drive = ⟨B.busy (d.events + 1), .idle, d.events + 2⟩ ∧ (Clean m.trace ↔ d.busy.length ≤ 4) := by
  obtain ⟨tr, hstart, hclean, -⟩ := @startTransfer_spec B _ drive lba28 d (.inl rfl)
  obtain ⟨tr', buffer, hquiet, hdata⟩ := @readWords_spec B ⟨⟨[], .dataIn 256, d.events + 1⟩, tr⟩ (List.range 255) []
    (by rw [List.length_range]) 255
  refine ⟨⟨⟨B.busy (d.events + 1), .idle, d.events + 2⟩, tr ++ tr'⟩, fun fuel hfuel => ?_, rfl, ?_⟩
  · show (ataReadSector (ports B) fuel drive lba28 ⟨d, []⟩ >>= fun p => Res.ok p.2) = _
    unfold ataReadSector
    rw [hstart _ hfuel, Res.ok_bind, show List.range 256 = List.range 255 ++ [255] from List.range_succ]
    rw [show transferPhase ataCommandReadSectors = .dataIn 256 by decide]
    exact congrArg (fun p => Res.ok p.2) hdata
  · rw [Clean.append, hclean]
    exact and_iff_left hquiet.clean

/-- `ata_write_sector` writes the CACHE FLUSH command right behind the data, and reads no status after it. -/
theorem writeSector_spec (drive : DriveNumber) (lba28 : Lba28) (buffer : Nat → UInt16) (d : Drive) :
    ∃ m, (∀ fuel, (B.busy d.events).length < fuel → (AtaCall.writeSector lba28 buffer).run B fuel drive d = .ok m) ∧
      m.drive = ⟨B.busy (d.events + 2), .idle, d.events + 3⟩ ∧ ¬ AwaitsFlush m.trace := by
  obtain ⟨tr, hstart, -, hno⟩ := @startTransfer_spec B _ drive lba28 d (.inr rfl)
  obtain ⟨tr', hquiet, hdata⟩ := @writeWords_spec B ⟨⟨[], .dataOut 256, d.events + 1⟩, tr⟩ buffer (List.range 255)
    (by rw [List.length_range]) 255
  let m : Machine := (ports B).out8 .command ataCommandCacheFlush
    ⟨⟨B.busy (d.events + 1), .idle, d.events + 2⟩, tr ++ tr'⟩
  refine ⟨m, fun fuel hfuel => ?_, rfl, ?_⟩
  · obtain ⟨fuel, rfl⟩ := Nat.exists_eq_add_one_of_ne_zero (Nat.ne_zero_of_lt hfuel)
    -- The status is still the one from before the data.
    have hpoll : pollStatus (ports B) isBusy (fuel + 1) readyStatus m = .ok (readyStatus, m) := by
      have hleave : isBusy readyStatus = false := by decide
      refine Res.loop_leave ?_ fuel
      simp only [hleave]
      rfl
    show ataWriteSector (ports B) (fuel + 1) drive lba28 buffer ⟨d, []⟩ = _
    unfold ataWriteSector
    rw [hstart _ hfuel, Res.ok_bind, show List.range 256 = List.range 255 ++ [255] from List.range_succ]
    rw [show transferPhase ataCommandWriteSectors = .dataOut 256 by decide]
    simp only [hdata]
    show (pollStatus (ports B) isBusy (fuel + 1) readyStatus m >>= _) = _
    rw [hpoll]
    rfl
  · rintro ⟨busy, v, -, hsub⟩
    obtain ⟨l₁, l₂, hl, hsub₁, hsub₂⟩ := List.sublist_append_iff.mp hsub
    have hlast : l₂.length ≤ 1 := hsub₂.length_le
    cases l₁ with
    | nil =>
      rw [List.nil_append] at hl
      rw [← hl] at hlast
      exact absurd hlast (by simp)
    | cons a l₁ =>
      obtain ⟨rfl, -⟩ := List.cons.inj hl
      exact (hno.append hquiet.noFlush) busy (hsub₁.subset List.mem_cons_self)

/-! ## Runs -/

/-- The calls return, no register is written while the drive is busy, and each
`ata_write_sector` waits for its CACHE FLUSH. -/
def Disciplined (B : Behaviour) (drive : DriveNumber) (calls : List AtaCall) (d : Drive) : Prop :=
  ∃ traces n, (∀ fuel, n ≤ fuel → runCalls B fuel drive calls d = .ok traces) ∧
    ∀ t ∈ traces, Clean t.2 ∧ (t.1.isWrite = true → AwaitsFlush t.2)

/-- When the discipline is kept: there is no write, the first call meets a drive
that is busy for at most four status reads, and so does each call after a read. -/
def QuickReads (B : Behaviour) (calls : List AtaCall) (d : Drive) : Prop :=
  (∀ c ∈ calls, c.isWrite = false) ∧ (calls ≠ [] → d.busy.length ≤ 4) ∧
    ∀ k, k + 1 < calls.length → (B.busy (d.events + 2 * k + 1)).length ≤ 4

theorem quickReads_cons {c : AtaCall} {calls : List AtaCall} {d : Drive} (hc : c.isWrite = false) :
    QuickReads B (c :: calls) d ↔
      d.busy.length ≤ 4 ∧ QuickReads B calls ⟨B.busy (d.events + 1), .idle, d.events + 2⟩ := by
  unfold QuickReads
  rw [List.forall_mem_cons]
  constructor
  · rintro ⟨⟨-, hcalls⟩, hfirst, hnext⟩
    refine ⟨hfirst (List.cons_ne_nil _ _), hcalls, fun hne => ?_, fun k hk => ?_⟩
    · exact hnext 0 (Nat.succ_lt_succ (List.length_pos_iff.mpr hne))
    · have := hnext (k + 1) (Nat.succ_lt_succ hk)
      rwa [show d.events + 2 * (k + 1) + 1 = d.events + 2 + 2 * k + 1 by omega] at this
  · rintro ⟨hfirst, hcalls, hsecond, hnext⟩
    refine ⟨⟨hc, hcalls⟩, fun _ => hfirst, fun k hk => ?_⟩
    cases k with
    | zero => exact hsecond (List.length_pos_iff.mp (Nat.lt_of_succ_lt_succ hk))
    | succ k =>
      have := hnext k (Nat.lt_of_succ_lt_succ hk)
      rwa [show d.events + 2 + 2 * k + 1 = d.events + 2 * (k + 1) + 1 by omega] at this

/-- The calls return, and the traces are as `QuickReads` says. -/
theorem runCalls_spec (B : Behaviour) (drive : DriveNumber) (calls : List AtaCall) (d : Drive) :
    ∃ traces n, (∀ fuel, n ≤ fuel → runCalls B fuel drive calls d = .ok traces) ∧
      ((∀ t ∈ traces, Clean t.2 ∧ (t.1.isWrite = true → AwaitsFlush t.2)) ↔ QuickReads B calls d) := by
  induction calls generalizing d with
  | nil => exact ⟨[], 0, fun _ _ => rfl, by simp [QuickReads]⟩
  | cons c calls ih =>
    cases c with
    | readSector lba28 =>
      obtain ⟨m, hcall, hdrive, hclean⟩ := @readSector_spec B drive lba28 d
      obtain ⟨traces, n, hrun, hiff⟩ := ih m.drive
      refine ⟨(.readSector lba28, m.trace) :: traces, max n ((B.busy d.events).length + 1), fun fuel hfuel => ?_, ?_⟩
      · unfold runCalls
        rw [hcall fuel (by omega), Res.ok_bind, hrun fuel (by omega), Res.ok_bind]
      · rw [List.forall_mem_cons, hiff, hdrive, quickReads_cons rfl, hclean]
        exact and_congr_left fun _ => and_iff_left fun h => absurd h Bool.false_ne_true
    | writeSector lba28 buffer =>
      obtain ⟨m, hcall, hdrive, hflush⟩ := @writeSector_spec B drive lba28 buffer d
      obtain ⟨traces, n, hrun, -⟩ := ih m.drive
      refine ⟨(.writeSector lba28 buffer, m.trace) :: traces, max n ((B.busy d.events).length + 1), fun fuel hfuel => ?_, ?_⟩
      · unfold runCalls
        rw [hcall fuel (by omega), Res.ok_bind, hrun fuel (by omega), Res.ok_bind]
      · constructor
        · intro h
          exact absurd ((h _ List.mem_cons_self).2 rfl) hflush
        · rintro ⟨hreads, -⟩
          exact absurd (hreads _ List.mem_cons_self).symm Bool.false_ne_true

/-- The discipline is kept from an idle drive if and only if there is no write,
and the drive is busy for at most four status reads after the data of each read
that another call follows. -/
theorem disciplined_iff (B : Behaviour) (drive : DriveNumber) (calls : List AtaCall) :
    Disciplined B drive calls .idle ↔ (∀ c ∈ calls, c.isWrite = false) ∧
      ∀ k, k + 1 < calls.length → (B.busy (2 * k + 1)).length ≤ 4 := by
  obtain ⟨traces, n, hrun, hiff⟩ := runCalls_spec B drive calls .idle
  have hquick : QuickReads B calls .idle ↔ (∀ c ∈ calls, c.isWrite = false) ∧
      ∀ k, k + 1 < calls.length → (B.busy (2 * k + 1)).length ≤ 4 := by
    have h0 : ∀ k, Drive.idle.events + 2 * k + 1 = 2 * k + 1 := fun k => by rw [Drive.idle, Nat.zero_add]
    simp only [QuickReads, h0]
    exact and_congr_right fun _ => and_iff_right fun _ => Nat.zero_le 4
  rw [← hquick, ← hiff]
  constructor
  · rintro ⟨traces', n', hrun', h⟩
    have heq := (hrun (max n n') (Nat.le_max_left ..)).symm.trans (hrun' (max n n') (Nat.le_max_right ..))
    rw [Res.ok.injEq] at heq
    rwa [heq]
  · intro h
    exact ⟨traces, n, hrun, h⟩

/-- One sector written, whatever the drive does. -/
theorem discipline_fails :
    ¬ ∀ (B : Behaviour) (drive : DriveNumber) (calls : List AtaCall), Disciplined B drive calls .idle := by
  intro h
  have hwrite := ((disciplined_iff ⟨fun _ => [], fun _ _ => 0⟩ ⟨0, .inl rfl⟩
    [.writeSector ⟨0, by decide⟩ fun _ => 0]).mp (h _ _ _)).1
  exact absurd (hwrite _ List.mem_cons_self) (by decide)

end OSForReal.Proof.Ata
