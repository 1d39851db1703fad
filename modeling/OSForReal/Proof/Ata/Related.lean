import OSForReal.Framework.Related
import OSForReal.Hal.Ide

/-!
# The driver over related ports

What the driver does depends on its ports only. So on two sets of ports that
act alike on related states (`PortsRelated`), its functions return the same, in
related states.
-/

namespace OSForReal.Proof.Ata

open Framework (Res)
open Framework.Res (Related)

variable {σ τ : Type} {P : Ports σ} {Q : Ports τ} {R : σ → τ → Prop} {heads commands : UInt8 → Prop} {s : σ} {t : τ} {fuel : Nat}
  {drive : UInt8} {lba28 : UInt32}

/-- The same value, in related states. -/
def Same {α : Type} (R : σ → τ → Prop) (x : α × σ) (y : α × τ) : Prop := x.1 = y.1 ∧ R x.2 y.2

theorem Same.exists_eq {α : Type} {x : α × σ} {y : α × τ} (h : Same R x y) : ∃ a s t, x = (a, s) ∧ y = (a, t) ∧ R s t :=
  ⟨x.1, x.2, y.2, rfl, Prod.ext h.1.symm rfl, h.2⟩

theorem Same.bind {α γ δ : Type} {S : γ → δ → Prop} {x : Res (α × σ)} {y : Res (α × τ)} {f : α × σ → Res γ}
    {g : α × τ → Res δ} (h : Related (Same R) x y) (hfg : ∀ a s t, R s t → Related S (f (a, s)) (g (a, t))) :
    Related S (x >>= f) (y >>= g) :=
  h.bind fun x y hxy => by
    obtain ⟨a, s, t, rfl, rfl, hR⟩ := hxy.exists_eq
    exact hfg a s t hR

/-- The ports act alike; of the drive and head register and the command register only these values are written. -/
structure PortsRelated (P : Ports σ) (Q : Ports τ) (R : σ → τ → Prop) (heads commands : UInt8 → Prop) : Prop where
  in8 : ∀ p s t, p ≠ .command → R s t → Same R (P.in8 p s) (Q.in8 p t)
  head : ∀ v s t, heads v → R s t → R (P.out8 .driveOrHead v s) (Q.out8 .driveOrHead v t)
  command : ∀ v s t, commands v → R s t → R (P.out8 .command v s) (Q.out8 .command v t)
  out8 : ∀ p v s t, p ≠ .status ∧ p ≠ .driveOrHead ∧ p ≠ .command → R s t → R (P.out8 p v s) (Q.out8 p v t)
  in16 : ∀ s t, R s t → Same R (P.in16 .data s) (Q.in16 .data t)
  out16 : ∀ v s t, R s t → R (P.out16 .data v s) (Q.out16 .data v t)

/-- Ports that act like ones that act like others. -/
theorem PortsRelated.comp {υ : Type} {O : Ports υ} {S : τ → υ → Prop} {heads' commands' : UInt8 → Prop}
    (h : PortsRelated P Q R (fun _ => True) fun _ => True) (h' : PortsRelated Q O S heads' commands') :
    PortsRelated P O (fun s u => ∃ t, R s t ∧ S t u) heads' commands' where
  in8 p s u hp hR := by
    obtain ⟨t, hR, hS⟩ := hR
    obtain ⟨hvalue, hstate⟩ := h.in8 p s t hp hR
    obtain ⟨hvalue', hstate'⟩ := h'.in8 p t u hp hS
    exact ⟨hvalue.trans hvalue', _, hstate, hstate'⟩
  head v s u hv hR := by
    obtain ⟨t, hR, hS⟩ := hR
    exact ⟨_, h.head v s t trivial hR, h'.head v t u hv hS⟩
  command v s u hv hR := by
    obtain ⟨t, hR, hS⟩ := hR
    exact ⟨_, h.command v s t trivial hR, h'.command v t u hv hS⟩
  out8 p v s u hp hR := by
    obtain ⟨t, hR, hS⟩ := hR
    exact ⟨_, h.out8 p v s t hp hR, h'.out8 p v t u hp hS⟩
  in16 s u hR := by
    obtain ⟨t, hR, hS⟩ := hR
    obtain ⟨hvalue, hstate⟩ := h.in16 s t hR
    obtain ⟨hvalue', hstate'⟩ := h'.in16 t u hS
    exact ⟨hvalue.trans hvalue', _, hstate, hstate'⟩
  out16 v s u hR := by
    obtain ⟨t, hR, hS⟩ := hR
    exact ⟨_, h.out16 v s t hR, h'.out16 v t u hS⟩

/-- What `ide_select_drive` writes. -/
def selectHead (drive : UInt8) : UInt8 := (0xA : UInt8) ||| drive <<< 4

/-- What `ata_prepare_transfer` writes. -/
def transferHead (drive : UInt8) (lba28 : UInt32) : UInt8 :=
  (0xA0 : UInt8) ||| drive <<< 4 ||| ataDriveOrHeadLba ||| ((lba28 >>> 24) &&& 0x0F).toUInt8

variable (h : PortsRelated P Q R heads commands)

include h

theorem pollStatus_related (again : UInt8 → Bool) (fuel : Nat) (status : UInt8) (hR : R s t) :
    Related (Same R) (pollStatus P again fuel status s) (pollStatus Q again fuel status t) := by
  refine Related.loop (R := Same R) ⟨rfl, hR⟩ (fun a b hab => ?_) fuel
  obtain ⟨status, s, t, rfl, rfl, hR⟩ := hab.exists_eq
  show Related _ (Res.ok (if again status = true then _ else _)) (Res.ok (if again status = true then _ else _))
  by_cases hagain : again status = true
  · rw [if_pos hagain, if_pos hagain]
    exact .ok (.inl (h.in8 .status s t (by decide) hR))
  · rw [if_neg hagain, if_neg hagain]
    exact .ok (.inr ⟨rfl, hR⟩)

/-- The drive is selected before the states are related. -/
theorem ideSelectDrive_related (drive : UInt8)
    (hR : R (P.out8 .driveOrHead (selectHead drive) s) (Q.out8 .driveOrHead (selectHead drive) t)) :
    Related R (ideSelectDrive P drive s) (ideSelectDrive Q drive t) :=
  .assert fun _ => .ok (List.foldl_rel hR fun _ _ s t hst => (h.in8 .status s t (by decide) hst).2)

theorem ataPrepareTransfer_related (hhead : heads (transferHead drive lba28)) (hR : R s t) :
    Related R (ataPrepareTransfer P drive lba28 s) (ataPrepareTransfer Q drive lba28 t) := by
  refine .assert fun _ => .assert fun _ => .ok ?_
  have h₁ := h.head (transferHead drive lba28) s t hhead hR
  have h₂ := h.out8 .sectorCount 1 _ _ (by decide) h₁
  have h₃ := (h.in8 .sectorCount _ _ (by decide) h₂).2
  have h₄ := h.out8 .lbaLowOrSectorNum (lba28 &&& 0xFF).toUInt8 _ _ (by decide) h₃
  have h₅ := h.out8 .lbaMidOrCylinderLow ((lba28 >>> 8) &&& 0xFF).toUInt8 _ _ (by decide) h₄
  exact h.out8 .lbaHighOrCylinderHigh ((lba28 >>> 16) &&& 0xFF).toUInt8 _ _ (by decide) h₅

theorem ataStartTransfer_related (fuel : Nat) {command : UInt8} (hcommand : commands command)
    (hhead : heads (transferHead drive lba28))
    (hR : R (P.out8 .driveOrHead (selectHead drive) s) (Q.out8 .driveOrHead (selectHead drive) t)) :
    Related (Same R) (ataStartTransfer P fuel drive lba28 command s) (ataStartTransfer Q fuel drive lba28 command t) := by
  refine (ideSelectDrive_related h drive hR).bind fun s₁ t₁ h₁ => ?_
  refine (ataPrepareTransfer_related h hhead h₁).bind fun s₂ t₂ h₂ => ?_
  have h₃ := h.command command _ _ hcommand h₂
  obtain ⟨status, s₄, t₄, hs, ht, h₄⟩ := (h.in8 .status _ _ (by decide) h₃).exists_eq
  simp only [hs, ht]
  refine Same.bind (pollStatus_related h isBusy fuel status h₄) fun status s₅ t₅ h₅ => ?_
  refine Same.bind (pollStatus_related h _ fuel status h₅) fun status s₆ t₆ h₆ => ?_
  refine .assert fun hfault => .ok ⟨rfl, ?_⟩
  rw [hfault]
  exact h₆

theorem readWords_related (hR : R s t) : Same R ((List.range 256).foldl (fun p _ => readWord P p) ([], s))
    ((List.range 256).foldl (fun p _ => readWord Q p) ([], t)) := by
  refine List.foldl_rel (r := Same R) ⟨rfl, hR⟩ fun _ _ x y hxy => ?_
  obtain ⟨hword, hR'⟩ := h.in16 x.2 y.2 hxy.2
  refine ⟨?_, hR'⟩
  show x.1 ++ [(P.in16 .data x.2).1] = y.1 ++ [(Q.in16 .data y.2).1]
  rw [hxy.1, hword]

theorem ataReadSector_related (fuel : Nat) (hcommand : commands ataCommandReadSectors)
    (hhead : heads (transferHead drive lba28))
    (hR : R (P.out8 .driveOrHead (selectHead drive) s) (Q.out8 .driveOrHead (selectHead drive) t)) :
    Related (Same R) (ataReadSector P fuel drive lba28 s) (ataReadSector Q fuel drive lba28 t) :=
  Same.bind (ataStartTransfer_related h fuel hcommand hhead hR) fun _ _ _ h₁ => .ok (readWords_related h h₁)

theorem ataWriteSector_related (fuel : Nat) (buffer : Nat → UInt16) (hcommand : commands ataCommandWriteSectors)
    (hflush : commands ataCommandCacheFlush) (hhead : heads (transferHead drive lba28))
    (hR : R (P.out8 .driveOrHead (selectHead drive) s) (Q.out8 .driveOrHead (selectHead drive) t)) :
    Related R (ataWriteSector P fuel drive lba28 buffer s) (ataWriteSector Q fuel drive lba28 buffer t) := by
  refine Same.bind (ataStartTransfer_related h fuel hcommand hhead hR) fun status s₁ t₁ h₁ => ?_
  have hdata : R ((List.range 256).foldl (fun s i => P.out16 .data (buffer i) s) s₁)
      ((List.range 256).foldl (fun t i => Q.out16 .data (buffer i) t) t₁) :=
    List.foldl_rel h₁ fun i _ s t hst => h.out16 (buffer i) s t hst
  have h₂ := h.command ataCommandCacheFlush _ _ hflush hdata
  exact Same.bind (pollStatus_related h isBusy fuel status h₂) fun _ _ _ h₃ => .ok h₃

theorem readAnswer_related (fuel : Nat) (status : UInt8) (hR : R s t) :
    Related (Same R) (readAnswer P fuel status s) (readAnswer Q fuel status t) := by
  unfold readAnswer
  by_cases hzero : status = 0
  · rw [if_pos hzero, if_pos hzero]
    exact .ok ⟨rfl, hR⟩
  · rw [if_neg hzero, if_neg hzero]
    refine Same.bind (pollStatus_related h isBusy fuel status hR) fun status s₁ t₁ h₁ => ?_
    refine Same.bind (pollStatus_related h _ fuel status h₁) fun status s₂ t₂ h₂ => ?_
    by_cases herror : status &&& ataStatusError ≠ 0
    · simp only [if_pos herror]
      exact .ok ⟨rfl, h₂⟩
    · simp only [if_neg herror]
      obtain ⟨hdata, h₃⟩ := readWords_related h h₂
      exact .ok ⟨congrArg IdeAnswer.identified hdata, h₃⟩

theorem identifyCommand_related (hcommand : commands ataCommandIdentify) (hR : R s t) :
    R (identifyCommand P s) (identifyCommand Q t) := by
  have h₁ := h.out8 .sectorCount 0 _ _ (by decide) hR
  have h₂ := h.out8 .lbaLowOrSectorNum 0 _ _ (by decide) h₁
  have h₃ := h.out8 .lbaMidOrCylinderLow 0 _ _ (by decide) h₂
  have h₄ := h.out8 .lbaHighOrCylinderHigh 0 _ _ (by decide) h₃
  exact h.command ataCommandIdentify _ _ hcommand h₄

theorem askDrive_related {f : σ → σ} {g : τ → τ} (fuel : Nat) (hcommand : commands ataCommandIdentify)
    (hfg : ∀ s t, R s t → R (f s) (g t))
    (hR : R (P.out8 .driveOrHead (selectHead drive) s) (Q.out8 .driveOrHead (selectHead drive) t)) :
    Related (Same R) (askDrive P f fuel drive s) (askDrive Q g fuel drive t) := by
  refine (ideSelectDrive_related h drive hR).bind fun s₁ t₁ h₁ => ?_
  obtain ⟨status, s₂, t₂, hs, ht, h₂⟩ := (h.in8 .status _ _ (by decide) (hfg s₁ t₁ h₁)).exists_eq
  simp only [hs, ht]
  exact Same.bind (pollStatus_related h isBusy fuel status h₂) fun status s₃ t₃ h₃ =>
    readAnswer_related h fuel status (identifyCommand_related h hcommand h₃)

end OSForReal.Proof.Ata
