import OSForReal.TagFS.Flags

/-!
# The values of int flags

What `strtol` makes of a text (`strtol_numeral`, `numeral_of_rest`) decides which
values `flags_parse_flag` takes for an int flag, and what it stores (`Takes`). It
takes the empty text for 0, and narrows a value of more than 32 bits; every
other text is taken exactly when it is an integer of 32 bits (`meansInt_iff`).
-/

namespace OSForReal.Proof.TagFS

open Framework
open Framework.Decimal
open OSForReal.TagFS

variable {flag : Flag} {arg : CStr} {s : List UInt8} {errno old n v : Int}

/-! ## `strtol` -/

/-- `v` is a value of an `int`. -/
def Fits32 (v : Int) : Prop := -2 ^ 31 ≤ v ∧ v < 2 ^ 31

/-- `v` is a value of a `long`. -/
def Fits64 (v : Int) : Prop := -2 ^ 63 ≤ v ∧ v < 2 ^ 63

theorem Fits32.fits64 (h : Fits32 v) : Fits64 v := by
  unfold Fits32 at h
  unfold Fits64
  omega

theorem Fits32.narrow (h : Fits32 v) : Int.bmod v (2 ^ 32) = v := by
  unfold Fits32 at h
  exact Int.bmod_eq_of_le (by omega) (by omega)

/-- A numeral of 64 bits is read as it stands. -/
theorem strtol_numeral (h : Numeral s v) (hv : Fits64 v) : strtol s = ⟨v, [], false⟩ := by
  unfold Fits64 at hv
  simp only [strtol, h.read]
  rw [if_neg (by omega), if_neg (by omega)]

/-- One that does not fit is out of range. -/
theorem strtol_range (h : Numeral s v) (hv : ¬ Fits64 v) : (strtol s).range = true := by
  unfold Fits64 at hv
  simp only [strtol, h.read]
  split
  · rfl
  · rw [if_pos (by omega)]

/-- What `strtol` reads to the end is a numeral, or is empty. -/
theorem numeral_of_rest (h : (strtol s).rest = []) : s = [] ∨ ∃ v, Numeral s v := by
  simp only [strtol] at h
  split at h
  · exact .inl h
  · rename_i v rest hread
    right
    have hrest : rest = [] := by
      split at h
      · exact h
      · split at h <;> exact h
    rw [hrest] at hread
    exact ⟨v, readNumber_eq_some_iff.mp hread⟩

/-! ## `flags_parse_flag` -/

/-- The value that an int flag takes from a text. -/
def Takes (s : List UInt8) (n : Int) : Prop :=
  s = [] ∧ n = 0 ∨ ∃ v, Numeral s v ∧ Fits64 v ∧ n = Int.bmod v (2 ^ 32)

theorem Takes.strtol (h : Takes s n) : ∃ v, strtol s = ⟨v, [], false⟩ ∧ n = Int.bmod v (2 ^ 32) := by
  obtain ⟨rfl, rfl⟩ | ⟨v, hnumeral, hv, rfl⟩ := h
  · exact ⟨0, rfl, rfl⟩
  · exact ⟨v, strtol_numeral hnumeral hv, rfl⟩

theorem Takes.unique (h : Takes s n) (h' : Takes s v) : n = v := by
  obtain ⟨a, ha, rfl⟩ := h.strtol
  obtain ⟨b, hb, rfl⟩ := h'.strtol
  rw [ha] at hb
  rw [(Strtol.mk.inj hb).1]

/-- An int flag is given a value that it takes. -/
theorem flagsParseFlag_takes (hint : flag.target = .int old) (h : Takes arg.chars n) :
    flagsParseFlag flag (some arg) 0 = .ok (none, { flag with provided := true, target := .int n }, 0) := by
  obtain ⟨v, hread, rfl⟩ := h.strtol
  simp [flagsParseFlag, hint, hread, erange]

/-- Any other text is refused, and the value stays. -/
theorem flagsParseFlag_refuses (hint : flag.target = .int old) (h : ∀ n, ¬ Takes arg.chars n) :
    ∃ error errno, flagsParseFlag flag (some arg) 0 = .ok (some error, { flag with provided := true }, errno) := by
  by_cases hrange : (strtol arg.chars).range = true
  · exact ⟨.outOfRange flag.option arg, erange, by simp [flagsParseFlag, hint, hrange]⟩
  · have hrest : (strtol arg.chars).rest ≠ [] := by
      intro hrest
      rcases numeral_of_rest hrest with hempty | ⟨v, hv⟩
      · exact h 0 (.inl ⟨hempty, rfl⟩)
      · by_cases hfits : Fits64 v
        · exact h _ (.inr ⟨v, hv, hfits, rfl⟩)
        · exact hrange (strtol_range hv hfits)
    exact ⟨.notAnInteger flag.option arg, 0, by simp [flagsParseFlag, hint, hrange, hrest, erange]⟩

/-! ## What a text means -/

/-- The text is an integer of 32 bits. -/
def IsInt (s : List UInt8) (v : Int) : Prop := Numeral s v ∧ Fits32 v

theorem IsInt.takes (h : IsInt s v) : Takes s v := .inr ⟨v, h.1, h.2.fits64, h.2.narrow.symm⟩

/-- Every int flag takes the text if and only if it is an integer of 32 bits, and then has that value. -/
def MeansInt (arg : CStr) : Prop :=
  ∀ flag old, flag.target = .int old → ∃ error flag' errno, flagsParseFlag flag (some arg) 0 = .ok (error, flag', errno) ∧
    (error = none ↔ ∃ v, IsInt arg.chars v) ∧ (error = none → ∃ v, Numeral arg.chars v ∧ flag'.target = .int v)

/-- The text is not empty, and if it is an integer of 64 bits, it is one of 32. -/
def PlainInt (s : List UInt8) : Prop := s ≠ [] ∧ ∀ v, Numeral s v → Fits64 v → Fits32 v

/-- What a flag takes from such a text is what the text says. -/
theorem PlainInt.isInt (h : PlainInt s) (htakes : Takes s n) : IsInt s n := by
  obtain ⟨hempty, -⟩ | ⟨v, hnumeral, hfits, rfl⟩ := htakes
  · exact absurd hempty h.1
  · have hv := h.2 v hnumeral hfits
    rw [hv.narrow]
    exact ⟨hnumeral, hv⟩

/-- If each text that is taken is an integer of 32 bits, the text is plain. -/
theorem plainInt_of_isInt (h : ∀ n, Takes s n → ∃ v, IsInt s v) : PlainInt s := by
  constructor
  · rintro rfl
    obtain ⟨v, hv⟩ := h 0 (.inl ⟨rfl, rfl⟩)
    exact not_numeral_nil hv.1
  · intro v hnumeral hfits
    obtain ⟨w, hw⟩ := h _ (.inr ⟨v, hnumeral, hfits, rfl⟩)
    rw [hnumeral.unique hw.1]
    exact hw.2

theorem plainInt_of_meansInt (h : MeansInt arg) : PlainInt arg.chars := by
  refine plainInt_of_isInt fun n htakes => ?_
  obtain ⟨error, flag', errno, hrun, haccepts, -⟩ := h ⟨⟨[], by simp⟩, false, false, .int 0⟩ 0 rfl
  rw [flagsParseFlag_takes rfl htakes] at hrun
  obtain ⟨herror, -⟩ := Prod.mk.inj (Res.ok.inj hrun)
  exact haccepts.mp herror.symm

theorem meansInt_of_plainInt (h : PlainInt arg.chars) : MeansInt arg := by
  intro flag old hint
  by_cases htaken : ∃ n, Takes arg.chars n
  · obtain ⟨n, htakes⟩ := htaken
    refine ⟨_, _, _, flagsParseFlag_takes hint htakes, ?_, fun _ => ⟨n, (h.isInt htakes).1, rfl⟩⟩
    exact ⟨fun _ => ⟨n, h.isInt htakes⟩, fun _ => rfl⟩
  · obtain ⟨error, errno, hrun⟩ := flagsParseFlag_refuses hint (not_exists.mp htaken)
    refine ⟨_, _, _, hrun, ⟨nofun, ?_⟩, nofun⟩
    rintro ⟨v, hv⟩
    exact absurd ⟨v, hv.takes⟩ htaken

/-- Int flags take a text for what it says exactly when it is not empty and, if it is
an integer of 64 bits, is one of 32. -/
theorem meansInt_iff (arg : CStr) : MeansInt arg ↔ PlainInt arg.chars := ⟨plainInt_of_meansInt, meansInt_of_plainInt⟩

/-- The empty text is taken for 0. -/
theorem meansInt_fails : ¬ ∀ arg, MeansInt arg := fun hall =>
  (plainInt_of_meansInt (hall ⟨[], by simp⟩)).1 rfl

end OSForReal.Proof.TagFS
