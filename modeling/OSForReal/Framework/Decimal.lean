import Mathlib.Data.Nat.Digits.Defs
import Mathlib.Data.List.TakeWhile
import Mathlib.Tactic.Ring

/-!
# Signed decimal numerals

A numeral is a sign or none, and then digits; white space may stand before it.
`readNumber` reads the longest numeral that a text begins with.
`readNumber_eq_some_iff` says that a text is read to its end exactly when it is a
numeral, with the value of the numeral, so that a numeral has one value
(`Numeral.unique`).
-/

namespace Framework.Decimal

variable {s t ds : List UInt8} {c : UInt8} {v w : Int}

/-- White space: a blank, or one of tab, newline, vertical tab, form feed and carriage return. -/
def isSpace (c : UInt8) : Bool := c = 32 || (9 ≤ c && c ≤ 13)

def isDigit (c : UInt8) : Bool := 48 ≤ c && c ≤ 57

def digit (c : UInt8) : Nat := c.toNat - 48

/-- The value of digits as it is read, from the most significant one on. -/
def value (ds : List UInt8) : Nat := ds.foldl (fun v c => 10 * v + digit c) 0

/-- What a numeral stands for. -/
def signed (minus : Bool) (n : Nat) : Int := if minus then -(n : Int) else n

/-- A sign or none, and whether it is a minus. -/
inductive Sign : List UInt8 → Bool → Prop where
  | none : Sign [] false
  | plus : Sign [43] false
  | minus : Sign [45] true

/-- The text is a numeral with the value `v`. -/
def Numeral (s : List UInt8) (v : Int) : Prop :=
  ∃ space sign minus ds, s = space ++ (sign ++ ds) ∧ (∀ c ∈ space, isSpace c = true) ∧ Sign sign minus ∧
    ds ≠ [] ∧ (∀ c ∈ ds, isDigit c = true) ∧ v = signed minus (Nat.ofDigits 10 (ds.map digit).reverse)

/-- Splits the sign off. -/
def splitSign : List UInt8 → Bool × List UInt8
  | [] => (false, [])
  | c :: s => if c = 45 then (true, s) else if c = 43 then (false, s) else (false, c :: s)

/-- Reads the longest numeral that the text begins with: its value, and what follows. -/
def readNumber (s : List UInt8) : Option (Int × List UInt8) :=
  let (minus, t) := splitSign (s.dropWhile isSpace)
  let digits := t.takeWhile isDigit
  if digits = [] then none else some (signed minus (value digits), t.dropWhile isDigit)

/-! ## Values -/

theorem value_eq_ofDigits (ds : List UInt8) : value ds = Nat.ofDigits 10 (ds.map digit).reverse := by
  rw [Nat.ofDigits_eq_foldr, List.foldr_reverse, List.foldl_map, value]
  simp [Nat.add_comm]

/-! ## Signs -/

theorem not_space_of_digit (h : isDigit c = true) : isSpace c = false := by
  simp only [isDigit, Bool.and_eq_true, decide_eq_true_eq, UInt8.le_iff_toNat_le] at h
  have hlow : 48 ≤ c.toNat := h.1
  simp only [isSpace, Bool.or_eq_false_iff, Bool.and_eq_false_iff, decide_eq_false_iff_not, UInt8.le_iff_toNat_le]
  refine ⟨?_, .inr ?_⟩
  · rintro rfl
    exact absurd hlow (by decide)
  · show ¬ c.toNat ≤ 13
    omega

theorem Sign.head_not_space {sign : List UInt8} {minus : Bool} (h : Sign sign minus) (hds : ds ≠ [])
    (hdigit : ∀ c ∈ ds, isDigit c = true) : ∃ c t, sign ++ ds = c :: t ∧ isSpace c = false := by
  obtain ⟨c, t, rfl⟩ := List.exists_cons_of_ne_nil hds
  cases h with
  | none => exact ⟨c, t, rfl, not_space_of_digit (hdigit c List.mem_cons_self)⟩
  | plus => exact ⟨43, c :: t, rfl, rfl⟩
  | minus => exact ⟨45, c :: t, rfl, rfl⟩

theorem splitSign_append {sign : List UInt8} {minus : Bool} (h : Sign sign minus) (hds : ds ≠ [])
    (hdigit : ∀ c ∈ ds, isDigit c = true) : splitSign (sign ++ ds) = (minus, ds) := by
  obtain ⟨c, t, rfl⟩ := List.exists_cons_of_ne_nil hds
  cases h with
  | none =>
    have hc : isDigit c = true := hdigit c List.mem_cons_self
    have hminus : c ≠ 45 := by
      rintro rfl
      cases hc
    have hplus : c ≠ 43 := by
      rintro rfl
      cases hc
    simp [splitSign, hminus, hplus]
  | plus => rfl
  | minus => rfl

/-- What is split off is a sign. -/
theorem splitSign_sign (s : List UInt8) : ∃ sign, s = sign ++ (splitSign s).2 ∧ Sign sign (splitSign s).1 := by
  cases s with
  | nil => exact ⟨[], rfl, .none⟩
  | cons c s =>
    by_cases hminus : c = 45
    · exact ⟨[45], by simp [splitSign, hminus], by simpa [splitSign, hminus] using Sign.minus⟩
    · by_cases hplus : c = 43
      · exact ⟨[43], by simp [splitSign, hplus], by simpa [splitSign, hplus] using Sign.plus⟩
      · exact ⟨[], by simp [splitSign, hminus, hplus], by simpa [splitSign, hminus, hplus] using Sign.none⟩

/-! ## Numerals -/

/-- A numeral is read to its end. -/
theorem Numeral.read (h : Numeral s v) : readNumber s = some (v, []) := by
  obtain ⟨space, sign, minus, ds, rfl, hspace, hsign, hds, hdigit, rfl⟩ := h
  have hdrop : (space ++ (sign ++ ds)).dropWhile isSpace = sign ++ ds := by
    obtain ⟨c, t, heq, hc⟩ := hsign.head_not_space hds hdigit
    rw [List.dropWhile_append_of_pos hspace, heq, List.dropWhile_cons_of_neg (by simp [hc])]
  have hall : ds.takeWhile isDigit = ds := List.takeWhile_eq_self_iff.mpr hdigit
  have hnone : ds.dropWhile isDigit = [] := List.dropWhile_eq_nil_iff.mpr hdigit
  simp only [readNumber, hdrop, splitSign_append hsign hds hdigit, hall, hnone, if_neg hds, value_eq_ofDigits]

/-- What is read to its end is a numeral. -/
theorem numeral_of_read (h : readNumber s = some (v, [])) : Numeral s v := by
  obtain ⟨sign, hsplit, hsign⟩ := splitSign_sign (s.dropWhile isSpace)
  simp only [readNumber] at h
  generalize splitSign (s.dropWhile isSpace) = r at h hsplit hsign
  obtain ⟨minus, t⟩ := r
  simp only at h hsplit hsign
  split at h
  · cases h
  · rename_i hds
    simp only [Option.some.injEq, Prod.mk.injEq] at h
    obtain ⟨hv, hrest⟩ := h
    have hdigit : ∀ c ∈ t, isDigit c = true := List.dropWhile_eq_nil_iff.mp hrest
    have hall : t.takeWhile isDigit = t := List.takeWhile_eq_self_iff.mpr hdigit
    rw [hall] at hds hv
    refine ⟨s.takeWhile isSpace, sign, minus, t, ?_, fun c => List.mem_takeWhile_imp, hsign, hds, hdigit, ?_⟩
    · rw [← hsplit, List.takeWhile_append_dropWhile]
    · rw [← hv, value_eq_ofDigits]

theorem readNumber_eq_some_iff : readNumber s = some (v, []) ↔ Numeral s v := ⟨numeral_of_read, Numeral.read⟩

theorem Numeral.unique (h : Numeral s v) (h' : Numeral s w) : v = w := by
  have hsame := h.read.symm.trans h'.read
  simp only [Option.some.injEq, Prod.mk.injEq] at hsame
  exact hsame.1

/-- The empty text is not a numeral. -/
theorem not_numeral_nil : ¬ Numeral [] v := fun h => by
  have hread := h.read
  cases hread

end Framework.Decimal
