import Mathlib.Data.Nat.Digits.Lemmas
import Mathlib.Tactic.Ring

/-!
# Numbers as text

The text of a number (`text`) is its digits in some base from the most significant one
on, and one digit for 0. Where a digit can be read off its character, the number can
be read off its text (`ofDigits_text`), so that two numbers have two texts
(`text_injective`). It is the only numeral of the number without leading
zeros (`canonical_iff`).
-/

namespace Framework.Digits

variable {α : Type} {b n n' : Nat} {char : Nat → α} {digit : α → Nat}

def text (b : Nat) (char : Nat → α) (n : Nat) : List α :=
  if n = 0 then [char 0] else (Nat.digits b n).reverse.map char

theorem text_zero : text b char 0 = [char 0] := rfl

theorem text_pos (hn : n ≠ 0) : text b char n = (Nat.digits b n).reverse.map char := if_neg hn

theorem text_ne_nil : text b char n ≠ [] := by
  by_cases hn : n = 0
  · subst hn
    simp [text_zero]
  · simp [text_pos hn, Nat.digits_ne_nil_iff_ne_zero, hn]

/-- Every character is that of a digit. -/
theorem mem_text (hb : 1 < b) {c : α} (h : c ∈ text b char n) : ∃ d < b, c = char d := by
  by_cases hn : n = 0
  · subst hn
    exact ⟨0, Nat.zero_lt_of_lt hb, List.mem_singleton.mp h⟩
  · rw [text_pos hn] at h
    obtain ⟨d, hd, rfl⟩ := List.mem_map.mp h
    exact ⟨d, Nat.digits_lt_base hb (List.mem_reverse.mp hd), rfl⟩

/-- The digits of a text are those of its number. -/
theorem ofDigits_text (hb : 1 < b) (hchar : ∀ d < b, digit (char d) = d) :
    Nat.ofDigits b ((text b char n).map digit).reverse = n := by
  by_cases hn : n = 0
  · subst hn
    simp [text_zero, hchar 0 (Nat.zero_lt_of_lt hb)]
  · have hself : (Nat.digits b n).reverse.map (digit ∘ char) = (Nat.digits b n).reverse.map id :=
      List.map_congr_left fun d hd => hchar d (Nat.digits_lt_base hb (List.mem_reverse.mp hd))
    rw [text_pos hn, List.map_map, hself, List.map_id, List.reverse_reverse, Nat.ofDigits_digits]

theorem text_injective (hb : 1 < b) (hchar : ∀ d < b, digit (char d) = d) (h : text b char n = text b char n') :
    n = n' := by
  rw [← ofDigits_text (n := n) hb hchar, h, ofDigits_text hb hchar]

/-! ## Leading zeros -/

/-- Digits of `n`, the most significant one first, and no 0 before others. -/
structure CanonicalDigits (b n : Nat) (ds : List Nat) : Prop where
  digits : ∀ d ∈ ds, d < b
  nonempty : ds ≠ []
  leading : ds.head? = some 0 → ds = [0]
  value : Nat.ofDigits b ds.reverse = n

/-- A numeral of `n` without leading zeros. -/
def Canonical (b : Nat) (char : Nat → α) (s : List α) (n : Nat) : Prop :=
  ∃ ds, CanonicalDigits b n ds ∧ s = ds.map char

/-- Digits without leading zeros are those that division gives. -/
theorem CanonicalDigits.eq (hb : 1 < b) {ds : List Nat} (h : CanonicalDigits b n ds) (hn : n ≠ 0) :
    ds = (Nat.digits b n).reverse := by
  have hlast : ∀ hne : ds.reverse ≠ [], ds.reverse.getLast hne ≠ 0 := by
    intro hne hzero
    rw [List.getLast_reverse] at hzero
    have hds := h.leading (by rw [List.head?_eq_some_head h.nonempty, hzero])
    refine hn ?_
    rw [← h.value, hds]
    simp
  have hdigits := Nat.digits_ofDigits b hb ds.reverse (fun d hd => h.digits d (List.mem_reverse.mp hd)) hlast
  rw [← h.value, hdigits, List.reverse_reverse]

theorem canonicalDigits_digits (hb : 1 < b) (hn : n ≠ 0) : CanonicalDigits b n (Nat.digits b n).reverse where
  digits d hd := Nat.digits_lt_base hb (List.mem_reverse.mp hd)
  nonempty := by simp [Nat.digits_ne_nil_iff_ne_zero, hn]
  leading hzero := by
    rw [List.head?_reverse, List.getLast?_eq_some_getLast (Nat.digits_ne_nil_iff_ne_zero.mpr hn), Option.some.injEq] at hzero
    exact absurd hzero (Nat.getLast_digit_ne_zero b hn)
  value := by rw [List.reverse_reverse, Nat.ofDigits_digits]

/-- The text of a number is its only numeral without leading zeros. -/
theorem canonical_iff (hb : 1 < b) {s : List α} : Canonical b char s n ↔ s = text b char n := by
  by_cases hn : n = 0
  · subst hn
    constructor
    · rintro ⟨ds, h, rfl⟩
      have hhead : ds.head h.nonempty = 0 :=
        Nat.digits_zero_of_eq_zero (by omega) h.value _ (List.mem_reverse.mpr (List.head_mem h.nonempty))
      have hzero : ds = [0] := h.leading (by rw [List.head?_eq_some_head h.nonempty, hhead])
      rw [hzero, text_zero]
      rfl
    · rintro rfl
      exact ⟨[0], ⟨by simpa using Nat.zero_lt_of_lt hb, by simp, fun _ => rfl, by simp⟩, rfl⟩
  · rw [text_pos hn]
    constructor
    · rintro ⟨ds, h, rfl⟩
      rw [h.eq hb hn]
    · rintro rfl
      exact ⟨_, canonicalDigits_digits hb hn, rfl⟩

end Framework.Digits
