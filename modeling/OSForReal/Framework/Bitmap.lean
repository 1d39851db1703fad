import Mathlib.Tactic.Ring

/-!
# Bitmaps of 32-bit words

A bitmap is an array of words; bit `n` is bit `n % 32` of word `n / 32`.

* `isSet_setBit`, `isSet_clearBit`, `isSet_clearAll`: what setting and clearing bits changes;
* `ext_isSet`: a bitmap is its bits;
* `firstClear_eq_some`, `firstClear_eq_none`: the search for a clear bit, a word
  at a time, finds the lowest one.
-/

namespace Framework.Bitmap

/-- A bitmap, as its words. -/
abbrev Words := Nat → BitVec 32

/-- Bit `n` is set. -/
def isSet (b : Words) (n : Nat) : Bool := (b (n / 32)).getLsbD (n % 32)

/-- Sets bit `n`. -/
def setBit (b : Words) (n : Nat) : Words := Function.update b (n / 32) (b (n / 32) ||| 1#32 <<< (n % 32))

@[simp] theorem isSet_setBit (b : Words) (n m : Nat) : isSet (setBit b n) m = (isSet b m || decide (m = n)) := by
  unfold isSet setBit
  by_cases hw : m / 32 = n / 32
  · have hm : m = n ↔ m % 32 = n % 32 := by omega
    have hlt : m % 32 < 32 := Nat.mod_lt _ (by decide)
    rw [hw, Function.update_self, BitVec.getLsbD_or, BitVec.getLsbD_shiftLeft, BitVec.getLsbD_one]
    have hn : n % 32 < 32 := Nat.mod_lt _ (by decide)
    rw [show decide (m = n) = decide (m % 32 = n % 32) from decide_eq_decide.mpr hm]
    by_cases h : m % 32 = n % 32
    · simp [h, hn]
    · have hzero : m % 32 < n % 32 ∨ ¬ m % 32 - n % 32 = 0 := by omega
      rcases hzero with h' | h' <;> simp [h, h']
  · have hm : m ≠ n := fun e => hw (e ▸ rfl)
    rw [Function.update_of_ne hw]
    simp [hm]

/-- Clears bit `n`. -/
def clearBit (b : Words) (n : Nat) : Words := Function.update b (n / 32) (b (n / 32) &&& ~~~ (1#32 <<< (n % 32)))

@[simp] theorem isSet_clearBit (b : Words) (n m : Nat) : isSet (clearBit b n) m = (isSet b m && decide (m ≠ n)) := by
  unfold isSet clearBit
  by_cases hw : m / 32 = n / 32
  · have hm : m ≠ n ↔ m % 32 ≠ n % 32 := by omega
    have hlt : m % 32 < 32 := Nat.mod_lt _ (by decide)
    rw [hw, Function.update_self, BitVec.getLsbD_and, BitVec.getLsbD_not, BitVec.getLsbD_shiftLeft, BitVec.getLsbD_one]
    rw [show decide (m ≠ n) = decide (m % 32 ≠ n % 32) from decide_eq_decide.mpr hm]
    by_cases h : m % 32 = n % 32
    · simp [h]
    · have hzero : m % 32 < n % 32 ∨ ¬ m % 32 - n % 32 = 0 := by omega
      rcases hzero with h' | h' <;> simp [h, h', hlt]
  · have hm : m ≠ n := fun e => hw (e ▸ rfl)
    rw [Function.update_of_ne hw]
    simp [hm]

/-- Clearing the bits that `f` gives for a list clears these and no others. -/
theorem isSet_clearAll {α : Type*} (f : α → Nat) (l : List α) (b : Words) (m : Nat) :
    isSet (l.foldl (fun b a => clearBit b (f a)) b) m = true ↔ isSet b m = true ∧ ∀ a ∈ l, m ≠ f a := by
  induction l generalizing b with
  | nil => simp
  | cons a l ih =>
    rw [List.foldl_cons, ih, isSet_clearBit, Bool.and_eq_true, decide_eq_true_eq, List.forall_mem_cons, and_assoc]

/-- Bitmaps with the same bits are equal. -/
theorem ext_isSet {b c : Words} (h : ∀ n, isSet b n = true ↔ isSet c n = true) : b = c := by
  funext w
  refine BitVec.eq_of_getLsbD_eq fun i hi => ?_
  have hn := h (w * 32 + i)
  unfold isSet at hn
  rw [show (w * 32 + i) / 32 = w by omega, show (w * 32 + i) % 32 = i by omega] at hn
  exact Bool.eq_iff_iff.mpr hn

/-- The number of trailing zeros, as `__builtin_ctz` gives it for a word that is not 0. -/
def ctz (w : BitVec 32) : Nat := ((List.range 32).find? fun i => w.getLsbD i).getD 32

theorem ctz_spec {w : BitVec 32} (h : w ≠ 0) :
    ctz w < 32 ∧ w.getLsbD (ctz w) = true ∧ ∀ j < ctz w, w.getLsbD j = false := by
  unfold ctz
  cases hf : (List.range 32).find? fun i => w.getLsbD i with
  | none =>
    rw [List.find?_range_eq_none] at hf
    refine absurd (BitVec.eq_of_getLsbD_eq fun i hi => ?_) h
    simpa using hf i hi
  | some i =>
    rw [List.find?_range_eq_some] at hf
    obtain ⟨hi, hlt, hlow⟩ := hf
    exact ⟨List.mem_range.mp hlt, hi, fun j hj => by simpa using hlow j hj⟩

/-- The first of the words from `i` on, `n` of them, that is not all ones. -/
def firstWord (b : Words) : Nat → Nat → Option Nat
  | 0, _ => none
  | n + 1, i => if b i ≠ 0xffffffff#32 then some i else firstWord b n (i + 1)

/-- The lowest clear bit of `n` words. -/
def firstClear (b : Words) (n : Nat) : Option Nat :=
  (firstWord b n 0).map fun i => i * 32 + ctz (~~~ b i)

theorem firstWord_eq_some {b : Words} {n i j : Nat} (h : firstWord b n i = some j) :
    i ≤ j ∧ j < i + n ∧ b j ≠ 0xffffffff#32 ∧ ∀ k, i ≤ k → k < j → b k = 0xffffffff#32 := by
  induction n generalizing i with
  | zero => cases h
  | succ n ih =>
    simp only [firstWord] at h
    split at h
    · rename_i hi
      cases h
      exact ⟨Nat.le_refl _, by omega, hi, fun k hk hk' => by omega⟩
    · rename_i hi
      obtain ⟨h1, h2, h3, h4⟩ := ih h
      refine ⟨by omega, by omega, h3, fun k hk hk' => ?_⟩
      by_cases hki : k = i
      · subst hki
        simpa using hi
      · exact h4 k (by omega) hk'

theorem firstWord_eq_none {b : Words} {n i : Nat} (h : firstWord b n i = none) :
    ∀ k, i ≤ k → k < i + n → b k = 0xffffffff#32 := by
  induction n generalizing i with
  | zero => intro k h1 h2; omega
  | succ n ih =>
    simp only [firstWord] at h
    split at h
    · cases h
    · rename_i hi
      intro k h1 h2
      by_cases hki : k = i
      · subst hki
        simpa using hi
      · exact ih h k (by omega) (by omega)

theorem isSet_of_ones {b : Words} {n : Nat} (h : b (n / 32) = 0xffffffff#32) : isSet b n = true := by
  have hlt : n % 32 < 32 := Nat.mod_lt _ (by decide)
  unfold isSet
  rw [h, show (0xffffffff#32 : BitVec 32) = BitVec.allOnes 32 by decide, BitVec.getLsbD_allOnes]
  exact decide_eq_true hlt

/-- What the search finds is clear, and every bit below it is set. -/
theorem firstClear_eq_some {b : Words} {n m : Nat} (h : firstClear b n = some m) :
    m < n * 32 ∧ isSet b m = false ∧ ∀ k < m, isSet b k = true := by
  obtain ⟨i, hi, rfl⟩ := Option.map_eq_some_iff.mp h
  obtain ⟨-, hlt, hne, hlow⟩ := firstWord_eq_some hi
  have hnz : ~~~ b i ≠ 0 := fun e => hne (by rw [← BitVec.not_not (b := b i), e]; decide)
  obtain ⟨h1, h2, h3⟩ := ctz_spec hnz
  have hdiv : (i * 32 + ctz (~~~ b i)) / 32 = i := by omega
  have hmod : (i * 32 + ctz (~~~ b i)) % 32 = ctz (~~~ b i) := by omega
  refine ⟨by omega, ?_, fun k hk => ?_⟩
  · unfold isSet
    rw [hdiv, hmod]
    simpa [h1] using h2
  · by_cases hki : k / 32 = i
    · have := h3 (k % 32) (by omega)
      have hk32 : k % 32 < 32 := Nat.mod_lt _ (by decide)
      unfold isSet
      rw [hki]
      simpa [hk32] using this
    · exact isSet_of_ones (hlow (k / 32) (by omega) (by omega))

/-- The search finds nothing when every bit is set. -/
theorem firstClear_eq_none {b : Words} {n : Nat} : firstClear b n = none ↔ ∀ m < n * 32, isSet b m = true := by
  constructor
  · intro h m hm
    rw [firstClear, Option.map_eq_none_iff] at h
    exact isSet_of_ones (firstWord_eq_none h (m / 32) (by omega) (by omega))
  · intro h
    cases hf : firstClear b n with
    | none => rfl
    | some m =>
      obtain ⟨hlt, hclear, -⟩ := firstClear_eq_some hf
      rw [h m hlt] at hclear
      cases hclear

theorem firstClear_eq_some_iff {b : Words} {n m : Nat} :
    firstClear b n = some m ↔ m < n * 32 ∧ isSet b m = false ∧ ∀ k < m, isSet b k = true := by
  refine ⟨firstClear_eq_some, fun ⟨hm, hclear, hlow⟩ => ?_⟩
  cases hf : firstClear b n with
  | none =>
    rw [firstClear_eq_none.mp hf m hm] at hclear
    cases hclear
  | some k =>
    obtain ⟨-, hk, hlow'⟩ := firstClear_eq_some hf
    rcases Nat.lt_trichotomy k m with h | rfl | h
    · rw [hlow k h] at hk
      cases hk
    · rfl
    · rw [hlow' m h] at hclear
      cases hclear

end Framework.Bitmap
