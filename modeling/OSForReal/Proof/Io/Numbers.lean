import OSForReal.Framework.Decimal
import OSForReal.Framework.Digits
import OSForReal.Std.Io

/-!
# What the functions print

`put_uint` and `put_hex` store the digits of a number in reverse order and print them
(`putDigits_eq`). The array of `put_uint` has 19 elements, so that it prints the
numbers below 10¹⁹ (`putUint_eq`), and that of `put_hex` has room for every number
(`putHex_eq`). `put_int` prints every `int` but the smallest one (`putInt_eq`), the
negation of which is itself. What is printed for a number is a numeral that
stands for it (`numeral_signedText`), and the one without leading zeros
(`printsNumbers_iff`).
-/

namespace OSForReal.Proof.Io

open Framework
open Framework.Bytes
open Framework.Digits
open OSForReal.Io

/-! ## Texts -/

def decimalChar (d : Nat) : UInt8 := (Nat.digitChar d).toUInt8

def hexChar (d : Nat) : UInt8 := (Nat.digitChar d).toUpper.toUInt8

/-- The digit that `hexChar` stands for. -/
def hexDigit (c : UInt8) : Nat := if c ≤ Char.toUInt8 '9' then c.toNat - 48 else c.toNat - 55

def decimalText (n : Nat) : List UInt8 := text 10 decimalChar n

def hexText (n : Nat) : List UInt8 := text 16 hexChar n

def signedText (n : Int) : List UInt8 :=
  if n < 0 then Char.toUInt8 '-' :: decimalText n.natAbs else decimalText n.natAbs

theorem digit_decimalChar : ∀ d < 10, Decimal.digit (decimalChar d) = d := by decide

theorem hexDigit_hexChar : ∀ d < 16, hexDigit (hexChar d) = d := by decide

theorem decimalText_injective {n n' : Nat} (h : decimalText n = decimalText n') : n = n' :=
  text_injective (by decide) digit_decimalChar h

theorem hexText_injective {n n' : Nat} (h : hexText n = hexText n') : n = n' :=
  text_injective (by decide) hexDigit_hexChar h

theorem isDigit_of_mem_decimalText {c : UInt8} {n : Nat} (h : c ∈ decimalText n) : Decimal.isDigit c = true := by
  obtain ⟨d, hd, rfl⟩ := mem_text (by decide) h
  have hall : ∀ d < 10, Decimal.isDigit (decimalChar d) = true := by decide
  exact hall d hd

/-- The text of an integer stands for it. -/
theorem numeral_signedText (n : Int) : Decimal.Numeral (signedText n) n := by
  have hvalue : Nat.ofDigits 10 ((decimalText n.natAbs).map Decimal.digit).reverse = n.natAbs :=
    ofDigits_text (by decide) digit_decimalChar
  by_cases hn : n < 0
  · refine ⟨[], [45], true, decimalText n.natAbs, ?_, nofun, .minus, text_ne_nil,
      fun c => isDigit_of_mem_decimalText, ?_⟩
    · rw [signedText, if_pos hn]
      rfl
    · rw [hvalue, Decimal.signed, if_pos rfl]
      omega
  · refine ⟨[], [], false, decimalText n.natAbs, ?_, nofun, .none, text_ne_nil,
      fun c => isDigit_of_mem_decimalText, ?_⟩
    · rw [signedText, if_neg hn]
      rfl
    · rw [hvalue, Decimal.signed, if_neg (by decide)]
      omega

theorem signedText_injective {n n' : Int} (h : signedText n = signedText n') : n = n' :=
  (numeral_signedText n).unique (h ▸ numeral_signedText n')

/-! ## Digits -/

section

variable {size b fuel : Nat} {digit rest : BitVec 64 → BitVec 64} {ds : List UInt8} {n : BitVec 64}

/-- The first loop stores all digits if there is room for them. -/
theorem storeDigits_loop (hb : 1 < b) (hdigit : ∀ n, (digit n).toNat = n.toNat % b)
    (hrest : ∀ n, (rest n).toNat = n.toNat / b) (hle : ds.length ≤ size) (hfuel : size < ds.length + fuel) :
    Res.loop (storeDigit size digit rest) fuel (ds, n) =
      if ds.length + (Nat.digits b n.toNat).length ≤ size then .ok (ds ++ (Nat.digits b n.toNat).map UInt8.ofNat)
      else .halt := by
  induction fuel generalizing ds n with
  | zero => omega
  | succ fuel ih =>
    by_cases hn : n > 0
    · have hpos : 0 < n.toNat := by simpa using BitVec.lt_def.mp hn
      have hdigits : Nat.digits b n.toNat = n.toNat % b :: Nat.digits b (rest n).toNat := by
        rw [hrest, Nat.digits_def' hb hpos]
      by_cases hroom : ds.length < size
      · have hstep : storeDigit size digit rest (ds, n) = .ok (.inl (ds ++ [UInt8.ofNat (n.toNat % b)], rest n)) := by
          have hchar : UInt8.ofBitVec ((digit n).setWidth 8) = UInt8.ofNat (n.toNat % b) := by
            rw [← hdigit]
            rfl
          rw [storeDigit, if_pos hn, Res.assert_bind hroom, hchar]
          rfl
        have hlength : (ds ++ [UInt8.ofNat (n.toNat % b)]).length = ds.length + 1 := List.length_append
        rw [Res.loop_continue hstep, ih (by omega) (by omega), hdigits, hlength, List.length_cons, List.map_cons,
          List.append_assoc, Nat.add_assoc, Nat.add_comm 1]
        rfl
      · have hhalt : storeDigit size digit rest (ds, n) = .halt := by
          rw [storeDigit, if_pos hn, Res.assert, if_neg hroom]
          rfl
        rw [Res.loop_succ, hhalt, hdigits, List.length_cons, if_neg (by omega)]
        rfl
    · have hzero : n.toNat = 0 := by simpa using BitVec.lt_def.not.mp hn
      have hleave : storeDigit size digit rest (ds, n) = .ok (.inr ds) := if_neg hn
      rw [Res.loop_leave hleave, hzero, Nat.digits_zero, List.length_nil, if_pos (by omega), List.map_nil,
        List.append_nil]

theorem map_range_reverse (char : UInt8 → UInt8) (ds : List UInt8) :
    ((List.range ds.length).map fun i => char (ds.getD (ds.length - i - 1) 0)) = ds.reverse.map char := by
  apply List.ext_getElem
  · simp
  · intro i hi hi'
    simp only [List.length_map, List.length_range] at hi
    rw [List.getElem_map, List.getElem_range, Nat.sub_right_comm, List.getElem_map, List.getElem_reverse,
      List.getD_eq_getElem _ _ (by omega)]

/-- The digits are printed in the right order if there is room for them. -/
theorem putDigits_eq {char : UInt8 → UInt8} {char' : Nat → UInt8} (hb : 1 < b)
    (hdigit : ∀ n, (digit n).toNat = n.toNat % b) (hrest : ∀ n, (rest n).toNat = n.toNat / b)
    (hchar : ∀ d < b, char (UInt8.ofNat d) = char' d) (hzero : char' 0 = Char.toUInt8 '0') :
    putDigits size digit rest char n = if n.toNat < b ^ size then .ok (text b char' n.toNat) else .halt := by
  by_cases hn : n = 0
  · subst hn
    have hlt : (0 : BitVec 64).toNat < b ^ size := Nat.pow_pos (Nat.zero_lt_of_lt hb)
    rw [putDigits, if_pos rfl, if_pos hlt]
    show Res.ok [Char.toUInt8 '0'] = .ok [char' 0]
    rw [hzero]
  · have hpos : n.toNat ≠ 0 := fun h => hn (BitVec.eq_of_toNat_eq h)
    rw [putDigits, if_neg hn, storeDigits_loop hb hdigit hrest (Nat.zero_le _) (by simp)]
    by_cases hroom : n.toNat < b ^ size
    · rw [if_pos hroom, if_pos (by simpa using (Nat.digits_length_le_iff hb _).mpr hroom), Res.ok_bind,
        map_range_reverse, text_pos hpos, List.nil_append, ← List.map_reverse, List.map_map]
      have hsame : (Nat.digits b n.toNat).reverse.map (char ∘ UInt8.ofNat) = (Nat.digits b n.toNat).reverse.map char' :=
        List.map_congr_left fun d hd => hchar d (Nat.digits_lt_base hb (List.mem_reverse.mp hd))
      rw [hsame]
      rfl
    · rw [if_neg hroom, if_neg (by simpa using (Nat.digits_length_le_iff hb _).not.mpr hroom)]
      rfl

end

/-- There is no room for a digit more than 19. -/
theorem putUint_eq (n : BitVec 64) : putUint n = if n.toNat < 10 ^ 19 then .ok (decimalText n.toNat) else .halt :=
  putDigits_eq (by decide) (fun _ => rfl) (fun _ => rfl) (by decide) (by decide)

theorem putHex_eq (n : BitVec 64) : putHex n = .ok (hexText n.toNat) := by
  have hlt : n.toNat < 16 ^ 16 := n.isLt
  have hdigits : putHex n = if n.toNat < 16 ^ 16 then .ok (hexText n.toNat) else .halt :=
    putDigits_eq (by decide) (fun n => by simpa using Nat.and_two_pow_sub_one_eq_mod n.toNat 4)
      (fun n => by simp [Nat.shiftRight_eq_div_pow]) (by decide) (by decide)
  rw [hdigits, if_pos hlt]

theorem signExtend_small {n : BitVec 32} (h : n.toNat < 2 ^ 31) : (n.signExtend 64).toNat = n.toNat := by
  have hmsb : n.msb = false := by
    rw [BitVec.msb_eq_decide, decide_eq_false_iff_not]
    omega
  rw [BitVec.signExtend_eq_setWidth_of_msb_false hmsb, BitVec.toNat_setWidth_of_le (by decide)]

/-- A negative `int` has 20 digits as a `uint64_t`. -/
theorem signExtend_large {n : BitVec 32} (h : 2 ^ 31 ≤ n.toNat) : 10 ^ 19 ≤ (n.signExtend 64).toNat := by
  have hmsb : n.msb = true := by
    rw [BitVec.msb_eq_decide, decide_eq_true_eq]
    exact h
  rw [BitVec.toNat_signExtend, if_pos hmsb]
  omega

/-- The smallest `int` is the only one that is not printed. -/
theorem putInt_eq (n : BitVec 32) : putInt n = if n.toInt ≠ -2 ^ 31 then .ok (signedText n.toInt) else .halt := by
  have hlt := n.isLt
  have hvalue : n.toInt = if 2 * n.toNat < 2 ^ 32 then (n.toNat : Int) else n.toNat - 2 ^ 32 := BitVec.toInt_eq_toNat_cond n
  by_cases h0 : n = 0
  · subst h0
    rfl
  have hpos : n.toNat ≠ 0 := fun h => h0 (BitVec.eq_of_toNat_eq h)
  by_cases hneg : n.toInt < 0
  · have hneg' : (-n).toNat = 2 ^ 32 - n.toNat := by
      rw [BitVec.toNat_neg, Nat.mod_eq_of_lt (by omega)]
    rw [putInt, if_neg h0, if_pos hneg, putUint_eq]
    by_cases hmin : n.toInt = -2 ^ 31
    · -- It is its own negation.
      have hlarge : 10 ^ 19 ≤ ((-n).signExtend 64).toNat := signExtend_large (by omega)
      rw [if_neg (by omega), if_neg (not_not.mpr hmin)]
      rfl
    · have habs : ((-n).signExtend 64).toNat = n.toInt.natAbs := by
        rw [signExtend_small (by omega)]
        omega
      rw [if_pos (by omega), if_pos hmin, habs, signedText, if_pos hneg]
      rfl
  · have habs : (n.signExtend 64).toNat = n.toInt.natAbs := by
      rw [signExtend_small (by omega)]
      omega
    rw [putInt, if_neg h0, if_neg hneg, putUint_eq, if_pos (by omega), if_pos (by omega), habs, signedText, if_neg hneg]

/-! ## Numerals -/

/-- The numeral of an integer without leading zeros, with a minus if it is negative. -/
def CanonicalSigned (s : List UInt8) (n : Int) : Prop :=
  ∃ t, Canonical 10 decimalChar t n.natAbs ∧ s = if n < 0 then Char.toUInt8 '-' :: t else t

theorem canonicalSigned_iff {s : List UInt8} {n : Int} : CanonicalSigned s n ↔ s = signedText n := by
  simp only [CanonicalSigned, canonical_iff (by decide : 1 < 10), exists_eq_left]
  rfl

/-- `put_uint` returns, so that every digit is stored inside the array, and prints the numeral of `n`. -/
def PrintsUint (n : BitVec 64) : Prop := ∃ s, putUint n = .ok s ∧ Canonical 10 decimalChar s n.toNat

/-- The same of `put_hex`. -/
def PrintsHex (n : BitVec 64) : Prop := ∃ s, putHex n = .ok s ∧ Canonical 16 hexChar s n.toNat

/-- The same of `put_int`. -/
def PrintsInt (n : BitVec 32) : Prop := ∃ s, putInt n = .ok s ∧ CanonicalSigned s n.toInt

/-- What is printed only if `c` is printed exactly if `c`. -/
theorem exists_ok_text_iff {c : Prop} [Decidable c] {text : List UInt8} :
    (∃ s, (if c then Res.ok text else .halt) = .ok s ∧ s = text) ↔ c := by
  simp

/-- Numbers of at most 19 digits are printed by `put_uint`, all numbers by `put_hex`, and all but the
smallest one by `put_int`. -/
theorem printsNumbers_iff (n : BitVec 64) (k : BitVec 32) : (PrintsUint n ↔ n.toNat < 10 ^ 19) ∧ PrintsHex n ∧
    (PrintsInt k ↔ k.toInt ≠ -2 ^ 31) := by
  refine ⟨?_, ?_, ?_⟩
  · simp only [PrintsUint, putUint_eq, canonical_iff (by decide : 1 < 10)]
    exact exists_ok_text_iff
  · exact ⟨_, putHex_eq n, (canonical_iff (by decide)).mpr rfl⟩
  · simp only [PrintsInt, putInt_eq, canonicalSigned_iff]
    exact exists_ok_text_iff

/-- 10¹⁹ has 20 digits, as the smallest `int` has once it is negated and extended. -/
theorem printsNumbers_fails : ¬ PrintsUint (BitVec.ofNat 64 (10 ^ 19)) ∧ ¬ PrintsInt (BitVec.ofInt 32 (-2 ^ 31)) := by
  constructor
  · rintro ⟨s, hs, -⟩
    rw [putUint_eq, if_neg (by decide)] at hs
    cases hs
  · rintro ⟨s, hs, -⟩
    rw [putInt_eq, if_neg (by decide)] at hs
    cases hs

/-! ## Strings -/

section

variable {m : Bytes} {str data fuel i len : Nat} {s : List UInt8}

/-- `strlen` counts the characters before the first NUL. -/
theorem strlen_ok_iff :
    Res.loop (strlenStep m str) fuel i = .ok len ↔
      i ≤ len ∧ len < i + fuel ∧ (∀ k, i ≤ k → k < len → m (str + k) ≠ 0) ∧ m (str + len) = 0 := by
  induction fuel generalizing i with
  | zero =>
    constructor
    · intro h
      cases h
    · rintro ⟨hle, hlt, -⟩
      omega
  | succ fuel ih =>
    by_cases hi : m (str + i) ≠ 0
    · have hstep : strlenStep m str i = .ok (.inl (i + 1)) := if_pos hi
      rw [Res.loop_continue hstep, ih]
      constructor
      · rintro ⟨hle, hlt, hbefore, hnul⟩
        refine ⟨by omega, by omega, fun k hk hk' => ?_, hnul⟩
        by_cases heq : k = i
        · rwa [heq]
        · exact hbefore k (by omega) hk'
      · rintro ⟨hle, hlt, hbefore, hnul⟩
        have hne : i ≠ len := fun heq => hi (heq ▸ hnul)
        exact ⟨by omega, by omega, fun k hk hk' => hbefore k (by omega) hk', hnul⟩
    · have hnul : m (str + i) = 0 := not_not.mp hi
      have hleave : strlenStep m str i = .ok (.inr i) := if_neg hi
      rw [Res.loop_leave hleave]
      constructor
      · intro h
        obtain rfl := Res.ok.inj h
        exact ⟨Nat.le_refl i, by omega, fun k hk hk' => by omega, hnul⟩
      · rintro ⟨hle, -, hbefore, -⟩
        have heq : i = len := by
          by_contra hne
          exact hbefore i (Nat.le_refl i) (by omega) hnul
        rw [heq]

/-- `write_string` prints the string that the memory has there. -/
theorem writeString_ok_iff :
    writeString m fuel data = .ok s ↔ s.length < fuel ∧ hasChars m data s = true ∧ 0 ∉ s := by
  rw [writeString, Res.bind_eq_ok, hasChars_iff]
  constructor
  · rintro ⟨len, hlen, hs⟩
    obtain ⟨-, hlt, hbefore, hnul⟩ := strlen_ok_iff.mp hlen
    obtain rfl := Res.ok.inj hs
    rw [List.length_map, List.length_range]
    refine ⟨by omega, fun k hk => ?_, fun hmem => ?_⟩
    · by_cases hk' : k < len
      · rw [List.getD_eq_getElem _ _ (by simpa using hk'), List.getElem_map, List.getElem_range]
      · rw [List.getD_eq_default _ _ (by simpa using hk'), show k = len by omega, hnul]
    · obtain ⟨k, hk, hzero⟩ := List.mem_map.mp hmem
      exact hbefore k (Nat.zero_le k) (List.mem_range.mp hk) hzero
  · rintro ⟨hlt, hchars, hnoNul⟩
    refine ⟨s.length, strlen_ok_iff.mpr ⟨Nat.zero_le _, by omega, fun k _ hk hzero => ?_, ?_⟩, ?_⟩
    · have hchar := hchars k (by omega)
      rw [hzero, List.getD_eq_getElem _ _ hk] at hchar
      exact hnoNul (hchar ▸ List.getElem_mem hk)
    · rw [hchars s.length (Nat.le_refl _), List.getD_eq_default _ _ (Nat.le_refl _)]
    · refine congrArg Res.ok (List.ext_getElem (by simp) fun k hk hk' => ?_)
      rw [List.getElem_map, List.getElem_range, hchars k (by omega), List.getD_eq_getElem _ _ hk']

end

end OSForReal.Proof.Io
