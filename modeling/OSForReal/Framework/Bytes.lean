import Mathlib.Data.List.GetD
import Mathlib.Tactic.Ring

/-!
# Bytes in memory

Memory is a function from addresses to bytes. Little-endian words of 16 and 32
bits are read as natural numbers, C strings as lists of bytes without a NUL.
Every write is a `copy`.

* `copy_out`, `u16_copy_out`, `u32_copy_out`: what a write elsewhere keeps;
* `u16_setU16`, `u32_setU32`: reading back what was written;
* `strcmpEq_iff`: when a string in memory equals another.
-/

namespace Framework

/-- Memory. -/
abbrev Bytes := Nat → UInt8

namespace Bytes

/-- The 16-bit word at `a`. -/
def u16 (m : Bytes) (a : Nat) : Nat := (m a).toNat + 2 ^ 8 * (m (a + 1)).toNat

/-- The 32-bit word at `a`. -/
def u32 (m : Bytes) (a : Nat) : Nat := u16 m a + 2 ^ 16 * u16 m (a + 2)

/-- Copies `n` bytes to `a`. -/
def copy (m : Bytes) (a n : Nat) (src : Nat → UInt8) : Bytes := fun x =>
  if a ≤ x ∧ x < a + n then src (x - a) else m x

/-- Byte `k` of a word. -/
def byte (v k : Nat) : UInt8 := UInt8.ofNat (v / 2 ^ (8 * k))

/-- Writes a 16-bit word at `a`. -/
def setU16 (m : Bytes) (a v : Nat) : Bytes := copy m a 2 (byte v)

/-- Writes a 32-bit word at `a`. -/
def setU32 (m : Bytes) (a v : Nat) : Bytes := copy m a 4 (byte v)

variable {m m' : Bytes} {a b n v x : Nat} {src : Nat → UInt8}

theorem u16_lt : u16 m a < 2 ^ 16 := by
  have h0 := (m a).toNat_lt; have h1 := (m (a + 1)).toNat_lt
  unfold u16
  omega

theorem u16_congr (h : ∀ x, a ≤ x → x < a + 2 → m' x = m x) : u16 m' a = u16 m a := by
  unfold u16
  rw [h a (by omega) (by omega), h (a + 1) (by omega) (by omega)]

theorem u32_congr (h : ∀ x, a ≤ x → x < a + 4 → m' x = m x) : u32 m' a = u32 m a := by
  unfold u32
  rw [u16_congr fun x h1 h2 => h x h1 (by omega), u16_congr fun x h1 h2 => h x (by omega) (by omega)]

/-- A byte is not the only one. -/
theorem exists_byte_ne (b : UInt8) : ∃ c, c ≠ b := by
  by_cases h : b = 0
  · exact ⟨1, by rw [h]; decide⟩
  · exact ⟨0, fun h0 => h h0.symm⟩

/-! ## Writes -/

theorem copy_out (h : x < a ∨ a + n ≤ x) : copy m a n src x = m x := if_neg (by omega)

theorem copy_in (h : a ≤ x) (h' : x < a + n) : copy m a n src x = src (x - a) := if_pos ⟨h, h'⟩

/-- Only the first `n` bytes of the source are copied. -/
theorem copy_congr_src {src' : Nat → UInt8} (hsrc : ∀ k < n, src k = src' k) : copy m a n src = copy m a n src' := by
  funext x
  by_cases hin : a ≤ x ∧ x < a + n
  · rw [copy_in hin.1 hin.2, copy_in hin.1 hin.2]
    exact hsrc _ (by omega)
  · rw [copy_out (by omega), copy_out (by omega)]

/-- A byte after a copy, counted from a place before it. -/
theorem copy_add {o k : Nat} : copy m (a + o) n src (a + k) = if o ≤ k ∧ k < o + n then src (k - o) else m (a + k) := by
  split
  · rw [copy_in (by omega) (by omega), show a + k - (a + o) = k - o by omega]
  · exact copy_out (by omega)

/-- Copies to places that do not overlap, in either order. -/
theorem copy_comm {k : Nat} {src' : Nat → UInt8} (h : a + n ≤ b ∨ b + k ≤ a) :
    copy (copy m a n src) b k src' = copy (copy m b k src') a n src := by
  funext x
  by_cases ha : a ≤ x ∧ x < a + n
  · rw [copy_out (by omega), copy_in ha.1 ha.2, copy_in ha.1 ha.2]
  · rw [copy_out (m := copy m b k src') (by omega)]
    by_cases hb : b ≤ x ∧ x < b + k
    · rw [copy_in hb.1 hb.2, copy_in hb.1 hb.2]
    · rw [copy_out (by omega), copy_out (by omega), copy_out (by omega)]

theorem u16_copy_out (h : b + 2 ≤ a ∨ a + n ≤ b) : u16 (copy m a n src) b = u16 m b :=
  u16_congr fun _ _ _ => copy_out (by omega)

theorem u32_copy_out (h : b + 4 ≤ a ∨ a + n ≤ b) : u32 (copy m a n src) b = u32 m b :=
  u32_congr fun _ _ _ => copy_out (by omega)

theorem setU16_out (h : x < a ∨ a + 2 ≤ x) : setU16 m a v x = m x := copy_out h

theorem setU32_out (h : x < a ∨ a + 4 ≤ x) : setU32 m a v x = m x := copy_out h

theorem byte_toNat (v k : Nat) : (byte v k).toNat = v / 2 ^ (8 * k) % 2 ^ 8 := UInt8.toNat_ofNat'

theorem u16_copy_byte (hn : 2 ≤ n) : u16 (copy m a n (byte v)) a = v % 2 ^ 16 := by
  unfold u16
  rw [copy_in (by omega) (by omega), copy_in (by omega) (by omega), byte_toNat, byte_toNat, Nat.sub_self,
    Nat.add_sub_cancel_left]
  omega

theorem u16_setU16 (hv : v < 2 ^ 16) : u16 (setU16 m a v) a = v := by
  rw [setU16, u16_copy_byte (Nat.le_refl _), Nat.mod_eq_of_lt hv]

theorem u32_setU32 (hv : v < 2 ^ 32) : u32 (setU32 m a v) a = v := by
  have h2 : u16 (setU32 m a v) (a + 2) = v / 2 ^ 16 := by
    unfold u16 setU32
    rw [copy_in (by omega) (by omega), copy_in (by omega) (by omega), byte_toNat, byte_toNat,
      show a + 2 + 1 - a = 3 by omega, Nat.add_sub_cancel_left]
    omega
  rw [u32, h2, setU32, u16_copy_byte (by decide)]
  omega

/-! ## Arrays of 16-bit words -/

/-- Element `i` of the bytes as an array of 16-bit words. -/
def word16 (m : Bytes) (i : Nat) : UInt16 := UInt16.ofNat (u16 m (2 * i))

/-- The bytes of an array of 16-bit words. -/
def bytes16 (words : List UInt16) : List UInt8 := words.flatMap fun w => [byte w.toNat 0, byte w.toNat 1]

theorem word16_congr {i : Nat} (h0 : m' (2 * i) = m (2 * i)) (h1 : m' (2 * i + 1) = m (2 * i + 1)) :
    word16 m' i = word16 m i := by
  rw [word16, word16, u16, u16, h0, h1]

/-- An array read as words, and the words as bytes, is the bytes. -/
theorem bytes16_word16 (m : Bytes) (n : Nat) : bytes16 ((List.range n).map (word16 m)) = (List.range (2 * n)).map m := by
  induction n with
  | zero => rfl
  | succ n ih =>
    have hword : (word16 m n).toNat = u16 m (2 * n) := UInt16.toNat_ofNat_of_lt u16_lt
    have h0 := (m (2 * n)).toNat_lt; have h1 := (m (2 * n + 1)).toNat_lt
    have hlow : byte (u16 m (2 * n)) 0 = m (2 * n) := by
      refine UInt8.toNat_inj.mp ?_
      rw [byte_toNat, u16]
      omega
    have hhigh : byte (u16 m (2 * n)) 1 = m (2 * n + 1) := by
      refine UInt8.toNat_inj.mp ?_
      rw [byte_toNat, u16]
      omega
    rw [List.range_succ, List.map_append, bytes16, List.flatMap_append, ← bytes16, ih, Nat.mul_succ, List.range_succ,
      List.range_succ, List.map_append, List.map_append, List.append_assoc]
    simp [hword, hlow, hhigh]

end Bytes

/-! ## C strings -/

/-- A C string: its bytes before the NUL. -/
structure CStr where
  chars : List UInt8
  noNul : 0 ∉ chars
deriving DecidableEq

namespace CStr

open Bytes

/-- `strlen` -/
def strlen (s : CStr) : Nat := s.chars.length

instance : Inhabited CStr := ⟨⟨[], by simp⟩⟩

theorem ext_chars {s t : CStr} (h : s.chars = t.chars) : s = t := by
  cases s
  cases t
  cases h
  rfl

end CStr

namespace Bytes

variable {m m' : Bytes} {a n : Nat}

/-- The bytes from `a` on are those of `s` and a NUL. -/
def hasChars (m : Bytes) (a : Nat) : List UInt8 → Bool
  | [] => m a == 0
  | c :: s => m a == c && hasChars m (a + 1) s

/-- `strcmp` of the string at `a` and `s` is 0. -/
def strcmpEq (m : Bytes) (a : Nat) (s : CStr) : Bool := hasChars m a s.chars

/-- The string at `a`, if it ends within `n` bytes. -/
def strAt (m : Bytes) (a : Nat) : Nat → Option CStr
  | 0 => none
  | n + 1 =>
    if h : m a = 0 then some ⟨[], by simp⟩
    else (strAt m (a + 1) n).map fun s => ⟨m a :: s.chars, by simp [Ne.symm h, s.noNul]⟩

/-- `strcpy` of `s` to `a`. -/
def strcpy (m : Bytes) (a : Nat) (s : CStr) : Bytes := copy m a (s.strlen + 1) fun k => s.chars.getD k 0

theorem hasChars_iff {l : List UInt8} : hasChars m a l = true ↔ ∀ k ≤ l.length, m (a + k) = l.getD k 0 := by
  induction l generalizing a with
  | nil => simp [hasChars]
  | cons c l ih =>
    simp only [hasChars, Bool.and_eq_true, beq_iff_eq, ih, List.length_cons]
    constructor
    · rintro ⟨h0, h⟩ k hk
      cases k with
      | zero => simpa using h0
      | succ k =>
        have := h k (by omega)
        rw [show a + (k + 1) = a + 1 + k by omega, this]
        simp
    · intro h
      refine ⟨by simpa using h 0 (by omega), fun k hk => ?_⟩
      have := h (k + 1) (by omega)
      rw [show a + 1 + k = a + (k + 1) by omega, this]
      simp

theorem strcmpEq_iff {s : CStr} : strcmpEq m a s = true ↔ ∀ k ≤ s.strlen, m (a + k) = s.chars.getD k 0 := hasChars_iff

theorem strcmpEq_congr {s : CStr} (h : ∀ x, a ≤ x → x ≤ a + s.strlen → m' x = m x) :
    strcmpEq m' a s = strcmpEq m a s := by
  rw [Bool.eq_iff_iff, strcmpEq_iff, strcmpEq_iff]
  constructor <;> intro hs k hk
  · rw [← hs k hk, h _ (by omega) (by omega)]
  · rw [← hs k hk, h _ (by omega) (by omega)]

theorem CStr.getD_ne_zero {s : CStr} {k : Nat} (h : k < s.strlen) : s.chars.getD k 0 ≠ 0 := by
  intro e
  rw [List.getD_eq_getElem _ _ h] at e
  exact s.noNul (e ▸ List.getElem_mem h)

theorem CStr.getD_eq_zero {s : CStr} : s.chars.getD s.strlen 0 = 0 := by simp [CStr.strlen]

/-- A string in memory equals at most one string. -/
theorem strcmpEq_unique {s t : CStr} (hs : strcmpEq m a s = true) (ht : strcmpEq m a t = true) : s = t := by
  rw [strcmpEq_iff] at hs ht
  have hlen : s.strlen = t.strlen := by
    rcases Nat.lt_trichotomy s.strlen t.strlen with h | h | h
    · exact absurd ((ht _ (Nat.le_of_lt h)).symm.trans ((hs _ (Nat.le_refl _)).trans CStr.getD_eq_zero)) (CStr.getD_ne_zero h)
    · exact h
    · exact absurd ((hs _ (Nat.le_of_lt h)).symm.trans ((ht _ (Nat.le_refl _)).trans CStr.getD_eq_zero)) (CStr.getD_ne_zero h)
  refine CStr.ext_chars (List.ext_getElem hlen fun k hk hk' => ?_)
  have h := (hs k (Nat.le_of_lt hk)).symm.trans (ht k (Nat.le_of_lt hk'))
  rwa [List.getD_eq_getElem _ _ hk, List.getD_eq_getElem _ _ hk'] at h

theorem strcmpEq_strcpy {s : CStr} : strcmpEq (strcpy m a s) a s = true := by
  rw [strcmpEq_iff]
  intro k hk
  rw [strcpy, copy_in (by omega) (by omega), Nat.add_sub_cancel_left]

/-- A string in memory is empty when its first byte is NUL. -/
theorem strcmpEq_first {s : CStr} (h : strcmpEq m a s = true) : m a = 0 ↔ s.chars = [] := by
  have h0 := strcmpEq_iff.mp h 0 (Nat.zero_le _)
  rw [Nat.add_zero] at h0
  rw [h0]
  constructor
  · intro e
    by_contra hne
    exact CStr.getD_ne_zero (List.length_pos_iff.mpr hne) e
  · intro e
    simp [e]

theorem strAt_eq_some {s : CStr} : strAt m a n = some s ↔ strcmpEq m a s = true ∧ s.strlen < n := by
  induction n generalizing a s with
  | zero => simp [strAt]
  | succ n ih =>
    obtain ⟨l, hl⟩ := s
    rw [strAt]
    cases l with
    | nil =>
      by_cases h : m a = 0
      · simp [h, strcmpEq, hasChars, CStr.strlen]
      · simp [h, strcmpEq, hasChars]
    | cons c l =>
      have hc : c ≠ 0 := fun e => hl (e ▸ List.mem_cons_self)
      by_cases h : m a = 0
      · have hne : m a ≠ c := fun e => hc (e.symm.trans h)
        simp [h, strcmpEq, hasChars, hc.symm]
      · rw [dif_neg h]
        have htail : 0 ∉ l := fun hm => hl (List.mem_cons_of_mem _ hm)
        constructor
        · intro e
          obtain ⟨t, ht, e⟩ := Option.map_eq_some_iff.mp e
          obtain ⟨h1, h2⟩ := ih.mp ht
          obtain ⟨rfl, rfl⟩ := List.cons.inj (congrArg CStr.chars e)
          exact ⟨by simpa [strcmpEq, hasChars] using h1, Nat.succ_lt_succ h2⟩
        · rintro ⟨h1, h2⟩
          obtain ⟨h0, h1⟩ : m a = c ∧ hasChars m (a + 1) l = true := by simpa [strcmpEq, hasChars] using h1
          have ht : strAt m (a + 1) n = some ⟨l, htail⟩ := ih.mpr ⟨h1, Nat.lt_of_succ_lt_succ h2⟩
          rw [ht]
          simp [h0]

end Bytes

end Framework
