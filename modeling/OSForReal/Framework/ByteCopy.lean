import OSForReal.Framework.Bytes

/-!
# Copying byte by byte

`forward` copies bytes one after the other, from the first one on, within one
memory. It is a `copy` of what was there before (`forward_eq_copy`) unless
the destination begins inside the source: then it reads what it has written.
`u64` reads a word of 64 bits.
-/

namespace Framework.Bytes

/-- Copies `n` bytes from `src` to `dst`, the first one first. -/
def forward (m : Bytes) (dst src n : Nat) : Bytes :=
  (List.range n).foldl (fun m i => Function.update m (dst + i) (m (src + i))) m

variable {m : Bytes} {dst src n x : Nat}

theorem forward_succ : forward m dst src (n + 1) =
    Function.update (forward m dst src n) (dst + n) (forward m dst src n (src + n)) := by
  simp [forward, List.range_succ]

theorem forward_out (h : x < dst ∨ dst + n ≤ x) : forward m dst src n x = m x := by
  induction n with
  | zero => rfl
  | succ n ih =>
    rw [forward_succ, Function.update_of_ne (by omega)]
    exact ih (by omega)

/-- The bytes that are written are those that were read, where none of these was written before. -/
theorem forward_eq_copy (h : dst ≤ src ∨ src + n ≤ dst) : forward m dst src n = copy m dst n fun k => m (src + k) := by
  induction n with
  | zero =>
    funext x
    exact (copy_out (by omega)).symm
  | succ n ih =>
    rw [forward_succ, forward_out (by omega), ih (by omega)]
    funext x
    by_cases hx : x = dst + n
    · rw [hx, Function.update_self, copy_in (by omega) (by omega), Nat.add_sub_cancel_left]
    · rw [Function.update_of_ne hx]
      by_cases hin : dst ≤ x ∧ x < dst + n
      · rw [copy_in hin.1 hin.2, copy_in hin.1 (by omega)]
      · rw [copy_out (by omega), copy_out (by omega)]

/-! ## Words in two memories -/

variable {m' : Bytes} {a b : Nat}

/-- The 64-bit word at `a`. -/
def u64 (m : Bytes) (a : Nat) : Nat := u32 m a + 2 ^ 32 * u32 m (a + 4)

theorem u16_same (h : ∀ k < 2, m' (b + k) = m (a + k)) : u16 m' b = u16 m a := by
  have h₀ : m' b = m a := h 0 (by decide)
  rw [u16, u16, h₀, h 1 (by decide)]

theorem u32_same (h : ∀ k < 4, m' (b + k) = m (a + k)) : u32 m' b = u32 m a := by
  have hhigh : ∀ k < 2, m' (b + 2 + k) = m (a + 2 + k) := fun k hk => by
    rw [Nat.add_assoc, Nat.add_assoc]
    exact h (2 + k) (by omega)
  rw [u32, u32, u16_same fun k hk => h k (by omega), u16_same hhigh]

theorem u64_same (h : ∀ k < 8, m' (b + k) = m (a + k)) : u64 m' b = u64 m a := by
  have hhigh : ∀ k < 4, m' (b + 4 + k) = m (a + 4 + k) := fun k hk => by
    rw [Nat.add_assoc, Nat.add_assoc]
    exact h (4 + k) (by omega)
  rw [u64, u64, u32_same fun k hk => h k (by omega), u32_same hhigh]

end Framework.Bytes
