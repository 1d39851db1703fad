import Mathlib.Tactic.Ring

/-!
# Linear search

`scan p n i` is the loop `for (; i < n; i++) if (p(i)) break;`, by the value of
`i` it leaves.
-/

namespace Framework

/-- `k` steps of the search from `i` on. -/
def scanFor (p : Nat → Bool) : Nat → Nat → Nat
  | 0, i => i
  | k + 1, i => if p i then i else scanFor p k (i + 1)

/-- The first index from `i` on, below `n`, of which `p` holds; `n` if there is none. -/
def scan (p : Nat → Bool) (n i : Nat) : Nat := scanFor p (n - i) i

variable {p q : Nat → Bool} {n i j : Nat}

theorem scanFor_spec (p : Nat → Bool) (k i : Nat) :
    i ≤ scanFor p k i ∧ scanFor p k i ≤ i + k ∧ (scanFor p k i < i + k → p (scanFor p k i) = true) ∧
      ∀ j, i ≤ j → j < scanFor p k i → p j = false := by
  induction k generalizing i with
  | zero => exact ⟨Nat.le_refl _, Nat.le_refl _, fun h => absurd h (Nat.lt_irrefl _),
      fun j h h' => absurd h' (by simp only [scanFor]; omega)⟩
  | succ k ih =>
    unfold scanFor
    split
    · rename_i hp
      exact ⟨Nat.le_refl _, by omega, fun _ => hp, fun j h h' => by omega⟩
    · rename_i hp
      obtain ⟨h1, h2, h3, h4⟩ := ih (i + 1)
      refine ⟨by omega, by omega, fun h => h3 (by omega), fun j h h' => ?_⟩
      by_cases hj : j = i
      · rw [hj]
        simpa using hp
      · exact h4 j (by omega) h'

theorem le_scan (p : Nat → Bool) (n i : Nat) : i ≤ scan p n i := (scanFor_spec p (n - i) i).1

theorem scan_le (hi : i ≤ n) : scan p n i ≤ n := by
  have := (scanFor_spec p (n - i) i).2.1
  unfold scan
  omega

theorem scan_spec (h : scan p n i < n) : p (scan p n i) = true :=
  (scanFor_spec p (n - i) i).2.2.1 (by unfold scan at h; omega)

theorem scan_before (h : i ≤ j) (hj : j < scan p n i) : p j = false := (scanFor_spec p (n - i) i).2.2.2 j h hj

theorem scan_lt_iff : scan p n 0 < n ↔ ∃ j < n, p j = true := by
  constructor
  · intro h
    exact ⟨_, h, scan_spec h⟩
  · rintro ⟨j, hj, hp⟩
    by_contra hle
    have hmiss : p j = false := scan_before (Nat.zero_le j) (Nat.lt_of_lt_of_le hj (Nat.le_of_not_lt hle))
    rw [hp] at hmiss
    cases hmiss

theorem scan_eq_iff (hi : i ≤ j) (hj : j < n) (hin : i ≤ n) :
    scan p n i = j ↔ p j = true ∧ ∀ k, i ≤ k → k < j → p k = false := by
  constructor
  · rintro rfl
    exact ⟨scan_spec hj, fun k hk hk' => scan_before hk hk'⟩
  · rintro ⟨hp, hlow⟩
    have hle := scan_le (p := p) hin
    rcases Nat.lt_trichotomy (scan p n i) j with h | h | h
    · have hfound : p (scan p n i) = true := scan_spec (Nat.lt_trans h hj)
      rw [hlow _ (le_scan p n i) h] at hfound
      cases hfound
    · exact h
    · have hmiss : p j = false := scan_before hi h
      rw [hp] at hmiss
      cases hmiss

theorem scan_congr (h : ∀ k, i ≤ k → k < n → p k = q k) : scan p n i = scan q n i := by
  have key : ∀ k i, (∀ j, i ≤ j → j < i + k → p j = q j) → scanFor p k i = scanFor q k i := by
    intro k
    induction k with
    | zero => intro i _; rfl
    | succ k ih =>
      intro i hk
      simp only [scanFor, hk i (Nat.le_refl _) (by omega)]
      rw [ih (i + 1) fun j h1 h2 => hk j (by omega) (by omega)]
  exact key _ _ fun j h1 h2 => h j h1 (by omega)

end Framework
