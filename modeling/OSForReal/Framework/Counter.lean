import Mathlib.Data.List.Range
import Mathlib.Tactic.Ring

/-!
# Loops over a counter

`for (i = 0; i < n; i++)` is a fold over `List.range n` in the monad of its body.
`foldlM_range` is the rule that proofs use: what each turn gives the next one.
-/

namespace Framework

/-- If every turn returns and takes `I k` to `I (k + 1)`, the loop returns and gives `I n`. -/
theorem foldlM_range {σ : Type} {m : Type → Type} [Monad m] [LawfulMonad m] {f : σ → Nat → m σ}
    {I : Nat → σ → Prop} {n : Nat} {s : σ} (h0 : I 0 s)
    (hstep : ∀ k < n, ∀ s, I k s → ∃ s', f s k = pure s' ∧ I (k + 1) s') :
    ∃ s', (List.range n).foldlM f s = pure s' ∧ I n s' := by
  induction n with
  | zero => exact ⟨s, rfl, h0⟩
  | succ n ih =>
    obtain ⟨s₁, hs₁, h₁⟩ := ih fun k hk => hstep k (Nat.lt_succ_of_lt hk)
    obtain ⟨s₂, hs₂, h₂⟩ := hstep n (Nat.lt_succ_self n) s₁ h₁
    refine ⟨s₂, ?_, h₂⟩
    rw [List.range_succ, List.foldlM_append, hs₁, pure_bind, List.foldlM_cons, hs₂, pure_bind]
    rfl

end Framework
