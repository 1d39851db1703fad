import OSForReal.Framework.Res

/-!
# Computations that do the same

Two computations are `Related` when they end alike, and with related values if they
return. A function over an interface is related to itself over another one:
one rule for each way to build a computation, and `Related.loop`.
-/

namespace Framework.Res

/-- Both return, with related values, or stop, or run on. -/
inductive Related {α β : Type} (R : α → β → Prop) : Res α → Res β → Prop
  | ok {a : α} {b : β} (h : R a b) : Related R (.ok a) (.ok b)
  | halt : Related R .halt .halt
  | timeout : Related R .timeout .timeout

variable {α β γ δ : Type} {R : α → β → Prop} {S : γ → δ → Prop} {x : Res α} {y : Res β}

theorem Related.bind {f : α → Res γ} {g : β → Res δ} (h : Related R x y) (hfg : ∀ a b, R a b → Related S (f a) (g b)) :
    Related S (x >>= f) (y >>= g) := by
  cases h with
  | ok h => exact hfg _ _ h
  | halt => exact .halt
  | timeout => exact .timeout

/-- The same assertion. -/
theorem Related.assert {c : Prop} [Decidable c] {f : Unit → Res γ} {g : Unit → Res δ} (h : c → Related S (f ()) (g ())) :
    Related S (Res.assert c >>= f) (Res.assert c >>= g) := by
  by_cases hc : c
  · rw [assert_bind hc, assert_bind hc]
    exact h hc
  · rw [Res.assert, if_neg hc]
    exact .halt

/-- Loops whose passes continue with related states, or leave with related results. -/
theorem Related.loop {body : α → Res (α ⊕ γ)} {body' : β → Res (β ⊕ δ)} {a : α} {b : β} (h : R a b)
    (hstep : ∀ a b, R a b → Related (Sum.LiftRel R S) (body a) (body' b)) (n : Nat) :
    Related S (Res.loop body n a) (Res.loop body' n b) := by
  induction n generalizing a b with
  | zero => exact .timeout
  | succ n ih =>
    rw [loop_succ, loop_succ]
    refine (hstep a b h).bind fun r r' hr => ?_
    cases hr with
    | inl h => exact ih h
    | inr h => exact .ok h

/-- What is returned is related to what the other one returns. -/
theorem Related.of_ok {a : α} (h : Related R x y) (hx : x = .ok a) : ∃ b, y = .ok b ∧ R a b := by
  cases h with
  | ok h =>
    cases hx
    exact ⟨_, rfl, h⟩
  | halt => cases hx
  | timeout => cases hx

theorem Related.of_ok' {b : β} (h : Related R x y) (hy : y = .ok b) : ∃ a, x = .ok a ∧ R a b := by
  cases h with
  | ok h =>
    cases hy
    exact ⟨_, rfl, h⟩
  | halt => cases hy
  | timeout => cases hy

/-- What one returns with enough fuel the other does, if it is related to one result only. -/
theorem Related.returns {f : Nat → Res α} {g : Nat → Res β} {b : β} (h : ∀ n, Related R (f n) (g n))
    (hR : ∀ a a', R a b → R a' b → a = a') (hg : Returns g b) : ∃ a, Returns f a ∧ R a b := by
  obtain ⟨n, hn⟩ := hg.enough
  obtain ⟨a, ha, hab⟩ := (h n).of_ok' (hn n (Nat.le_refl n))
  refine ⟨a, ⟨⟨n, fun m hm => ?_⟩, fun m c hc => ?_⟩, hab⟩
  · obtain ⟨a', ha', hab'⟩ := (h m).of_ok' (hn m hm)
    rw [ha', hR a' a hab' hab]
  · obtain ⟨b', hb', hcb⟩ := (h m).of_ok hc
    obtain rfl := hg.only m b' hb'
    exact hR c a hcb hab

end Framework.Res
